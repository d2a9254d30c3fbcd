import Roce.Lib.Machine
import Roce.Lib.Tally
import Roce.Lib.Word
import Mathlib.Data.Fintype.Prod
import Mathlib.Data.Rat.Defs

/-! # The buffer of a switch

`SwitchMmu`: what the packets in the queues of a switch are charged to. A packet of a port and a
priority is charged to the bytes reserved for them, to a pool that all share, or to the headroom of
the port, and it is not noted to which. -/

namespace Roce

open Function

/-- `pCnt`. -/
abbrev Port := Fin 257

/-- `qCnt`. -/
abbrev Priority := Fin 8

instance neZero_257 : NeZero 257 := ⟨by decide⟩

instance neZero_8 : NeZero 8 := ⟨by decide⟩

abbrev Slot := Port × Priority

/-- The fields of a `SwitchMmu` that do not change at run time. -/
structure MmuConfig where
  bufferSize : Nat := 12 * 1024 * 1024
  reserve : Nat := 4 * 1024
  resumeOffset : Nat := 3 * 1024
  headroom : Port → Nat := fun _ => 0
  pfcAShift : Port → Nat := fun _ => 0
  totalHdrm : Nat := 0
  totalRsrv : Nat := 0
  kmin : Port → Nat := fun _ => 0
  kmax : Port → Nat := fun _ => 0
  pmax : Port → Rat := fun _ => 0

structure SwitchMmu extends MmuConfig where
  sharedUsedBytes : Nat := 0
  hdrmBytes : Slot → Nat := fun _ => 0
  ingressBytes : Slot → Nat := fun _ => 0
  egressBytes : Slot → Nat := fun _ => 0
  paused : Slot → Bool := fun _ => false

namespace SwitchMmu

variable (mmu : SwitchMmu)

def getPfcThreshold (port : Port) : Nat :=
  if mmu.bufferSize < u32 (u32 (mmu.totalHdrm + mmu.totalRsrv) + mmu.sharedUsedBytes) then 0
  else sub32 (sub32 (sub32 mmu.bufferSize mmu.totalHdrm) mmu.totalRsrv) mmu.sharedUsedBytes >>>
    mmu.pfcAShift port

def getSharedUsed (s : Slot) : Nat :=
  if mmu.ingressBytes s > mmu.reserve then mmu.ingressBytes s - mmu.reserve else 0

def checkIngressAdmission (s : Slot) (psize : Nat) : Bool :=
  !(u32 (psize + mmu.hdrmBytes s) > mmu.headroom s.1 &&
    u32 (psize + mmu.getSharedUsed s) > mmu.getPfcThreshold s.1)

def updateIngressAdmission (s : Slot) (psize : Nat) : SwitchMmu :=
  let newBytes := u32 (mmu.ingressBytes s + psize)
  if newBytes ≤ mmu.reserve then
    { mmu with ingressBytes := update mmu.ingressBytes s newBytes }
  else if newBytes - mmu.reserve > mmu.getPfcThreshold s.1 then
    { mmu with hdrmBytes := update mmu.hdrmBytes s (u32 (mmu.hdrmBytes s + psize)) }
  else
    { mmu with
      ingressBytes := update mmu.ingressBytes s newBytes
      sharedUsedBytes := u32 (mmu.sharedUsedBytes + min psize (newBytes - mmu.reserve)) }

def updateEgressAdmission (s : Slot) (psize : Nat) : SwitchMmu :=
  { mmu with egressBytes := update mmu.egressBytes s (u32 (mmu.egressBytes s + psize)) }

/-- Nothing where an `NS_ABORT_IF` fires. -/
def removeFromIngressAdmission (s : Slot) (psize : Nat) : Option SwitchMmu :=
  let fromHdrm := min (mmu.hdrmBytes s) psize
  if psize < fromHdrm then none
  else
    let fromShared := min (psize - fromHdrm) (mmu.getSharedUsed s)
    if mmu.hdrmBytes s < fromHdrm ∨ mmu.ingressBytes s < psize - fromHdrm ∨
        mmu.sharedUsedBytes < fromShared then none
    else
      some { mmu with
        hdrmBytes := update mmu.hdrmBytes s (mmu.hdrmBytes s - fromHdrm)
        ingressBytes := update mmu.ingressBytes s (mmu.ingressBytes s - (psize - fromHdrm))
        sharedUsedBytes := mmu.sharedUsedBytes - fromShared }

def removeFromEgressAdmission (s : Slot) (psize : Nat) : SwitchMmu :=
  { mmu with egressBytes := update mmu.egressBytes s (sub32 (mmu.egressBytes s) psize) }

def checkShouldPause (s : Slot) : Bool :=
  !mmu.paused s && (mmu.hdrmBytes s > 0 || mmu.getSharedUsed s ≥ mmu.getPfcThreshold s.1)

def checkShouldResume (s : Slot) : Bool :=
  mmu.paused s && mmu.hdrmBytes s = 0 && (mmu.getSharedUsed s = 0 ||
    u32 (mmu.getSharedUsed s + mmu.resumeOffset) ≤ mmu.getPfcThreshold s.1)

def setPause (s : Slot) : SwitchMmu := { mmu with paused := update mmu.paused s true }

def setResume (s : Slot) : SwitchMmu := { mmu with paused := update mmu.paused s false }

end SwitchMmu

/-! ## The ledger of the ingress side -/

/-- The size of the packets charged to a slot, and of all packets. -/
def bytesAt (packets : List (Slot × Nat)) (s : Slot) : Nat := tally Prod.snd (·.1 = s) packets

def chargedBytes (packets : List (Slot × Nat)) : Nat := tally Prod.snd (fun _ => True) packets

/-- The counters of a `SwitchMmu` agree with the packets that are charged. -/
structure Ledger (mmu : SwitchMmu) (packets : List (Slot × Nat)) : Prop where
  charged : ∀ s, mmu.ingressBytes s + mmu.hdrmBytes s = bytesAt packets s
  shared : mmu.sharedUsedBytes = ∑ s, (mmu.ingressBytes s - mmu.reserve)
  headroom : ∀ s, mmu.hdrmBytes s ≤ mmu.headroom s.1

section

variable {mmu mmu' : SwitchMmu} {packets : List (Slot × Nat)} {s : Slot}

theorem Ledger.perm (h : Ledger mmu packets) (hperm : packets.Perm packets') :
    Ledger mmu packets' where
  charged s := (h.charged s).trans (tally_perm hperm)
  shared := h.shared
  headroom := h.headroom

theorem getSharedUsed_eq : mmu.getSharedUsed s = mmu.ingressBytes s - mmu.reserve := by
  unfold SwitchMmu.getSharedUsed
  split <;> omega

theorem bytesAt_le : bytesAt packets s ≤ chargedBytes packets :=
  tally_key_le Prod.snd Prod.fst packets s

theorem sum_bytesAt : ∑ s, bytesAt packets s = chargedBytes packets := by
  unfold bytesAt chargedBytes
  exact sum_tally Prod.snd Prod.fst packets

theorem Ledger.shared_le (h : Ledger mmu packets) : mmu.sharedUsedBytes ≤ chargedBytes packets := by
  rw [h.shared, ← sum_bytesAt]
  refine Finset.sum_le_sum fun s _ => ?_
  have hs := h.charged s
  omega

theorem Ledger.shared_ge (h : Ledger mmu packets) (s : Slot) :
    mmu.ingressBytes s - mmu.reserve ≤ mmu.sharedUsedBytes := by
  rw [h.shared]
  exact le_sum (fun s => mmu.ingressBytes s - mmu.reserve) s

/-- A change of the counters of one slot. -/
theorem Ledger.change (h : Ledger mmu packets) (hcfg : mmu'.toMmuConfig = mmu.toMmuConfig)
    (hingress : mmu'.ingressBytes = update mmu.ingressBytes s x)
    (hhdrm : mmu'.hdrmBytes = update mmu.hdrmBytes s y)
    (hcharged : x + y = bytesAt packets' s)
    (hother : ∀ t ≠ s, bytesAt packets' t = bytesAt packets t)
    (hshared : mmu'.sharedUsedBytes + (mmu.ingressBytes s - mmu.reserve) =
      mmu.sharedUsedBytes + (x - mmu.reserve))
    (hheadroom : y ≤ mmu.headroom s.1) : Ledger mmu' packets' := by
  constructor
  case charged =>
    intro t
    rw [hingress, hhdrm]
    by_cases ht : t = s
    · rw [ht, update_self, update_self, hcharged]
    · rw [update_of_ne ht, update_of_ne ht, h.charged, hother t ht]
  case shared =>
    have hsum := sum_update mmu.ingressBytes (· - mmu.reserve) s x
    rw [hcfg, hingress]
    rw [h.shared] at hshared
    omega
  case headroom =>
    intro t
    rw [hcfg, hhdrm]
    by_cases ht : t = s
    · rw [ht, update_self]
      exact hheadroom
    · rw [update_of_ne ht]
      exact h.headroom t

/-- An admission changes the ingress counters only. -/
theorem updateIngressAdmission_eq (mmu : SwitchMmu) (s : Slot) (psize : Nat) :
    ∃ hdrm ingress shared, mmu.updateIngressAdmission s psize = { mmu with
      hdrmBytes := hdrm, ingressBytes := ingress, sharedUsedBytes := shared } := by
  unfold SwitchMmu.updateIngressAdmission
  dsimp only
  split
  · exact ⟨_, _, _, rfl⟩
  · split
    · exact ⟨_, _, _, rfl⟩
    · exact ⟨_, _, _, rfl⟩

theorem toMmuConfig_updateIngressAdmission :
    (mmu.updateIngressAdmission s psize).toMmuConfig = mmu.toMmuConfig := by
  obtain ⟨hdrm, ingress, shared, h⟩ := updateIngressAdmission_eq mmu s psize
  rw [h]

theorem egressBytes_updateIngressAdmission :
    (mmu.updateIngressAdmission s psize).egressBytes = mmu.egressBytes := by
  obtain ⟨hdrm, ingress, shared, h⟩ := updateIngressAdmission_eq mmu s psize
  rw [h]

/-- A removal, of which no counter becomes negative. -/
theorem removeFromIngressAdmission_cases (h : mmu.removeFromIngressAdmission s psize = some mmu') :
    psize - min (mmu.hdrmBytes s) psize ≤ mmu.ingressBytes s ∧
      min (psize - min (mmu.hdrmBytes s) psize) (mmu.getSharedUsed s) ≤ mmu.sharedUsedBytes ∧
      mmu' = { mmu with
        hdrmBytes := update mmu.hdrmBytes s (mmu.hdrmBytes s - min (mmu.hdrmBytes s) psize)
        ingressBytes := update mmu.ingressBytes s
          (mmu.ingressBytes s - (psize - min (mmu.hdrmBytes s) psize))
        sharedUsedBytes := mmu.sharedUsedBytes -
          min (psize - min (mmu.hdrmBytes s) psize) (mmu.getSharedUsed s) } := by
  unfold SwitchMmu.removeFromIngressAdmission at h
  dsimp only at h
  split at h
  next => cases h
  next =>
    split at h
    next => cases h
    next hroom =>
      simp only [not_or, Nat.not_lt] at hroom
      exact ⟨hroom.2.1, hroom.2.2, (Option.some.inj h).symm⟩

theorem egressBytes_removeFromIngressAdmission
    (h : mmu.removeFromIngressAdmission s psize = some mmu') :
      mmu'.egressBytes = mmu.egressBytes := by
  obtain ⟨-, -, rfl⟩ := removeFromIngressAdmission_cases h
  rfl

theorem toMmuConfig_removeFromIngressAdmission
    (h : mmu.removeFromIngressAdmission s psize = some mmu') :
      mmu'.toMmuConfig = mmu.toMmuConfig := by
  obtain ⟨-, -, rfl⟩ := removeFromIngressAdmission_cases h
  rfl

theorem bytesAt_cons : bytesAt ((s, psize) :: packets) t =
    (if s = t then psize else 0) + bytesAt packets t :=
  tally_cons

theorem bytesAt_erase (h : (s, psize) ∈ packets) (t : Slot) : bytesAt packets t =
    (if s = t then psize else 0) + bytesAt (packets.erase (s, psize)) t := by
  rw [bytesAt, tally_erase h]
  rfl

/-- What is charged to the headroom fits into it, or the check had let the packet into the shared
pool. -/
theorem Ledger.accept (h : Ledger mmu packets) (hcheck : mmu.checkIngressAdmission s psize = true)
    (htotal : chargedBytes packets + psize < 2 ^ 32) :
    Ledger (mmu.updateIngressAdmission s psize) ((s, psize) :: packets) := by
  have hs := h.charged s
  have hle : bytesAt packets s ≤ chargedBytes packets := bytesAt_le
  have hshared := h.shared_le
  have hnew : u32 (mmu.ingressBytes s + psize) = mmu.ingressBytes s + psize :=
    u32_of_lt (by omega)
  have hself : bytesAt ((s, psize) :: packets) s = psize + bytesAt packets s := by
    rw [bytesAt_cons, if_pos rfl]
  have hother : ∀ t ≠ s, bytesAt ((s, psize) :: packets) t = bytesAt packets t := fun t ht => by
    rw [bytesAt_cons, if_neg (Ne.symm ht), Nat.zero_add]
  have hroom := h.headroom s
  unfold SwitchMmu.updateIngressAdmission
  rw [hnew]
  dsimp only
  split
  next hres =>
    exact h.change (y := mmu.hdrmBytes s) rfl rfl (update_eq_self s _).symm (by omega) hother
      (by dsimp only; omega) hroom
  next hres =>
    split
    next hthresh =>
      have hhdrm : u32 (mmu.hdrmBytes s + psize) = mmu.hdrmBytes s + psize :=
        u32_of_lt (by omega)
      rw [hhdrm]
      refine h.change (x := mmu.ingressBytes s) rfl (update_eq_self s _).symm rfl (by omega) hother
        rfl ?_
      have hpool : u32 (psize + (mmu.ingressBytes s - mmu.reserve)) =
          psize + (mmu.ingressBytes s - mmu.reserve) := u32_of_lt (by omega)
      have hhdrm' : u32 (psize + mmu.hdrmBytes s) = psize + mmu.hdrmBytes s := u32_of_lt (by omega)
      simp only [SwitchMmu.checkIngressAdmission, hhdrm', getSharedUsed_eq, hpool,
        Bool.not_eq_true', Bool.and_eq_false_iff, decide_eq_false_iff_not] at hcheck
      omega
    next hthresh =>
      have hpool : u32 (mmu.sharedUsedBytes + min psize
        (mmu.ingressBytes s + psize - mmu.reserve)) =
          mmu.sharedUsedBytes + min psize (mmu.ingressBytes s + psize - mmu.reserve) :=
        u32_of_lt (by omega)
      rw [hpool]
      exact h.change (y := mmu.hdrmBytes s) rfl rfl (update_eq_self s _).symm (by omega) hother
        (by dsimp only; omega) hroom

/-- A packet that was charged can be removed, whatever it was charged to. -/
theorem Ledger.remove (h : Ledger mmu packets) (hmem : (s, psize) ∈ packets) :
    ∃ mmu', mmu.removeFromIngressAdmission s psize = some mmu' ∧
      mmu'.toMmuConfig = mmu.toMmuConfig ∧ Ledger mmu' (packets.erase (s, psize)) := by
  have hs := h.charged s
  have hshared := h.shared_ge s
  have hself := bytesAt_erase hmem s
  rw [if_pos rfl] at hself
  have hother : ∀ t ≠ s, bytesAt (packets.erase (s, psize)) t = bytesAt packets t := fun t ht => by
    rw [bytesAt_erase hmem t, if_neg (Ne.symm ht), Nat.zero_add]
  have hroom := h.headroom s
  unfold SwitchMmu.removeFromIngressAdmission
  rw [getSharedUsed_eq]
  dsimp only
  rw [if_neg (by omega), if_neg (by omega)]
  refine ⟨_, rfl, rfl, h.change rfl rfl rfl (by omega) hother (by dsimp only; omega) (by omega)⟩

end

/-! ## Admissions and removals in any order -/

/-- A `SwitchMmu` and the packets that were admitted and not yet removed. -/
structure MmuRun where
  mmu : SwitchMmu
  packets : List (Slot × Nat)

inductive MmuEvent where
  | accept (s : Slot) (psize : Nat)
  | remove (s : Slot) (psize : Nat)

namespace MmuRun

inductive Step : MmuRun → MmuEvent → MmuRun → Prop
  /-- The check was passed on the same state. -/
  | accept {mmu : SwitchMmu} {packets : List (Slot × Nat)} :
    mmu.checkIngressAdmission s psize = true → chargedBytes packets + psize < 2 ^ 32 →
    Step ⟨mmu, packets⟩ (.accept s psize)
      ⟨mmu.updateIngressAdmission s psize, (s, psize) :: packets⟩
  | remove {mmu : SwitchMmu} {packets : List (Slot × Nat)} :
    (s, psize) ∈ packets → mmu.removeFromIngressAdmission s psize = some mmu' →
    Step ⟨mmu, packets⟩ (.remove s psize) ⟨mmu', packets.erase (s, psize)⟩

end MmuRun

/-- The runs of a `SwitchMmu` from its construction. -/
def MmuRun.machine (cfg : MmuConfig) : Machine MmuRun MmuEvent :=
  ⟨(· = ⟨{ toMmuConfig := cfg }, []⟩), MmuRun.Step⟩

theorem Ledger.init (cfg : MmuConfig) : Ledger { toMmuConfig := cfg } [] where
  charged _ := rfl
  shared := by simp
  headroom _ := Nat.zero_le _

theorem MmuRun.Step.ledger (h : Step r e r') (hl : Ledger r.mmu r.packets) :
    Ledger r'.mmu r'.packets ∧ r'.mmu.toMmuConfig = r.mmu.toMmuConfig := by
  cases h with
  | accept hcheck htotal =>
    exact ⟨Ledger.accept hl hcheck htotal, toMmuConfig_updateIngressAdmission⟩
  | remove hmem hrem =>
    obtain ⟨mmu', hrem', hcfg, hl'⟩ := Ledger.remove hl hmem
    cases hrem.symm.trans hrem'
    exact ⟨hl', hcfg⟩

/-- **The admission ledger**: after any admissions and removals the counters of a slot add up to
its packets, the shared pool to what the slots use beyond their reserve, the headroom is kept, and
every packet can be removed. -/
theorem mmu_ledger {cfg : MmuConfig} (h : (MmuRun.machine cfg).Reachable r) :
    (∀ s, r.mmu.ingressBytes s + r.mmu.hdrmBytes s = bytesAt r.packets s) ∧
    r.mmu.sharedUsedBytes = ∑ s, (r.mmu.ingressBytes s - cfg.reserve) ∧
    (∀ s, r.mmu.hdrmBytes s ≤ cfg.headroom s.1) ∧
    ∀ s psize, (s, psize) ∈ r.packets →
      (r.mmu.removeFromIngressAdmission s psize).isSome = true := by
  have hinv : Ledger r.mmu r.packets ∧ r.mmu.toMmuConfig = cfg := by
    refine h.invariant (I := fun r => Ledger r.mmu r.packets ∧ r.mmu.toMmuConfig = cfg) ?_ ?_
    · rintro _ rfl
      exact ⟨.init cfg, rfl⟩
    · rintro r e r' - ⟨hl, hcfg⟩ hst
      obtain ⟨hl', hcfg'⟩ := MmuRun.Step.ledger hst hl
      exact ⟨hl', hcfg'.trans hcfg⟩
  obtain ⟨hl, rfl⟩ := hinv
  refine ⟨hl.charged, hl.shared, hl.headroom, fun s psize hmem => ?_⟩
  obtain ⟨mmu', hrem, -⟩ := hl.remove hmem
  rw [hrem, Option.isSome_some]

/-- Of three packets of a slot the first is charged to the reserve and the shared pool, and the
second and the third, for which the pool is too small, to the headroom; the first leaves. -/
theorem mmu_ledger_headroom :
    let cfg : MmuConfig := { bufferSize := 6000, headroom := fun _ => 20000 }
    ∃ r, (MmuRun.machine cfg).Reachable r ∧
      r.packets = [((1, 3), 9000), ((1, 3), 9000)] ∧
      r.mmu.ingressBytes (1, 3) + r.mmu.hdrmBytes (1, 3) = 18000 ∧
      (r.mmu.removeFromIngressAdmission (1, 3) 9000).isSome = true := by
  intro cfg
  have haccept : ∀ {mmu : SwitchMmu} {packets : List (Slot × Nat)},
      (MmuRun.machine cfg).Reachable ⟨mmu, packets⟩ →
      mmu.checkIngressAdmission (1, 3) 9000 = true → chargedBytes packets + 9000 < 2 ^ 32 →
      (MmuRun.machine cfg).Reachable
        ⟨mmu.updateIngressAdmission (1, 3) 9000, ((1, 3), 9000) :: packets⟩ :=
    fun h hcheck htotal => h.step (.accept hcheck htotal)
  have hremove : ∀ {mmu : SwitchMmu} {packets : List (Slot × Nat)},
      (MmuRun.machine cfg).Reachable ⟨mmu, ((1, 3), 9000) :: packets⟩ →
      ∃ mmu', (MmuRun.machine cfg).Reachable ⟨mmu', packets⟩ := by
    intro mmu packets h
    obtain ⟨mmu', hrem⟩ := Option.isSome_iff_exists.mp
      ((mmu_ledger h).2.2.2 (1, 3) 9000 List.mem_cons_self)
    have h' := h.step (.remove List.mem_cons_self hrem)
    rw [List.erase_cons_head] at h'
    exact ⟨mmu', h'⟩
  have h₁ := haccept (.init rfl) (by decide) (by decide)
  have h₂ := haccept h₁ (by decide) (by decide)
  obtain ⟨mmu, h₃⟩ := hremove (haccept h₂ (by decide) (by decide))
  have hbytes : bytesAt [((1, 3), 9000), ((1, 3), 9000)] (1, 3) = 18000 := by decide
  exact ⟨_, h₃, rfl, ((mmu_ledger h₃).1 (1, 3)).trans hbytes,
    (mmu_ledger h₃).2.2.2 (1, 3) 9000 List.mem_cons_self⟩

end Roce
