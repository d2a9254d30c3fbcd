import Roce.Switch.Mmu

/-! # The size of the buffer

`ConfigNPort` sets the headroom of every port aside, and one reserve for every port. A packet is
charged to the reserve of its port and priority, and to a headroom that is also checked for each
priority of the port. What is not set aside is the shared pool, which is never overdrawn. -/

namespace Roce

open Function

namespace MmuConfig

def configHdrm (port : Port) (size : Nat) (cfg : MmuConfig) : MmuConfig :=
  { cfg with headroom := update cfg.headroom port size }

/-- `ConfigNPort`, for at most 256 ports. -/
def configNPort (nPort : Nat) (cfg : MmuConfig) : MmuConfig :=
  { cfg with
    totalHdrm := (List.range' 1 nPort).foldl (fun t i => u32 (t + cfg.headroom (.ofNat 257 i))) 0
    totalRsrv := (List.range' 1 nPort).foldl (fun t _ => u32 (t + cfg.reserve)) 0 }

end MmuConfig

namespace SwitchMmu

variable (mmu : SwitchMmu)

/-- All that is charged. -/
def buffered : Nat := ∑ s, (mmu.ingressBytes s + mmu.hdrmBytes s)

/-- What is charged to the reserves and to the headroom. -/
def apart : Nat := ∑ s, min (mmu.ingressBytes s) mmu.reserve + ∑ s, mmu.hdrmBytes s

/-- What is charged to the shared pool. -/
def pooled : Nat := ∑ s, (mmu.ingressBytes s - mmu.reserve)

/-- What `UpdateIngressAdmission` is going to charge to the reserve or to the headroom. -/
def need (s : Slot) (psize : Nat) : Nat :=
  let newBytes := u32 (mmu.ingressBytes s + psize)
  if newBytes > mmu.reserve ∧ newBytes - mmu.reserve > mmu.getPfcThreshold s.1 then psize
  else min newBytes mmu.reserve - min (mmu.ingressBytes s) mmu.reserve

/-- What is charged to the reserves and to the headroom was set aside, with the packet. -/
def SetAside (s : Slot) (psize : Nat) : Prop :=
  mmu.apart + mmu.need s psize ≤ mmu.totalHdrm + mmu.totalRsrv

instance (s : Slot) (psize : Nat) : Decidable (mmu.SetAside s psize) := Nat.decLe ..

theorem buffered_eq : mmu.buffered = mmu.apart + mmu.pooled := by
  have hsplit : ∀ s, mmu.ingressBytes s =
      min (mmu.ingressBytes s) mmu.reserve + (mmu.ingressBytes s - mmu.reserve) := fun s => by omega
  have hingress : ∑ s, mmu.ingressBytes s =
      ∑ s, min (mmu.ingressBytes s) mmu.reserve + mmu.pooled := by
    rw [pooled, ← Finset.sum_add_distrib]
    exact Finset.sum_congr rfl fun s _ => hsplit s
  rw [buffered, Finset.sum_add_distrib, hingress, apart]
  omega

end SwitchMmu

/-- The pool has what is charged to it, and is not larger than what is left of the buffer. -/
structure Pooled (mmu : SwitchMmu) : Prop where
  apart : mmu.apart ≤ mmu.totalHdrm + mmu.totalRsrv
  pooled : mmu.pooled ≤ mmu.sharedUsedBytes
  shared : mmu.sharedUsedBytes ≤ mmu.bufferSize - (mmu.totalHdrm + mmu.totalRsrv)
  configured : mmu.totalHdrm + mmu.totalRsrv ≤ mmu.bufferSize
  word : mmu.bufferSize < 2 ^ 32

section
variable {mmu mmu' : SwitchMmu} {s : Slot}

theorem Pooled.buffered (h : Pooled mmu) : mmu.buffered ≤ mmu.bufferSize := by
  have hsplit := mmu.buffered_eq
  have hapart := h.apart
  have hpooled := h.pooled
  have hshared := h.shared
  have hconfigured := h.configured
  omega

/-- The threshold of a port is not larger than what is left of the pool. -/
theorem Pooled.threshold_le (h : Pooled mmu) (port : Port) :
    mmu.sharedUsedBytes + mmu.getPfcThreshold port ≤
      mmu.bufferSize - (mmu.totalHdrm + mmu.totalRsrv) := by
  have hshared := h.shared
  have hconfigured := h.configured
  have hword := h.word
  have hsum : u32 (mmu.totalHdrm + mmu.totalRsrv) = mmu.totalHdrm + mmu.totalRsrv :=
    u32_of_lt (by omega)
  have hused : u32 (mmu.totalHdrm + mmu.totalRsrv + mmu.sharedUsedBytes) =
      mmu.totalHdrm + mmu.totalRsrv + mmu.sharedUsedBytes := u32_of_lt (by omega)
  have hhdrm : sub32 mmu.bufferSize mmu.totalHdrm = mmu.bufferSize - mmu.totalHdrm :=
    sub32_of_le (by omega) hword
  have hrsrv : sub32 (mmu.bufferSize - mmu.totalHdrm) mmu.totalRsrv =
      mmu.bufferSize - mmu.totalHdrm - mmu.totalRsrv := sub32_of_le (by omega) (by omega)
  have hleft : sub32 (mmu.bufferSize - mmu.totalHdrm - mmu.totalRsrv) mmu.sharedUsedBytes =
      mmu.bufferSize - mmu.totalHdrm - mmu.totalRsrv - mmu.sharedUsedBytes :=
    sub32_of_le (by omega) (by omega)
  have hshift := Nat.shiftRight_le (mmu.bufferSize - mmu.totalHdrm - mmu.totalRsrv -
    mmu.sharedUsedBytes) (mmu.pfcAShift port)
  rw [SwitchMmu.getPfcThreshold, hsum, hused, if_neg (by omega), hhdrm, hrsrv, hleft]
  omega

/-- The counters of a slot change. -/
theorem Pooled.change (h : Pooled mmu) (hcfg : mmu'.toMmuConfig = mmu.toMmuConfig)
    (hingress : mmu'.ingressBytes = update mmu.ingressBytes s x)
    (hhdrm : mmu'.hdrmBytes = update mmu.hdrmBytes s y)
    (hapart : mmu.apart + min x mmu.reserve + y ≤
      mmu.totalHdrm + mmu.totalRsrv + min (mmu.ingressBytes s) mmu.reserve + mmu.hdrmBytes s)
    (hpooled : mmu.sharedUsedBytes + (x - mmu.reserve) ≤
      mmu'.sharedUsedBytes + (mmu.ingressBytes s - mmu.reserve))
    (hshared : mmu'.sharedUsedBytes ≤ mmu.bufferSize - (mmu.totalHdrm + mmu.totalRsrv)) :
    Pooled mmu' := by
  have hreserves := sum_update mmu.ingressBytes (min · mmu.reserve) s x
  have hexcess := sum_update mmu.ingressBytes (· - mmu.reserve) s x
  have hheadroom := sum_update mmu.hdrmBytes id s y
  have hold := h.pooled
  simp only [id_eq] at hheadroom
  constructor
  case apart =>
    rw [SwitchMmu.apart, hingress, hhdrm, hcfg]
    rw [SwitchMmu.apart] at hapart
    omega
  case pooled =>
    rw [SwitchMmu.pooled, hingress, hcfg]
    rw [SwitchMmu.pooled] at hold
    omega
  case shared => rw [hcfg]; exact hshared
  case configured => rw [hcfg]; exact h.configured
  case word => rw [hcfg]; exact h.word

/-- A packet is admitted. -/
theorem Pooled.accept (h : Pooled mmu) (hneed : mmu.SetAside s psize) :
    Pooled (mmu.updateIngressAdmission s psize) := by
  have hthreshold := h.threshold_le s.1
  have hshared := h.shared
  have hword := h.word
  have hle := u32_le (mmu.ingressBytes s + psize)
  rw [SwitchMmu.SetAside, SwitchMmu.need] at hneed
  unfold SwitchMmu.updateIngressAdmission
  dsimp only
  split
  next hres =>
    rw [if_neg (by omega)] at hneed
    refine h.change (y := mmu.hdrmBytes s) rfl rfl (update_eq_self s _).symm (by omega) ?_ hshared
    dsimp only
    omega
  next hres =>
    split
    next hthresh =>
      rw [if_pos (by omega)] at hneed
      have hhdrm := u32_le (mmu.hdrmBytes s + psize)
      exact h.change (x := mmu.ingressBytes s) rfl (update_eq_self s _).symm rfl (by omega)
        (Nat.le_refl _) hshared
    next hthresh =>
      rw [if_neg (by omega)] at hneed
      have hadd : u32 (mmu.sharedUsedBytes +
            min psize (u32 (mmu.ingressBytes s + psize) - mmu.reserve)) =
          mmu.sharedUsedBytes + min psize (u32 (mmu.ingressBytes s + psize) - mmu.reserve) :=
        u32_of_lt (by omega)
      rw [hadd]
      refine h.change (y := mmu.hdrmBytes s) rfl rfl (update_eq_self s _).symm (by omega) ?_ ?_ <;>
        dsimp only <;> omega

/-- A packet leaves. -/
theorem Pooled.remove (h : Pooled mmu) (hs : mmu.removeFromIngressAdmission s psize = some mmu') :
    Pooled mmu' := by
  have hapart := h.apart
  have hshared := h.shared
  obtain ⟨hbytes, hused, rfl⟩ := removeFromIngressAdmission_cases hs
  rw [getSharedUsed_eq] at hused ⊢
  refine h.change rfl rfl rfl (by omega) ?_ ?_ <;> dsimp only <;> omega

end

/-! ## Runs -/

namespace MmuBuffer

/-- Packets of the priorities from 1 to 7 are admitted, and removed in any order. -/
inductive Step : MmuRun → MmuEvent → MmuRun → Prop
  | accept {mmu : SwitchMmu} {packets : List (Slot × Nat)} : s.2 ≠ 0 → psize < 2 ^ 32 →
    mmu.checkIngressAdmission s psize = true →
    Step ⟨mmu, packets⟩ (.accept s psize)
      ⟨mmu.updateIngressAdmission s psize, (s, psize) :: packets⟩
  | remove {mmu mmu' : SwitchMmu} {packets : List (Slot × Nat)} : (s, psize) ∈ packets →
    mmu.removeFromIngressAdmission s psize = some mmu' →
    Step ⟨mmu, packets⟩ (.remove s psize) ⟨mmu', packets.erase (s, psize)⟩

def machine (cfg : MmuConfig) : Machine MmuRun MmuEvent :=
  ⟨(· = ⟨{ toMmuConfig := cfg }, []⟩), Step⟩

/-- What a packet needs of the reserves and of the headroom was set aside. -/
def SetAside (r : MmuRun) : MmuEvent → Prop
  | .accept s psize => r.mmu.SetAside s psize
  | .remove .. => True

theorem apart_empty (cfg : MmuConfig) : SwitchMmu.apart { toMmuConfig := cfg } = 0 := by
  simp [SwitchMmu.apart]

theorem Step.pooled (hs : Step r e r') (ho : SetAside r e) (h : Pooled r.mmu) :
    Pooled r'.mmu ∧ r'.mmu.toMmuConfig = r.mmu.toMmuConfig := by
  cases hs with
  | accept => exact ⟨h.accept ho, toMmuConfig_updateIngressAdmission⟩
  | remove hmem hrem => exact ⟨h.remove hrem, toMmuConfig_removeFromIngressAdmission hrem⟩

/-- A switch buffers no more than it has, if the reserves and the headroom that its priorities use
were set aside. -/
theorem buffered_le {cfg : MmuConfig} (hword : cfg.bufferSize < 2 ^ 32)
    (hfit : cfg.totalHdrm + cfg.totalRsrv ≤ cfg.bufferSize)
    (h : ((machine cfg).restrict SetAside).Reachable r) : r.mmu.buffered ≤ cfg.bufferSize := by
  have hinv : Pooled r.mmu ∧ r.mmu.toMmuConfig = cfg := by
    refine h.invariant (I := fun r => Pooled r.mmu ∧ r.mmu.toMmuConfig = cfg) (fun hinit => ?_) ?_
    · obtain rfl : _ = _ := hinit
      refine ⟨⟨?_, ?_, Nat.zero_le _, hfit, hword⟩, rfl⟩
      · rw [apart_empty]
        exact Nat.zero_le _
      · simp [SwitchMmu.pooled]
    · rintro r e r' - ⟨hpooled, hcfg⟩ ⟨ho, hs⟩
      obtain ⟨hpooled', hcfg'⟩ := hs.pooled ho hpooled
      exact ⟨hpooled', hcfg'.trans hcfg⟩
  obtain ⟨hpooled, rfl⟩ := hinv
  exact hpooled.buffered

/-- A buffer of 8 KiB, of which one half is headroom of the only port, and the other its reserve. -/
def smallConfig : MmuConfig :=
  (({ bufferSize := 8192 } : MmuConfig).configHdrm 1 4096).configNPort 1

/-- Three priorities of a port use a reserve each. -/
theorem buffered_gt : ∃ r, (machine smallConfig).Reachable r ∧
    smallConfig.totalHdrm + smallConfig.totalRsrv ≤ smallConfig.bufferSize ∧
    smallConfig.bufferSize < r.mmu.buffered := by
  have h₀ : (machine smallConfig).Reachable ⟨{ toMmuConfig := smallConfig }, []⟩ := .init rfl
  have go : ∀ {mmu : SwitchMmu} {packets : List (Slot × Nat)} (q : Priority),
      (machine smallConfig).Reachable ⟨mmu, packets⟩ → q ≠ 0 →
      mmu.checkIngressAdmission (1, q) 4096 = true → (machine smallConfig).Reachable
        ⟨mmu.updateIngressAdmission (1, q) 4096, ((1, q), 4096) :: packets⟩ :=
    fun q h hq hcheck => h.step (.accept hq (by decide) hcheck)
  have h₁ := go 1 h₀ (by decide) (by decide)
  have h₂ := go 2 h₁ (by decide) (by decide)
  have h₃ := go 3 h₂ (by decide) (by decide)
  refine ⟨_, h₃, by decide, ?_⟩
  refine Nat.lt_of_lt_of_le ?_ (Finset.sum_le_univ_sum_of_nonneg (s := {(1, 1), (1, 2), (1, 3)})
    fun _ => Nat.zero_le _)
  decide

/-- The same with 4 KiB that are shared. -/
def sharedConfig : MmuConfig :=
  (({ bufferSize := 12288 } : MmuConfig).configHdrm 1 4096).configNPort 1

/-- The packets of a queue fill the reserve of its port, some of the shared buffer and the headroom,
and the next one is refused. -/
theorem buffered_le_small :
    ∃ r : MmuRun, r.packets.map (·.2) = [2096, 2000, 3000, 4096] ∧
      r.mmu.ingressBytes (1, 3) = 7096 ∧ r.mmu.hdrmBytes (1, 3) = 4096 ∧
      r.mmu.sharedUsedBytes = 3000 ∧ r.mmu.checkIngressAdmission (1, 3) 1100 = false ∧
      11192 ≤ r.mmu.buffered ∧ r.mmu.buffered ≤ sharedConfig.bufferSize := by
  have h₀ : ((machine sharedConfig).restrict SetAside).Reachable
    ⟨{ toMmuConfig := sharedConfig }, []⟩ := .init rfl
  have go : ∀ {mmu : SwitchMmu} {packets : List (Slot × Nat)} (psize : Nat),
      ((machine sharedConfig).restrict SetAside).Reachable ⟨mmu, packets⟩ → psize < 2 ^ 32 →
      mmu.SetAside (1, 3) psize → mmu.checkIngressAdmission (1, 3) psize = true →
      ((machine sharedConfig).restrict SetAside).Reachable
        ⟨mmu.updateIngressAdmission (1, 3) psize, ((1, 3), psize) :: packets⟩ :=
    fun psize h hlt hneed hcheck => h.step
      (show ((machine sharedConfig).restrict SetAside).step _ (.accept (1, 3) psize) _ from
        ⟨hneed, .accept (by decide) hlt hcheck⟩)
  have h₁ := go 4096 h₀ (by decide) (by decide +kernel) (by decide)
  have h₂ := go 3000 h₁ (by decide) (by decide +kernel) (by decide)
  have h₃ := go 2000 h₂ (by decide) (by decide +kernel) (by decide)
  have h₄ := go 2096 h₃ (by decide) (by decide +kernel) (by decide)
  exact ⟨_, rfl, by decide +kernel, by decide +kernel, by decide +kernel, by decide +kernel,
    by decide +kernel, buffered_le (by decide) (by decide) h₄⟩

end MmuBuffer
end Roce
