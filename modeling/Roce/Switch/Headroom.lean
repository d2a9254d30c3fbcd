import Roce.Switch.PausedPackets

/-! # The headroom

A packet that does not fit into the shared pool is charged to the headroom of its port, and a slot
that uses its headroom is paused. So the headroom holds at most what arrived since the slot was
paused, and as long as this is no more than the headroom of the port, the admission takes every
packet. -/

namespace Roce

open Function

namespace SwitchNode

variable {s s' t : SwitchNode}

/-- How many packets the switch has taken, PFC frames not counted. -/
def taken (s : SwitchNode) : Nat := (s.kept ++ s.dequeued).countP (·.packet.pfc.isNone)

/-- Nothing is charged: the headroom is used less, and a slot that uses it stays paused. `n` packets
are taken. -/
structure Drains (n : Nat) (s s' : SwitchNode) : Prop where
  hdrmBytes : ∀ slot, s'.mmu.hdrmBytes slot ≤ s.mmu.hdrmBytes slot
  paused : ∀ slot, 0 < s'.mmu.hdrmBytes slot → s.mmu.paused slot = true → s'.mmu.paused slot = true
  headroom : s'.mmu.headroom = s.mmu.headroom
  taken : s'.taken = s.taken + n

namespace Drains

theorem refl (s : SwitchNode) : Drains 0 s s := ⟨fun _ => Nat.le_refl _, fun _ _ h => h, rfl, rfl⟩

theorem trans (h : Drains n s t) (h' : Drains m t s') : Drains (n + m) s s' where
  hdrmBytes slot := (h'.hdrmBytes slot).trans (h.hdrmBytes slot)
  paused slot hpos hpaused := h'.paused slot hpos
    (h.paused slot (Nat.lt_of_lt_of_le hpos (h'.hdrmBytes slot)) hpaused)
  headroom := h'.headroom.trans h.headroom
  taken := by rw [h'.taken, h.taken, Nat.add_assoc]

theorem trans_zero (h : Drains 0 s t) (h' : Drains n t s') : Drains n s s' :=
  Nat.zero_add n ▸ h.trans h'

theorem of_eq (hmmu : s'.mmu = s.mmu) (htaken : s'.taken = s.taken + n) : Drains n s s' :=
  ⟨fun _ => by rw [hmmu], fun _ _ => by rw [hmmu]; exact id, by rw [hmmu], htaken⟩

theorem setDevice {device : SwitchDevice} (hqueue : device.queue = (s.devices port).queue) :
    Drains 0 s (s.setDevice port device) := by
  refine of_eq rfl ?_
  rw [SwitchNode.taken, kept_setDevice hqueue]
  rfl

theorem alloc (s : SwitchNode) : Drains 0 s s.alloc := of_eq rfl rfl

theorem countBytes : Drains 0 s (s.countBytes inDev held) := of_eq rfl rfl

theorem enqueue : Drains (if p.pfc.isNone then 1 else 0) s (s.enqueue port qIndex p) := by
  obtain ⟨hperm, hdequeued, hsame⟩ := enqueue_perm port qIndex p s
  refine of_eq hsame.mmu ?_
  have hone : (if (Held.mk port qIndex p).packet.pfc.isNone then 1 else 0) =
      if p.pfc.isNone then 1 else 0 := rfl
  rw [SwitchNode.taken, SwitchNode.taken, hdequeued, List.countP_append, hperm.countP_eq,
    List.countP_cons, List.countP_append, hone]
  omega

theorem dequeue (h : s.dequeue port = some (held, s')) : Drains 0 s s' := by
  obtain ⟨-, -, hdequeued, hsame⟩ := dequeue_perm h
  refine of_eq hsame.mmu ?_
  rw [SwitchNode.taken, SwitchNode.taken, hdequeued, ← List.append_assoc]
  refine List.Perm.countP_eq _ ?_
  exact (List.perm_append_singleton _ _).trans ((kept_perm_of_dequeue h).append_right _).symm

/-- What leaves the buffer leaves the headroom first. -/
theorem release (h : s.release held = some s') : Drains 0 s s' := by
  obtain ⟨inDev, x, mmu, -, -, hmmu, rfl⟩ := release_spec h
  have hle : (∀ slot, mmu.hdrmBytes slot ≤ s.mmu.hdrmBytes slot) ∧ mmu.paused = s.mmu.paused ∧
      mmu.headroom = s.mmu.headroom := by
    split at hmmu
    · obtain ⟨-, -, rfl⟩ := removeFromIngressAdmission_cases hmmu
      refine ⟨fun slot => ?_, rfl, rfl⟩
      dsimp only
      rw [update_apply]
      split
      next hslot => exact hslot ▸ Nat.sub_le _ _
      next => exact Nat.le_refl _
    · cases hmmu
      exact ⟨fun _ => Nat.le_refl _, rfl, rfl⟩
  refine ⟨hle.1, fun slot _ hpaused => ?_, hle.2.2, rfl⟩
  exact (congrFun hle.2.1 slot).trans hpaused

theorem setPause (s : SwitchNode) (slot : Slot) :
    Drains 0 s { s with mmu := s.mmu.setPause slot } := by
  refine ⟨fun _ => Nat.le_refl _, fun slot' _ hpaused => ?_, rfl, rfl⟩
  dsimp only [SwitchMmu.setPause]
  rw [update_apply, hpaused, ite_self]

/-- A slot is resumed when it does not use the headroom. -/
theorem setResume (h : s.mmu.hdrmBytes slot = 0) :
    Drains 0 s { s with mmu := s.mmu.setResume slot } := by
  refine ⟨fun _ => Nat.le_refl _, fun slot' hpos hpaused => ?_, rfl, rfl⟩
  dsimp only [SwitchMmu.setResume] at hpos ⊢
  have hne : slot' ≠ slot := fun heq => by rw [heq, h] at hpos; exact Nat.lt_irrefl 0 hpos
  rwa [update_of_ne hne]

end Drains

/-! ## The calls -/

/-- A function that charges nothing. -/
def KeepsHeadroom (transmit : Port → SwitchNode → Option SwitchNode) : Prop :=
  ∀ {port s s'}, transmit port s = some s' → Drains 0 s s'

section
variable {transmit : Port → SwitchNode → Option SwitchNode} (ht : KeepsHeadroom transmit)
include ht

theorem Drains.switchSend (hs : switchSend transmit port qIndex p s = some s') :
    Drains (if p.pfc.isNone then 1 else 0) s s' :=
  Drains.enqueue.trans (ht hs)

theorem Drains.sendPfc (hs : sendPfc transmit port qIndex type s = some s') : Drains 0 s s' :=
  (Drains.alloc s).trans_zero (Drains.switchSend ht hs)

theorem Drains.checkAndSendPfc (hs : checkAndSendPfc transmit inDev qIndex s = some s') :
    Drains 0 s s' := by
  obtain ⟨-, t, hsend, rfl⟩ | ⟨-, rfl⟩ := checkAndSendPfc_cases hs
  · exact (Drains.sendPfc ht hsend).trans_zero (Drains.setPause t _)
  · exact Drains.refl _

theorem Drains.checkAndSendResume (hs : checkAndSendResume transmit inDev qIndex s = some s') :
    Drains 0 s s' := by
  obtain ⟨hcheck, t, hsend, rfl⟩ | ⟨-, rfl⟩ := checkAndSendResume_cases hs
  · have hdrains := Drains.sendPfc ht hsend
    have hzero : s.mmu.hdrmBytes (inDev, qIndex) = 0 := by
      simp only [SwitchMmu.checkShouldResume, Bool.and_eq_true, decide_eq_true_eq] at hcheck
      exact hcheck.1.2
    exact hdrains.trans_zero (Drains.setResume (Nat.le_zero.mp (hzero ▸ hdrains.hdrmBytes _)))
  · exact Drains.refl _

theorem Drains.switchNotifyDequeue (hs : switchNotifyDequeue transmit held s = some s') :
    Drains 0 s s' := by
  obtain ⟨-, rfl⟩ | ⟨-, inDev, t, -, hrelease, hs⟩ := switchNotifyDequeue_cases hs
  · exact Drains.refl _
  · exact (Drains.release hrelease).trans_zero (Drains.checkAndSendResume ht hs)

omit ht in
/-- The slot that was charged is paused if it uses the headroom. -/
theorem paused_checkAndSendPfc (hs : checkAndSendPfc transmit inDev qIndex s = some s')
    (hpos : 0 < s'.mmu.hdrmBytes (inDev, qIndex)) : s'.mmu.paused (inDev, qIndex) = true := by
  obtain ⟨-, t, -, rfl⟩ | ⟨hcheck, rfl⟩ := checkAndSendPfc_cases hs
  · exact update_self ..
  · simp only [SwitchMmu.checkShouldPause, Bool.and_eq_false_iff, Bool.not_eq_false',
      Bool.or_eq_false_iff, decide_eq_false_iff_not] at hcheck
    exact hcheck.resolve_right fun h => h.1 hpos

end

theorem keepsHeadroom_dequeueAndTransmit (fuel : Nat) :
    KeepsHeadroom (dequeueAndTransmit fuel) := by
  induction fuel with
  | zero => exact fun hs => by cases hs
  | succ fuel ih =>
    intro port s s' hs
    obtain rfl | ⟨held, t, u, hd, hnotify, hs⟩ := dequeueAndTransmit_cases hs
    · exact Drains.refl _
    · obtain ⟨-, rfl⟩ := transmitStart_cases hs
      refine (Drains.dequeue hd).trans_zero ?_
      exact (Drains.switchNotifyDequeue ih hnotify).trans_zero (Drains.setDevice rfl)

/-! ## What arrives -/

/-- How many packets a switch makes of what arrives, if it takes all of them. -/
def forwards (s : SwitchNode) (port : Port) (a : Arrival) : Nat :=
  if !(s.devices port).linkUp || a.corrupt || a.ch.l3Prot = 0xFE then 0
  else if a.multicast then s.copies port a
  else if (s.outDev a.ch a.junk).isSome then 1 else 0

/-- The bytes that an event brings to a slot. -/
def arriving (s : SwitchNode) : SwitchEvent → Slot → Nat
  | .receive port a, slot =>
    if slot.1 = port ∧ s.qIndexOf a.ch = some slot.2 then s.forwards port a * a.size else 0
  | .transmitComplete _, _ => 0

/-- What an event does. The slots may use as much more of their headroom as `bytes`, and are paused
if they use it; if it `fits`, `n` packets are taken. -/
structure Serves (fits : Prop) (bytes : Slot → Nat) (n : Nat) (s s' : SwitchNode) : Prop where
  hdrmBytes : ∀ slot, s'.mmu.hdrmBytes slot ≤ s.mmu.hdrmBytes slot + bytes slot
  paused : ∀ slot, 0 < s'.mmu.hdrmBytes slot →
    (0 < s.mmu.hdrmBytes slot → s.mmu.paused slot = true) → s'.mmu.paused slot = true
  headroom : s'.mmu.headroom = s.mmu.headroom
  taken : fits → s'.taken = s.taken + n

variable {fits : Prop} {bytes : Slot → Nat}

theorem Drains.serves (h : Drains m s s') (hm : fits → m = n) : Serves fits bytes n s s' where
  hdrmBytes slot := (h.hdrmBytes slot).trans (Nat.le_add_right ..)
  paused slot hpos hpaused :=
    h.paused slot hpos (hpaused (Nat.lt_of_lt_of_le hpos (h.hdrmBytes slot)))
  headroom := h.headroom
  taken hfit := hm hfit ▸ h.taken

/-- Packets of one slot are charged, and then it is paused if it has to be. -/
theorem Serves.of_charge {slot : Slot} (hother : ∀ slot' ≠ slot, t.mmu.hdrmBytes slot' =
    s.mmu.hdrmBytes slot') (hself : t.mmu.hdrmBytes slot ≤ s.mmu.hdrmBytes slot + bytes slot)
    (hpaused : t.mmu.paused = s.mmu.paused) (hheadroom : t.mmu.headroom = s.mmu.headroom)
    (htaken : t.taken = s.taken) (hpause : Drains 0 t u)
    (hpos : 0 < u.mmu.hdrmBytes slot → u.mmu.paused slot = true) (h : Drains m u s')
    (hm : fits → m = n) : Serves fits bytes n s s' := by
  have hdrains := hpause.trans_zero h
  constructor
  case hdrmBytes =>
    intro slot'
    refine (hdrains.hdrmBytes slot').trans ?_
    by_cases hslot : slot' = slot
    · rw [hslot]
      exact hself
    · rw [hother slot' hslot]
      exact Nat.le_add_right ..
  case paused =>
    intro slot' hslot' hold
    by_cases hslot : slot' = slot
    · subst hslot
      exact h.paused slot' hslot' (hpos (Nat.lt_of_lt_of_le hslot' (h.hdrmBytes slot')))
    · refine hdrains.paused slot' hslot' ?_
      rw [hpaused]
      refine hold (Nat.lt_of_lt_of_le hslot' ?_)
      rw [← hother slot' hslot]
      exact hdrains.hdrmBytes slot'
  case headroom => exact hdrains.headroom.trans hheadroom
  case taken => exact fun hfits => by rw [hdrains.taken, htaken, hm hfits]

/-- A packet that fits into the headroom is admitted. -/
theorem checkIngressAdmission_of_le {mmu : SwitchMmu} {slot : Slot}
    (h : mmu.hdrmBytes slot + psize ≤ mmu.headroom slot.1) :
    mmu.checkIngressAdmission slot psize = true := by
  have hle : u32 (psize + mmu.hdrmBytes slot) ≤ psize + mmu.hdrmBytes slot := Nat.mod_le ..
  have hnot : ¬u32 (psize + mmu.hdrmBytes slot) > mmu.headroom slot.1 := by omega
  rw [SwitchMmu.checkIngressAdmission, decide_eq_false hnot, Bool.false_and, Bool.not_false]

theorem hdrmBytes_updateIngressAdmission_le (mmu : SwitchMmu) (slot : Slot) (psize : Nat) :
    (mmu.updateIngressAdmission slot psize).hdrmBytes slot ≤ mmu.hdrmBytes slot + psize := by
  unfold SwitchMmu.updateIngressAdmission
  dsimp only
  split
  · exact Nat.le_add_right ..
  · split
    · dsimp only
      rw [update_self]
      exact Nat.mod_le ..
    · exact Nat.le_add_right ..

theorem hdrmBytes_updateIngressAdmission_of_ne {mmu : SwitchMmu} {slot slot' : Slot}
    (h : slot' ≠ slot) :
    (mmu.updateIngressAdmission slot psize).hdrmBytes slot' = mmu.hdrmBytes slot' := by
  unfold SwitchMmu.updateIngressAdmission
  dsimp only
  split
  · rfl
  · split
    · exact update_of_ne h ..
    · rfl

theorem headroom_updateIngressAdmission (mmu : SwitchMmu) (slot : Slot) (psize : Nat) :
    (mmu.updateIngressAdmission slot psize).headroom = mmu.headroom :=
  congrArg MmuConfig.headroom toMmuConfig_updateIngressAdmission

/-- The turns of the loop of `SendMultiToDevs` charge the copies. -/
structure Charges (slot : Slot) (psize : Nat) (s t : SwitchNode) (copies : List Held) : Prop where
  other : ∀ slot' ≠ slot, t.mmu.hdrmBytes slot' = s.mmu.hdrmBytes slot'
  self : t.mmu.hdrmBytes slot ≤ s.mmu.hdrmBytes slot + copies.length * psize
  zero : slot.2 = 0 → t.mmu.hdrmBytes slot = s.mmu.hdrmBytes slot
  paused : t.mmu.paused = s.mmu.paused
  headroom : t.mmu.headroom = s.mmu.headroom
  taken : t.taken = s.taken
  plain : ∀ h ∈ copies, h.packet.pfc.isNone = true

theorem Charges.admitCopy {st st' : SwitchNode × List Held} (hp : p.pfc.isNone = true)
    (h : Charges (inDev, qIndex) p.size s st.1 st.2)
    (hs : SwitchNode.admitCopy inDev qIndex p st idx = some st') :
    Charges (inDev, qIndex) p.size s st'.1 st'.2 ∧ st'.2.length ≤ st.2.length + 1 := by
  have hplain : ∀ port, ∀ h ∈ (st.2 ++ [⟨port, qIndex,
    { p with ptr := st.1.nextPtr }⟩] : List Held),
      h.packet.pfc.isNone = true := by
    intro port held hmem
    rcases List.mem_append.mp hmem with hmem | hmem
    · exact h.plain held hmem
    · rw [List.mem_singleton.mp hmem]
      exact hp
  obtain ⟨port, ⟨-, rfl⟩ | ⟨hq, rfl⟩ | ⟨hq, -, rfl⟩⟩ := admitCopy_cases hs
  · refine ⟨⟨h.other, ?_, h.zero, h.paused, h.headroom, h.taken, hplain port⟩, by simp⟩
    refine h.self.trans (Nat.add_le_add_left (Nat.mul_le_mul_right _ ?_) _)
    simp
  · exact ⟨⟨h.other, h.self, h.zero, h.paused, h.headroom, h.taken, h.plain⟩, Nat.le_succ _⟩
  · refine ⟨⟨fun slot' hne => ?_, ?_, fun hzero => absurd hzero hq, ?_, ?_, h.taken, hplain port⟩,
      by simp⟩
    · exact (hdrmBytes_updateIngressAdmission_of_ne hne).trans (h.other slot' hne)
    · refine (hdrmBytes_updateIngressAdmission_le ..).trans ?_
      rw [List.length_append, List.length_singleton, Nat.succ_mul, ← Nat.add_assoc]
      exact Nat.add_le_add_right h.self _
    · exact (paused_updateIngressAdmission ..).trans h.paused
    · exact (headroom_updateIngressAdmission ..).trans h.headroom

/-- A copy that fits into the headroom is kept. -/
theorem length_admitCopy {st st' : SwitchNode × List Held}
    (hs : SwitchNode.admitCopy inDev qIndex p st idx = some st')
    (hfits : qIndex ≠ 0 → st.1.mmu.hdrmBytes (inDev, qIndex) + p.size ≤ st.1.mmu.headroom inDev) :
    st'.2.length = st.2.length + 1 := by
  obtain ⟨port, -, hs⟩ := Option.bind_eq_some_iff.mp hs
  dsimp only at hs
  split at hs
  · cases hs
  · split at hs
    · cases hs
      exact List.length_append
    next hq =>
      rw [checkIngressAdmission_of_le (hfits hq), Bool.not_true, if_neg Bool.false_ne_true] at hs
      cases hs
      exact List.length_append

theorem Charges.admitCopies {ports : List Nat} {st : SwitchNode × List Held}
    (hp : p.pfc.isNone = true)
    (hs : ports.foldlM (SwitchNode.admitCopy inDev qIndex p) (s, []) = some st) :
    Charges (inDev, qIndex) p.size s st.1 st.2 ∧ st.2.length ≤ ports.length ∧
      ((qIndex ≠ 0 → s.mmu.hdrmBytes (inDev, qIndex) + ports.length * p.size ≤ s.mmu.headroom
        inDev) → st.2.length = ports.length) := by
  have hloop := foldlM_invariant (I := fun l (st : SwitchNode × List Held) =>
    Charges (inDev, qIndex) p.size s st.1 st.2 ∧ st.2.length + l.length ≤ ports.length ∧
      ((qIndex ≠ 0 → s.mmu.hdrmBytes (inDev, qIndex) + ports.length * p.size ≤ s.mmu.headroom
        inDev) → st.2.length + l.length = ports.length)) ?_ ?_ hs
  · simpa using hloop
  · rintro idx l st st' ⟨h, hle, hlength⟩ hs
    obtain ⟨h', hle'⟩ := h.admitCopy hp hs
    rw [List.length_cons] at hle hlength
    refine ⟨h', by omega, fun hfits => ?_⟩
    have hgrown := length_admitCopy hs fun hq => ?_
    · have := hlength hfits
      omega
    · -- all copies fit, so this one does after those before it
      have hmul : (st.2.length + 1) * p.size ≤ ports.length * p.size :=
        Nat.mul_le_mul_right _ (by omega)
      have hself := h.self
      have hroom := hfits hq
      rw [Nat.succ_mul] at hmul
      rw [h.headroom]
      omega
  · refine ⟨⟨fun _ _ => rfl, Nat.le_add_right .., fun _ => rfl, rfl, rfl, rfl, ?_⟩, by simp,
      by simp⟩
    exact fun _ hmem => absurd hmem List.not_mem_nil

section
variable {transmit : Port → SwitchNode → Option SwitchNode} (ht : KeepsHeadroom transmit)
include ht

/-- The copies are sent. -/
theorem Drains.sendAll {tosend : List Held} (hplain : ∀ h ∈ tosend, h.packet.pfc.isNone = true)
    (hs : tosend.foldlM (fun s h => SwitchNode.switchSend transmit h.port h.qIndex h.packet s) s =
      some s') : Drains tosend.length s s' := by
  induction tosend generalizing s with
  | nil =>
    cases hs
    exact Drains.refl _
  | cons h tosend ih =>
    rw [List.foldlM_cons] at hs
    obtain ⟨t, hsend, hs⟩ := Option.bind_eq_some_iff.mp hs
    have hfirst := Drains.switchSend ht hsend
    rw [if_pos (hplain h List.mem_cons_self)] at hfirst
    have hrest := ih (fun h' hmem => hplain h' (List.mem_cons_of_mem _ hmem)) hs
    rw [List.length_cons, Nat.add_comm]
    exact hfirst.trans hrest

/-- A packet fits into the headroom of its slot. -/
theorem Serves.sendToDev (hp : p.pfc.isNone = true) (hflow : p.flowId = some inDev)
    (hbytes : ∀ qIndex, s.qIndexOf ch = some qIndex → (s.outDev ch junk).isSome = true →
      p.size ≤ bytes (inDev, qIndex))
    (hfits : fits → ∀ qIndex, s.qIndexOf ch = some qIndex → qIndex ≠ 0 →
      (s.outDev ch junk).isSome = true →
      s.mmu.hdrmBytes (inDev, qIndex) + p.size ≤ s.mmu.headroom inDev)
    (hs : sendToDev transmit ch junk p s = some s') :
    Serves fits bytes (if (s.outDev ch junk).isSome then 1 else 0) s s' := by
  unfold SwitchNode.sendToDev at hs
  split at hs
  next hout =>
    cases hs
    rw [hout]
    exact (Drains.refl s).serves fun _ => rfl
  next idx hout =>
    have hsome : (s.outDev ch junk).isSome = true := by rw [hout]; rfl
    rw [if_pos hsome]
    obtain ⟨port, hport, hs⟩ := Option.bind_eq_some_iff.mp hs
    obtain ⟨qIndex, hqIndex, hs⟩ := Option.bind_eq_some_iff.mp hs
    obtain ⟨inDev', hflow', hs⟩ := Option.bind_eq_some_iff.mp hs
    obtain rfl := Option.some.inj (hflow.symm.trans hflow')
    have hsend : ∀ {t u}, SwitchNode.switchSend transmit port qIndex p t = some u →
      Drains 1 t u := by
      intro t u hsend
      have h := Drains.switchSend ht hsend
      rwa [if_pos hp] at h
    dsimp only at hs
    split at hs
    · cases hs
    · split at hs
      next hq => exact (Drains.countBytes.trans_zero (hsend hs)).serves fun _ => rfl
      next hq =>
        split at hs
        next hcheck =>
          cases hs
          refine (Drains.refl s).serves fun hfit => ?_
          rw [checkIngressAdmission_of_le (hfits hfit qIndex hqIndex hq hsome)] at hcheck
          exact absurd hcheck Bool.false_ne_true
        next hcheck =>
          obtain ⟨t, hpfc, hs⟩ := Option.bind_eq_some_iff.mp hs
          have hpause := Drains.checkAndSendPfc ht hpfc
          refine Serves.of_charge (t := s.charge inDev ⟨port, qIndex, p⟩)
            (fun slot' hne => hdrmBytes_updateIngressAdmission_of_ne hne) ?_
            (paused_updateIngressAdmission ..) (headroom_updateIngressAdmission ..) rfl
            hpause (paused_checkAndSendPfc hpfc) (Drains.countBytes.trans_zero (hsend hs))
            fun _ => rfl
          refine (hdrmBytes_updateIngressAdmission_le ..).trans ?_
          exact Nat.add_le_add_left (hbytes qIndex hqIndex hsome) _

theorem Serves.sendMultiToDevs {port : Port} (hp : p.pfc.isNone = true)
    (hflow : p.flowId = some inDev)
    (hbytes : ∀ group qIndex, s.ogroups ch.dip = some group → s.qIndexOf ch = some qIndex →
      (multiPorts group s.uplink ch junk s.ecmpSeed port).length * p.size ≤ bytes (inDev, qIndex))
    (hfits : fits → ∀ group qIndex, s.ogroups ch.dip = some group → s.qIndexOf ch = some qIndex →
      qIndex ≠ 0 → s.mmu.hdrmBytes (inDev, qIndex) +
        (multiPorts group s.uplink ch junk s.ecmpSeed port).length * p.size ≤ s.mmu.headroom inDev)
    (hs : sendMultiToDevs transmit ch junk p port s = some s') :
    Serves fits bytes ((s.ogroups ch.dip).elim 0 fun group =>
      (multiPorts group s.uplink ch junk s.ecmpSeed port).length) s s' := by
  unfold SwitchNode.sendMultiToDevs at hs
  split at hs
  next hgroup =>
    cases hs
    rw [hgroup]
    exact (Drains.refl s).serves fun _ => rfl
  next group hgroup =>
    rw [hgroup, Option.elim_some]
    obtain ⟨qIndex, hqIndex, hs⟩ := Option.bind_eq_some_iff.mp hs
    obtain ⟨inDev', hflow', hs⟩ := Option.bind_eq_some_iff.mp hs
    obtain rfl := Option.some.inj (hflow.symm.trans hflow')
    obtain ⟨⟨t, tosend⟩, hadmit, hs⟩ := Option.bind_eq_some_iff.mp hs
    obtain ⟨u, hpfc, hs⟩ := Option.bind_eq_some_iff.mp hs
    obtain ⟨hcharges, hle, hlength⟩ := Charges.admitCopies hp hadmit
    have hsend := Drains.sendAll ht hcharges.plain hs
    dsimp only at hcharges hle hlength
    have hall : fits → tosend.length = _ := fun hfit =>
      hlength fun hq => hfits hfit group qIndex hgroup hqIndex hq
    have hself : t.mmu.hdrmBytes (inDev, qIndex) ≤
        s.mmu.hdrmBytes (inDev, qIndex) + bytes (inDev, qIndex) :=
      hcharges.self.trans (Nat.add_le_add_left
        ((Nat.mul_le_mul_right _ hle).trans (hbytes group qIndex hgroup hqIndex)) _)
    split at hpfc
    next hq =>
      cases hpfc
      have hsame : ∀ slot, t.mmu.hdrmBytes slot = s.mmu.hdrmBytes slot := fun slot => by
        by_cases hslot : slot = (inDev, qIndex)
        · rw [hslot]
          exact hcharges.zero hq
        · exact hcharges.other slot hslot
      have hdrains : Drains 0 s t := ⟨fun slot => (hsame slot).le,
        fun _ _ h => (congrFun hcharges.paused _).trans h, hcharges.headroom, hcharges.taken⟩
      exact (hdrains.trans_zero hsend).serves hall
    next hq =>
      have hpause := Drains.checkAndSendPfc ht hpfc
      exact Serves.of_charge hcharges.other hself hcharges.paused hcharges.headroom hcharges.taken
        hpause (paused_checkAndSendPfc hpfc) hsend hall

/-- What `Receive` does to the headroom. -/
theorem Serves.receive (hs : receive transmit port a s = some s') :
    Serves (∀ slot, slot.2 ≠ 0 →
        s.mmu.hdrmBytes slot + s.arriving (.receive port a) slot ≤ s.mmu.headroom slot.1)
      (s.arriving (.receive port a)) (s.forwards port a) s s' := by
  have harriving : ∀ qIndex, s.qIndexOf a.ch = some qIndex →
      s.arriving (.receive port a) (port, qIndex) = s.forwards port a * a.size :=
    fun qIndex hqIndex => if_pos ⟨rfl, hqIndex⟩
  unfold SwitchNode.receive at hs
  split at hs
  next hdown =>
    cases hs
    have hzero : s.forwards port a = 0 := if_pos (by rw [hdown, Bool.true_or])
    rw [hzero]
    exact (Drains.refl s).serves fun _ => rfl
  next hup =>
    split at hs
    next hpfc =>
      have hzero : s.forwards port a = 0 := if_pos (by rw [decide_eq_true hpfc, Bool.or_true])
      rw [hzero]
      split at hs
      · cases hs
        exact (Drains.refl s).serves fun _ => rfl
      · split at hs
        · cases hs
          exact Drains.serves (n := 0) (Drains.setDevice rfl) fun _ => rfl
        · unfold SwitchNode.resume at hs
          split at hs
          · have hset : Drains 0 s (s.setPaused port a.pfc.qIndex false) := Drains.setDevice rfl
            exact (hset.trans_zero (ht hs)).serves fun _ => rfl
          · cases hs
    next hpfc =>
      have hforwards : s.forwards port a = if a.multicast then s.copies port a
          else if (s.outDev a.ch a.junk).isSome then 1 else 0 :=
        if_neg (by rw [Bool.eq_false_iff.mpr hup, decide_eq_false hpfc]; decide)
      unfold SwitchNode.switchReceiveFromDevice at hs
      dsimp only at hs
      split at hs
      next hmulti =>
        rw [if_pos hmulti, SwitchNode.copies, if_pos hmulti] at hforwards
        rw [hforwards] at harriving ⊢
        have hcopies : ∀ group, s.ogroups a.ch.dip = some group →
            ((s.ogroups a.ch.dip).elim 0 fun group =>
              (multiPorts group s.uplink a.ch a.junk s.ecmpSeed port).length) =
            (multiPorts group s.uplink a.ch a.junk s.ecmpSeed port).length := fun group hgroup => by
          rw [hgroup, Option.elim_some]
        have hserves : Serves (∀ slot, slot.2 ≠ 0 →
            s.mmu.hdrmBytes slot + s.arriving (.receive port a) slot ≤ s.mmu.headroom slot.1)
            (s.arriving (.receive port a)) _ s.alloc s' := Serves.sendMultiToDevs ht rfl rfl
          (fun group qIndex hgroup hqIndex => ?_)
          (fun hfits group qIndex hgroup hqIndex hq => ?_) hs
        · exact ⟨hserves.hdrmBytes, hserves.paused, hserves.headroom, hserves.taken⟩
        · rw [harriving qIndex hqIndex, hcopies group hgroup]
          exact Nat.le_refl _
        · have hfit := hfits (port, qIndex) hq
          rw [harriving qIndex hqIndex, hcopies group hgroup] at hfit
          exact hfit
      next hmulti =>
        rw [if_neg hmulti] at hforwards
        rw [hforwards] at harriving ⊢
        have hserves : Serves (∀ slot, slot.2 ≠ 0 →
            s.mmu.hdrmBytes slot + s.arriving (.receive port a) slot ≤ s.mmu.headroom slot.1)
            (s.arriving (.receive port a)) _ s.alloc s' := Serves.sendToDev ht rfl rfl
          (fun qIndex hqIndex hout => ?_) (fun hfits qIndex hqIndex hq hout => ?_) hs
        · exact ⟨hserves.hdrmBytes, hserves.paused, hserves.headroom, hserves.taken⟩
        · replace hout : (s.outDev a.ch a.junk).isSome = true := hout
          rw [harriving qIndex hqIndex, if_pos hout, Nat.one_mul]
        · replace hout : (s.outDev a.ch a.junk).isSome = true := hout
          have hfit := hfits (port, qIndex) hq
          rw [harriving qIndex hqIndex, if_pos hout, Nat.one_mul] at hfit
          exact hfit

/-- How many packets a switch makes in an event, if it takes all of them. -/
def forwarded (s : SwitchNode) : SwitchEvent → Nat
  | .receive port a => s.forwards port a
  | .transmitComplete _ => 0

theorem Serves.onEvent (hs : onEvent transmit e s = some s') :
    Serves (∀ slot, slot.2 ≠ 0 → s.mmu.hdrmBytes slot + s.arriving e slot ≤ s.mmu.headroom slot.1)
      (s.arriving e) (s.forwarded e) s s' := by
  cases e with
  | receive port a => exact Serves.receive ht hs
  | transmitComplete port =>
    have hset : Drains 0 s (s.setDevice port { s.devices port with currentPkt := none }) :=
      Drains.setDevice rfl
    exact (hset.trans_zero (ht (transmitComplete_eq hs))).serves fun _ => rfl

end
end SwitchNode

/-! ## Runs -/

/-- A switch, with the bytes that arrived at each slot since it was last not paused: also those of
the event that paused it. -/
structure HeadroomRun where
  switch : SwitchNode
  burst : Slot → Nat := fun _ => 0

namespace HeadroomRun

open SwitchNode

def advance (x : HeadroomRun) (e : SwitchEvent) (s : SwitchNode) : HeadroomRun where
  switch := s
  burst slot := if s.mmu.paused slot then x.burst slot + x.switch.arriving e slot else 0

def machine : Machine HeadroomRun SwitchEvent where
  init x := x.switch.Idle ∧ ∀ slot, x.burst slot = 0
  step x e y := ∃ fuel s, onEvent (dequeueAndTransmit fuel) e x.switch = some s ∧ y = x.advance e s

/-- What has arrived since the slots were last not paused, the packet that made the switch pause
them included, and what the event brings, is no more than the headroom. Each copy of a multicast
packet counts. -/
def Paced (x : HeadroomRun) (e : SwitchEvent) : Prop :=
  ∀ slot, slot.2 ≠ 0 → x.burst slot + x.switch.arriving e slot ≤ x.switch.mmu.headroom slot.1

/-- The headroom is used by paused slots, for what arrived while they were. -/
structure Bounded (x : HeadroomRun) : Prop where
  hdrmBytes : ∀ slot, x.switch.mmu.hdrmBytes slot ≤ x.burst slot
  paused : ∀ slot, 0 < x.switch.mmu.hdrmBytes slot → x.switch.mmu.paused slot = true

theorem Bounded.step (h : Bounded x) (hs : onEvent (dequeueAndTransmit fuel) e x.switch = some s) :
    Bounded (x.advance e s) := by
  have hserves := Serves.onEvent (keepsHeadroom_dequeueAndTransmit fuel) hs
  have hpaused : ∀ slot, 0 < s.mmu.hdrmBytes slot → s.mmu.paused slot = true :=
    fun slot hpos => hserves.paused slot hpos (h.paused slot)
  refine ⟨fun slot => ?_, hpaused⟩
  rcases Nat.eq_zero_or_pos (s.mmu.hdrmBytes slot) with hzero | hpos
  · exact hzero ▸ Nat.zero_le _
  · have hle := hserves.hdrmBytes slot
    have hburst := h.hdrmBytes slot
    dsimp only [advance]
    rw [if_pos (hpaused slot hpos)]
    omega

/-- **The headroom makes the switch lossless.** In every run, a slot uses its headroom only while it
is paused, and for no more than what has arrived since it was last not paused; so an event that
brings no more than fits into the headroom of the port loses nothing at the ingress: all packets
that the switch makes of what arrives, one for each port of a group, are taken. -/
theorem headroom_lossless (h : machine.Reachable x) :
    (∀ slot, x.switch.mmu.hdrmBytes slot ≤ x.burst slot ∧
      (0 < x.switch.mmu.hdrmBytes slot → x.switch.mmu.paused slot = true)) ∧
    ∀ fuel e s, Paced x e → onEvent (dequeueAndTransmit fuel) e x.switch = some s →
      s.taken = x.switch.taken + x.switch.forwarded e := by
  have hbounded : Bounded x := by
    refine h.invariant (I := Bounded) ?_ ?_
    · rintro x ⟨hidle, -⟩
      obtain ⟨cfg, hmmu⟩ := hidle.mmu
      constructor
      · rw [hmmu]
        exact fun _ => Nat.zero_le _
      · rw [hmmu]
        exact fun _ hpos => absurd hpos (Nat.lt_irrefl 0)
    · rintro x e y - hx ⟨fuel, s, hs, rfl⟩
      exact hx.step hs
  refine ⟨fun slot => ⟨hbounded.hdrmBytes slot, hbounded.paused slot⟩, fun fuel e s hpaced hs => ?_⟩
  refine (Serves.onEvent (keepsHeadroom_dequeueAndTransmit fuel) hs).taken fun slot hq => ?_
  exact (Nat.add_le_add_right (hbounded.hdrmBytes slot) _).trans (hpaced slot hq)

/-- A packet for which the pool is too small. -/
def large : SwitchEvent := .receive 1 { ch := { dip := 5, pg := 3 }, size := 9000 }

theorem arriving_large_le (s : SwitchNode) (slot : Slot) : s.arriving large slot ≤ 9000 := by
  have hforwards : ∀ a, a.multicast = false → s.forwards 1 a ≤ 1 := by
    intro a hmulti
    unfold forwards
    rw [hmulti]
    split
    · exact Nat.zero_le _
    · rw [if_neg Bool.false_ne_true]
      split
      · exact Nat.le_refl _
      · exact Nat.zero_le _
  unfold arriving large
  dsimp only
  split
  · exact Nat.mul_le_mul_right 9000 (hforwards _ rfl)
  · exact Nat.zero_le _

/-- Three such packets: the first one leaves at once, the second one is charged to the headroom and
pauses its slot, and the third one still fits. -/
theorem headroom_lossless_large : ∃ x s, machine.Reachable x ∧
    x.switch.mmu.hdrmBytes (1, 3) = 9000 ∧ x.switch.mmu.paused (1, 3) = true ∧
    onEvent (dequeueAndTransmit 2) large x.switch = some s ∧ s.taken = x.switch.taken + 1 := by
  obtain ⟨s₁, s₂, s₃, hs₁, hs₂, hs₃, hhdrm, hheadroom, hforwarded⟩ : ∃ s₁ s₂ s₃,
      onEvent (dequeueAndTransmit 2) large (noPool 30000) = some s₁ ∧
      onEvent (dequeueAndTransmit 2) large s₁ = some s₂ ∧
      onEvent (dequeueAndTransmit 2) large s₂ = some s₃ ∧ s₂.mmu.hdrmBytes (1, 3) = 9000 ∧
      (∀ port, s₂.mmu.headroom port = 30000) ∧ s₂.forwarded large = 1 :=
    ⟨_, _, _, rfl, rfl, rfl, rfl, fun _ => rfl, rfl⟩
  have h₀ := Machine.Reachable.init (M := machine)
    (show machine.init ⟨noPool 30000, fun _ => 0⟩ from ⟨idle_noPool 30000, fun _ => rfl⟩)
  have h₁ := h₀.step (e := large) ⟨2, s₁, hs₁, rfl⟩
  have h₂ := h₁.step (e := large) ⟨2, s₂, hs₂, rfl⟩
  have hpaced : Paced (advance (advance ⟨noPool 30000, fun _ => 0⟩ large s₁) large s₂) large := by
    intro slot _
    have hfirst := arriving_large_le (noPool 30000) slot
    have hsecond := arriving_large_le s₁ slot
    have hthird := arriving_large_le s₂ slot
    dsimp only [advance]
    rw [hheadroom]
    split
    · split <;> omega
    · omega
  refine ⟨_, s₃, h₂, hhdrm, ?_, hs₃, ?_⟩
  · have hpos : 0 < s₂.mmu.hdrmBytes (1, 3) := by omega
    exact ((headroom_lossless h₂).1 (1, 3)).2 hpos
  · rw [(headroom_lossless h₂).2 2 large s₃ hpaced hs₃]
    exact congrArg _ hforwarded

end HeadroomRun
end Roce
