import Roce.Switch.NodeLedger

/-! # The packets that lift a pause

A queue that is paused is resumed when the last packet leaves that is charged to it. So there must
be one as long as it is paused, from the moment it is. -/

namespace Roce

open Function

/-- The packet entered by the port, and is on the priority. -/
def Held.Enters (slot : Slot) (h : Held) : Prop :=
  h.packet.flowId = some slot.1 ∧ h.qIndex = slot.2

theorem paused_updateIngressAdmission (mmu : SwitchMmu) (s : Slot) (psize : Nat) :
    (mmu.updateIngressAdmission s psize).paused = mmu.paused := by
  obtain ⟨hdrm, ingress, shared, h⟩ := updateIngressAdmission_eq mmu s psize
  rw [h]

theorem paused_removeFromIngressAdmission {mmu mmu' : SwitchMmu}
    (h : mmu.removeFromIngressAdmission s psize = some mmu') : mmu'.paused = mmu.paused := by
  obtain ⟨-, -, rfl⟩ := removeFromIngressAdmission_cases h
  rfl

namespace SwitchNode

variable {s s' : SwitchNode} {pending counted : List Held} {slot : Slot} {except : Slot → Prop}

/-- Some packet is there that entered by the port and the priority of `slot`, which is not 0. -/
def Lifted (s : SwitchNode) (pending : List Held) (slot : Slot) : Prop :=
  slot.2 ≠ 0 ∧ ∃ h ∈ s.kept ++ pending, h.Enters slot

/-- There is a packet for every queue that is paused, unless it is about to be resumed. -/
def Covers (except : Slot → Prop) (s : SwitchNode) (pending : List Held) : Prop :=
  ∀ slot, s.mmu.paused slot = true → except slot ∨ Lifted s pending slot

theorem Lifted.mono (h : Lifted s pending slot)
    (hsub : ∀ h ∈ s.kept ++ pending, h.qIndex ≠ 0 → h ∈ s'.kept ++ pending') :
    Lifted s' pending' slot := by
  obtain ⟨hq, held, hmem, henters⟩ := h
  exact ⟨hq, held, hsub held hmem (henters.2 ▸ hq), henters⟩

theorem Covers.mono (h : Covers except s pending) (hpaused : s'.mmu.paused = s.mmu.paused)
    (hsub : ∀ h ∈ s.kept ++ pending, h.qIndex ≠ 0 → h ∈ s'.kept ++ pending') :
    Covers except s' pending' := by
  intro slot hslot
  rw [hpaused] at hslot
  exact (h slot hslot).imp id fun hl => hl.mono hsub

theorem Lifted.of_enters {held : Held} (hq : slot.2 ≠ 0) (hmem : held ∈ pending)
    (h : held.Enters slot) : Lifted s pending slot :=
  ⟨hq, held, List.mem_append_right _ hmem, h⟩

theorem Covers.setDevice {device : SwitchDevice} (h : Covers except s pending)
    (hqueue : device.queue = (s.devices port).queue) :
    Covers except (s.setDevice port device) pending :=
  h.mono rfl fun held hmem _ => by rwa [kept_setDevice hqueue]

theorem Lifted.setDevice {device : SwitchDevice} (h : Lifted s pending slot)
    (hqueue : device.queue = (s.devices port).queue) :
    Lifted (s.setDevice port device) pending slot :=
  h.mono fun held hmem _ => by rwa [kept_setDevice hqueue]

theorem mem_enqueue (port : Port) (qIndex : Priority) (p : SwitchPacket) (held : Held)
    (hmem : held ∈ s.kept ++ ⟨port, qIndex, p⟩ :: pending) :
    held ∈ (s.enqueue port qIndex p).kept ++ pending := by
  obtain ⟨hperm, -, -⟩ := enqueue_perm port qIndex p s
  have hall : (s.kept ++ ⟨port, qIndex, p⟩ :: pending).Perm
      ((s.enqueue port qIndex p).kept ++ pending) :=
    List.perm_middle.trans (hperm.symm.append_right pending)
  exact hall.mem_iff.mp hmem

theorem Covers.enqueue (h : Covers except s (⟨port, qIndex, p⟩ :: pending)) :
    Covers except (s.enqueue port qIndex p) pending := by
  obtain ⟨-, -, hsame⟩ := enqueue_perm port qIndex p s
  exact h.mono (by rw [hsame.mmu]) fun held hmem _ => mem_enqueue port qIndex p held hmem

theorem mem_cons_pending (x : Held) (hmem : held ∈ s.kept ++ pending) :
    held ∈ s.kept ++ x :: pending := by
  rcases List.mem_append.mp hmem with hk | hp
  · exact List.mem_append_left _ hk
  · exact List.mem_append_right _ (List.mem_cons_of_mem x hp)

theorem Lifted.enqueue (h : Lifted s pending slot) (port : Port) (qIndex : Priority)
    (p : SwitchPacket) : Lifted (s.enqueue port qIndex p) pending slot :=
  h.mono fun held hmem _ => mem_enqueue port qIndex p held (mem_cons_pending _ hmem)

/-- More packets are pending. -/
theorem Covers.cons (h : Covers except s pending) (held : Held) :
    Covers except s (held :: pending) :=
  h.mono rfl fun _ hmem _ => mem_cons_pending held hmem

theorem mem_dequeue (hd : s.dequeue port = some (held, s')) (h : Held)
    (hmem : h ∈ s.kept ++ pending) : h ∈ s'.kept ++ held :: pending := by
  have hall : (s.kept ++ pending).Perm (s'.kept ++ held :: pending) :=
    ((kept_perm_of_dequeue hd).append_right pending).trans List.perm_middle.symm
  exact hall.mem_iff.mp hmem

theorem Covers.dequeue (h : Covers except s pending) (hd : s.dequeue port = some (held, s')) :
    Covers except s' (held :: pending) := by
  obtain ⟨-, -, -, hsame⟩ := dequeue_perm hd
  exact h.mono (by rw [hsame.mmu]) fun x hmem _ => mem_dequeue hd x hmem

/-- A packet of the priority 0 lifts no pause. -/
theorem Covers.drop_zero (h : Covers except s (held :: pending)) (hq : held.qIndex = 0) :
    Covers except s pending := by
  refine h.mono rfl fun x hmem hx => ?_
  rcases List.mem_append.mp hmem with hk | hp
  · exact List.mem_append_left _ hk
  · rcases List.mem_cons.mp hp with rfl | hp
    · exact absurd hq hx
    · exact List.mem_append_right _ hp

theorem paused_release (h : s.release held = some s') : s'.mmu.paused = s.mmu.paused := by
  obtain ⟨inDev, x, mmu, -, -, hmmu, rfl⟩ := release_spec h
  have hpaused : mmu.paused = s.mmu.paused := by
    split at hmmu
    · exact paused_removeFromIngressAdmission hmmu
    · cases hmmu
      rfl
  exact hpaused

/-- The packet that leaves may be the last one. -/
theorem Covers.release (h : Covers except s (held :: pending)) (hrel : s.release held = some s')
    (hflow : held.packet.flowId = some inDev) :
    Covers (fun slot => except slot ∨ slot = (inDev, held.qIndex)) s' pending := by
  have hpaused := paused_release hrel
  obtain ⟨inDev', x, mmu, hin, -, -, rfl⟩ := release_spec hrel
  cases hflow.symm.trans hin
  intro slot hslot
  rw [hpaused] at hslot
  rcases h slot hslot with hexcept | ⟨hq, x, hmem, henters⟩
  · exact .inl (.inl hexcept)
  · rcases List.mem_append.mp hmem with hk | hp
    · exact .inr ⟨hq, x, List.mem_append_left _ hk, henters⟩
    · rcases List.mem_cons.mp hp with rfl | hp
      · refine .inl (.inr (Prod.ext ?_ henters.2.symm))
        exact Option.some.inj (henters.1.symm.trans hflow)
      · exact .inr ⟨hq, x, List.mem_append_right _ hp, henters⟩

/-- What is charged to a queue was charged for a packet. -/
theorem Booked.lifted (h : Booked s pending counted) (hq : slot.2 ≠ 0)
    (hcharged : 0 < s.mmu.ingressBytes slot + s.mmu.hdrmBytes slot) : Lifted s pending slot := by
  rw [h.charged.ledger.charged, bytesAt, tally_map] at hcharged
  by_contra hnone
  have hzero : tally (fun h => (Held.charge h).2) (fun h => (Held.charge h).1 = slot)
      (admitted (s.kept ++ pending)) = 0 := by
    refine tally_eq_zero fun held hmem hslot => hnone ⟨hq, held, (List.mem_filter.mp hmem).1, ?_⟩
    obtain ⟨inDev, hflow⟩ := Option.isSome_iff_exists.mp (h.charged.tagged held hmem)
    rw [charge_eq hflow] at hslot
    subst hslot
    exact ⟨hflow, rfl⟩
  rw [hzero] at hcharged
  cases hcharged

theorem charged_of_not_resume {mmu : SwitchMmu} (hpaused : mmu.paused slot = true)
    (h : mmu.checkShouldResume slot = false) : 0 < mmu.ingressBytes slot + mmu.hdrmBytes slot := by
  rw [SwitchMmu.checkShouldResume, hpaused, getSharedUsed_eq] at h
  by_contra hzero
  have hhdrm : mmu.hdrmBytes slot = 0 := by omega
  have hingress : mmu.ingressBytes slot = 0 := by omega
  simp [hhdrm, hingress] at h

/-! ## The functions of the switch -/

/-- A function under which the pauses stay covered. It forgets no refusal, and a packet of the
priority 0 leaves before the others. -/
structure KeepsPauses (transmit : Port → SwitchNode → Option SwitchNode) : Prop where
  books : KeepsBooks transmit
  refused : ∀ {port s s'}, transmit port s = some s' → s'.refused = [] → s.refused = []
  covers : ∀ {port s s' pending counted except}, transmit port s = some s' →
    Booked s pending counted → Covers except s pending → Covers except s' pending
  urgent : ∀ {port s s' pending slot}, transmit port s = some s' → s.queueAt (port, 0) ≠ [] →
    Lifted s pending slot → Lifted s' pending slot

theorem enqueue_cases (port : Port) (qIndex : Priority) (p : SwitchPacket) (s : SwitchNode) :
    ((s.enqueue port qIndex p).queueAt (port, qIndex) = s.queueAt (port, qIndex) ++ [p] ∧
      (s.enqueue port qIndex p).refused = s.refused) ∨
    (s.enqueue port qIndex p).refused = s.refused ++ [⟨port, qIndex, p⟩] := by
  unfold enqueue
  split
  next queue hq =>
    left
    rw [queueAt, queueAt, setDevice]
    dsimp only
    rw [update_self, BEgressQueue.enqueue_spec hq, update_self]
    exact ⟨rfl, rfl⟩
  next => exact .inr rfl

theorem refused_enqueue (h : (s.enqueue port qIndex p).refused = []) : s.refused = [] := by
  rcases enqueue_cases port qIndex p s with ⟨-, heq⟩ | heq
  · exact heq ▸ h
  · rw [heq] at h
    exact absurd h (List.append_ne_nil_of_right_ne_nil _ (List.cons_ne_nil _ _))

section
variable {transmit : Port → SwitchNode → Option SwitchNode} (ht : KeepsPauses transmit)
include ht

theorem refused_sendPfc (hs : sendPfc transmit port qIndex type s = some s')
    (h : s'.refused = []) : s.refused = [] :=
  refused_enqueue (s := s.alloc) (ht.refused hs h)

theorem Covers.sendPfc (h : Covers except s pending) (hb : Booked s pending counted)
    (hs : sendPfc transmit port qIndex type s = some s') : Covers except s' pending := by
  have halloc : Covers except s.alloc pending := h.mono rfl fun _ hmem _ => hmem
  exact ht.covers hs (hb.alloc.silent rfl (.inl rfl)).enqueue (halloc.cons _).enqueue

/-- A PFC frame that is not refused leaves first. -/
theorem Lifted.sendPfc (h : Lifted s pending slot) (hrefused : s'.refused = [])
    (hs : sendPfc transmit port qIndex type s = some s') : Lifted s' pending slot := by
  have halloc : Lifted s.alloc pending slot := h.mono fun _ hmem _ => hmem
  refine ht.urgent hs ?_ (halloc.enqueue ..)
  have hfirst := ht.refused hs hrefused
  rcases enqueue_cases port 0 _ s.alloc with ⟨heq, -⟩ | heq
  · rw [heq]
    exact List.append_ne_nil_of_right_ne_nil _ (List.cons_ne_nil _ _)
  · rw [heq] at hfirst
    exact absurd hfirst (List.append_ne_nil_of_right_ne_nil _ (List.cons_ne_nil _ _))

theorem refused_checkAndSendPfc (hs : checkAndSendPfc transmit inDev qIndex s = some s')
    (h : s'.refused = []) : s.refused = [] := by
  obtain ⟨-, t, hsend, rfl⟩ | ⟨-, rfl⟩ := checkAndSendPfc_cases hs
  · have hfirst := refused_sendPfc ht hsend h
    exact hfirst
  · exact h

theorem refused_checkAndSendResume (hs : checkAndSendResume transmit inDev qIndex s = some s')
    (h : s'.refused = []) : s.refused = [] := by
  obtain ⟨-, t, hsend, rfl⟩ | ⟨-, rfl⟩ := checkAndSendResume_cases hs
  · have hfirst := refused_sendPfc ht hsend h
    exact hfirst
  · exact h

theorem refused_switchNotifyDequeue (hs : switchNotifyDequeue transmit held s = some s')
    (h : s'.refused = []) : s.refused = [] := by
  obtain ⟨-, rfl⟩ | ⟨-, inDev, t, -, hrelease, hs⟩ := switchNotifyDequeue_cases hs
  · exact h
  · obtain ⟨inDev', x, mmu, -, -, -, rfl⟩ := release_spec hrelease
    have hfirst := refused_checkAndSendResume ht hs h
    exact hfirst

/-- A queue is paused, for a packet that lifts the pause. -/
theorem Covers.checkAndSendPfc (h : Covers except s pending) (hb : Booked s pending counted)
    (hq : qIndex ≠ 0) (hs : checkAndSendPfc transmit inDev qIndex s = some s')
    (hlifted : s.mmu.checkShouldPause (inDev, qIndex) = true →
      (∃ h ∈ pending, h.Enters (inDev, qIndex)) ∨
        Lifted s pending (inDev, qIndex) ∧ s'.refused = []) : Covers except s' pending := by
  obtain ⟨hcheck, t, hsend, rfl⟩ | ⟨-, rfl⟩ := checkAndSendPfc_cases hs
  · have hcovers := h.sendPfc ht hb hsend
    have hlift : Lifted t pending (inDev, qIndex) := by
      rcases hlifted hcheck with ⟨held, hmem, henters⟩ | ⟨hl, hrefused⟩
      · exact .of_enters hq hmem henters
      · exact hl.sendPfc ht hrefused hsend
    intro slot hslot
    by_cases heq : slot = (inDev, qIndex)
    · rw [heq]
      exact .inr hlift
    · have hslot : update t.mmu.paused (inDev, qIndex) true slot = true := hslot
      rw [update_of_ne heq] at hslot
      exact hcovers slot hslot
  · exact h

/-- A queue is resumed, or has still a packet. -/
theorem Covers.checkAndSendResume
    (h : Covers (fun slot => except slot ∨ slot = (inDev, qIndex)) s pending)
    (hb : Booked s pending counted) (hq : qIndex ≠ 0)
    (hs : checkAndSendResume transmit inDev qIndex s = some s') : Covers except s' pending := by
  obtain ⟨-, t, hsend, rfl⟩ | ⟨hcheck, rfl⟩ := checkAndSendResume_cases hs
  · have hcovers := h.sendPfc ht hb hsend
    intro slot hslot
    have hslot : update t.mmu.paused (inDev, qIndex) false slot = true := hslot
    by_cases heq : slot = (inDev, qIndex)
    · rw [heq, update_self] at hslot
      cases hslot
    · rw [update_of_ne heq] at hslot
      exact (hcovers slot hslot).imp (fun hexcept => hexcept.resolve_right heq) id
  · intro slot hslot
    by_cases heq : slot = (inDev, qIndex)
    · subst heq
      exact .inr (hb.lifted hq (charged_of_not_resume hslot hcheck))
    · exact (h slot hslot).imp (fun hexcept => hexcept.resolve_right heq) id

theorem Covers.switchNotifyDequeue {held : Held} (h : Covers except s (held :: pending))
    (hb : Booked s (held :: pending) (held :: counted)) (hq : held.qIndex ≠ 0)
    (hs : switchNotifyDequeue transmit held s = some s') : Covers except s' pending := by
  rw [SwitchNode.switchNotifyDequeue, if_neg hq] at hs
  obtain ⟨inDev, hflow, hs⟩ := Option.bind_eq_some_iff.mp hs
  obtain ⟨s₁, hs₁, hs⟩ := Option.bind_eq_some_iff.mp hs
  exact (h.release hs₁ hflow).checkAndSendResume ht (hb.release hq hs₁) hq hs

end

/-- A packet of the priority 0 that waits is the next one. -/
theorem dequeue_urgent (hzero : s.queueAt (port, 0) ≠ []) (hd : s.dequeue port = some (held, s')) :
    held.qIndex = 0 := by
  obtain ⟨⟨p, queue⟩, hq, hd⟩ := Option.bind_eq_some_iff.mp hd
  cases hd
  exact BEgressQueue.qlast_of_urgent hq hzero

theorem Covers.transmitStart (h : Covers except s pending) (hs : transmitStart port p s = some s') :
    Covers except s' pending := by
  obtain ⟨-, rfl⟩ := transmitStart_cases hs
  exact h.setDevice rfl

theorem Lifted.transmitStart (h : Lifted s pending slot) (hs : transmitStart port p s = some s') :
    Lifted s' pending slot := by
  obtain ⟨-, rfl⟩ := transmitStart_cases hs
  exact h.setDevice rfl

theorem keepsPauses_dequeueAndTransmit (fuel : Nat) : KeepsPauses (dequeueAndTransmit fuel) := by
  induction fuel with
  | zero =>
    refine ⟨keepsBooks_dequeueAndTransmit 0, fun hs => ?_, fun hs => ?_, fun hs => ?_⟩ <;> cases hs
  | succ fuel ih =>
    constructor
    case books => exact keepsBooks_dequeueAndTransmit (fuel + 1)
    case refused =>
      intro port s s' hs hrefused
      obtain rfl | ⟨held, t, u, hd, hnotify, hs⟩ := dequeueAndTransmit_cases hs
      · exact hrefused
      · obtain ⟨-, rfl⟩ := transmitStart_cases hs
        obtain ⟨-, heq, -⟩ := dequeue_perm hd
        rw [← heq]
        exact refused_switchNotifyDequeue ih hnotify hrefused
    case covers =>
      intro port s s' pending counted except hs hb h
      obtain rfl | ⟨held, t, u, hd, hnotify, hs⟩ := dequeueAndTransmit_cases hs
      · exact h
      · refine Covers.transmitStart ?_ hs
        by_cases hq : held.qIndex = 0
        · rw [switchNotifyDequeue, if_pos hq] at hnotify
          cases hnotify
          exact (h.dequeue hd).drop_zero hq
        · exact (h.dequeue hd).switchNotifyDequeue ih (hb.dequeue hd hq) hq hnotify
    case urgent =>
      intro port s s' pending slot hs hzero h
      obtain rfl | ⟨held, t, u, hd, hnotify, hs⟩ := dequeueAndTransmit_cases hs
      · exact h
      · have hq := dequeue_urgent hzero hd
        rw [switchNotifyDequeue, if_pos hq] at hnotify
        cases hnotify
        refine Lifted.transmitStart (h.mono fun x hmem hx => ?_) hs
        rcases List.mem_append.mp (mem_dequeue hd x hmem) with hk | hp
        · exact List.mem_append_left _ hk
        · rcases List.mem_cons.mp hp with rfl | hp
          · exact absurd hq hx
          · exact List.mem_append_right _ hp

/-! ## Admission -/

/-- What a turn of the loop of `SendMultiToDevs` does, on a priority that is not 0. -/
theorem admitCopy_admitted {st st' : SwitchNode × List Held} (hq : qIndex ≠ 0)
    (hflow : p.flowId = some inDev) (hs : admitCopy inDev qIndex p st idx = some st') :
    (st.1.mmu.checkIngressAdmission (inDev, qIndex) p.size = false ∧ st' = (st.1.alloc, st.2)) ∨
      ∃ held : Held, held.Enters (inDev, qIndex) ∧ st'.2 = st.2 ++ [held] ∧
        st'.1.mmu.paused = st.1.mmu.paused ∧ st'.1.kept = st.1.kept ∧
        st'.1.refused = st.1.refused := by
  obtain ⟨port, -, hs⟩ := Option.bind_eq_some_iff.mp hs
  dsimp only at hs
  split at hs
  · cases hs
  · split at hs
    next hcheck =>
      cases hs
      exact .inl ⟨by simpa using hcheck, rfl⟩
    next =>
      cases hs
      refine .inr ⟨_, ⟨hflow, rfl⟩, rfl, ?_, rfl, rfl⟩
      exact paused_updateIngressAdmission ..

theorem Covers.append (h : Covers except s pending) (hpaused : s'.mmu.paused = s.mmu.paused)
    (hkept : s'.kept = s.kept) (held : Held) : Covers except s' (pending ++ [held]) := by
  refine h.mono hpaused fun x hmem _ => ?_
  rw [hkept, ← List.append_assoc]
  exact List.mem_append_left _ hmem

theorem Covers.admitCopy {st st' : SwitchNode × List Held} (h : Covers except st.1 st.2)
    (hs : admitCopy inDev qIndex p st idx = some st') : Covers except st'.1 st'.2 := by
  obtain ⟨port, ⟨-, rfl⟩ | ⟨-, rfl⟩ | ⟨-, -, rfl⟩⟩ := admitCopy_cases hs
  · exact h.append rfl rfl _
  · exact h.mono rfl fun _ hmem _ => hmem
  · refine h.append ?_ ?_ _
    · exact paused_updateIngressAdmission ..
    · rfl

theorem Covers.admitCopies {ports : List Nat} (st : SwitchNode × List Held)
    {st' : SwitchNode × List Held} (h : Covers except st.1 st.2)
    (hs : ports.foldlM (SwitchNode.admitCopy inDev qIndex p) st = some st') :
    Covers except st'.1 st'.2 :=
  foldlM_invariant (I := fun _ st => Covers except st.1 st.2) (fun h hs => h.admitCopy hs) h hs

theorem refused_admitCopies {ports : List Nat} {st st' : SwitchNode × List Held}
    (hs : ports.foldlM (admitCopy inDev qIndex p) st = some st') :
    st'.1.refused = st.1.refused := by
  refine foldlM_invariant (I := fun _ t => t.1.refused = st.1.refused) (fun h hs => ?_) rfl hs
  obtain ⟨port, ⟨-, rfl⟩ | ⟨-, rfl⟩ | ⟨-, -, rfl⟩⟩ := admitCopy_cases hs <;> exact h

theorem tosend_subset {ports : List Nat} {st st' : SwitchNode × List Held}
    (hs : ports.foldlM (admitCopy inDev qIndex p) st = some st') : st.2 ⊆ st'.2 := by
  refine foldlM_invariant (I := fun _ t => st.2 ⊆ t.2) (fun h hs => ?_) (List.Subset.refl _) hs
  obtain ⟨port, ⟨-, rfl⟩ | ⟨-, rfl⟩ | ⟨-, -, rfl⟩⟩ := admitCopy_cases hs
  · exact List.subset_append_of_subset_left _ h
  · exact h
  · exact List.subset_append_of_subset_left _ h

/-- Unless the first copy is not admitted, there is a packet on its way. -/
theorem admitCopies_admitted {ports : List Nat} (st : SwitchNode × List Held)
    {st' : SwitchNode × List Held} (hq : qIndex ≠ 0) (hflow : p.flowId = some inDev)
    (hs : ports.foldlM (admitCopy inDev qIndex p) st = some st') :
    (∃ held ∈ st'.2, held.Enters (inDev, qIndex)) ∨
      st'.1.mmu = st.1.mmu ∧ st'.1.kept = st.1.kept ∧
        (ports = [] ∨ st.1.mmu.checkIngressAdmission (inDev, qIndex) p.size = false) := by
  induction ports generalizing st with
  | nil =>
    cases hs
    exact .inr ⟨rfl, rfl, .inl rfl⟩
  | cons idx ports ih =>
    rw [List.foldlM_cons] at hs
    obtain ⟨st₁, hs₁, hs⟩ := Option.bind_eq_some_iff.mp hs
    rcases admitCopy_admitted hq hflow hs₁ with ⟨hcheck, rfl⟩ | ⟨held, henters, htosend, -⟩
    · exact (ih _ hs).imp id fun hnone => ⟨hnone.1, hnone.2.1, .inr hcheck⟩
    · refine .inl ⟨held, ?_, henters⟩
      have hmem : held ∈ st₁.2 := htosend ▸ List.mem_append_right _ List.mem_cons_self
      exact (tosend_subset hs) hmem

section
variable {transmit : Port → SwitchNode → Option SwitchNode} (ht : KeepsPauses transmit)
include ht

/-- `SendToDev` of a new packet. -/
theorem Covers.sendToDev (h : Covers except s []) (hb : Booked s [] []) (hptr : p.ptr = s.nextPtr)
    (hmulti : p.multicast = false) (hsmall : chargedSize s.kept + p.size < 2 ^ 32)
    (hs : sendToDev transmit ch junk p s.alloc = some s') : Covers except s' [] := by
  have halloc : Covers except s.alloc [] := h.mono rfl fun _ hmem _ => hmem
  obtain rfl | ⟨port, qIndex, inDev, -, hflow, ⟨hq, hs⟩ | ⟨hq, hadmit, t, hpfc, hs⟩⟩ :=
    sendToDev_cases hs
  · exact halloc
  · have hbooked : Booked (s.alloc.countBytes inDev ⟨port, qIndex, p⟩) [⟨port, qIndex, p⟩]
        [⟨port, qIndex, p⟩] := (hb.alloc.countBytes hflow (.inr hmulti)).pending_zero hq
    have hcount : Covers except (s.alloc.countBytes inDev ⟨port, qIndex, p⟩) [⟨port, qIndex, p⟩] :=
      (halloc.cons _).mono rfl fun _ hmem _ => hmem
    exact ht.covers hs hbooked.enqueue hcount.enqueue
  · have hbooked : Booked (s.alloc.charge inDev ⟨port, qIndex, p⟩) [⟨port, qIndex, p⟩] [] :=
      hb.charge hflow hq hptr hadmit (by rwa [List.append_nil])
    have hcharge : Covers except (s.alloc.charge inDev ⟨port, qIndex, p⟩) [⟨port, qIndex, p⟩] :=
      (halloc.cons _).mono (paused_updateIngressAdmission ..) fun _ hmem _ => hmem
    -- the packet itself lifts the pause
    have hpaused := hcharge.checkAndSendPfc ht hbooked hq hpfc fun _ =>
      .inl ⟨_, List.mem_cons_self, hflow, rfl⟩
    have hbooked' : Booked (t.countBytes inDev ⟨port, qIndex, p⟩) [⟨port, qIndex, p⟩]
        [⟨port, qIndex, p⟩] := (hbooked.checkAndSendPfc ht.books hpfc).countBytes hflow (.inl hq)
    have hcount : Covers except (t.countBytes inDev ⟨port, qIndex, p⟩) [⟨port, qIndex, p⟩] :=
      hpaused.mono rfl fun _ hmem _ => hmem
    exact ht.covers hs hbooked'.enqueue hcount.enqueue

/-- The copies are enqueued. -/
theorem Covers.sendAll {tosend : List Held} (h : Covers except s tosend)
    (hb : Booked s tosend tosend)
    (hs : tosend.foldlM (fun s h => switchSend transmit h.port h.qIndex h.packet s) s = some s') :
    Covers except s' [] := by
  refine (foldlM_invariant (I := fun tosend s => Covers except s tosend ∧ Booked s tosend tosend)
    ?_ ⟨h, hb⟩ hs).1
  rintro held tosend s s₁ ⟨h, hb⟩ hs₁
  exact ⟨ht.covers hs₁ hb.enqueue h.enqueue, ht.books hs₁ hb.enqueue⟩

theorem refused_sendAll {tosend : List Held}
    (hs : tosend.foldlM (fun s h => switchSend transmit h.port h.qIndex h.packet s) s = some s')
    (h : s'.refused = []) : s.refused = [] := by
  induction tosend generalizing s with
  | nil =>
    cases hs
    exact h
  | cons held tosend ih =>
    rw [List.foldlM_cons] at hs
    obtain ⟨s₁, hs₁, hs⟩ := Option.bind_eq_some_iff.mp hs
    exact refused_enqueue (ht.refused hs₁ (ih hs))

theorem Covers.sendMultiToDevs {port : Port} (h : Covers except s []) (hb : Booked s [] [])
    (hflow : p.flowId = some port) (hmulti : p.multicast = true)
    (hsmall : ∀ group, s.ogroups ch.dip = some group → chargedSize s.kept +
      (multiPorts group s.uplink ch junk s.ecmpSeed port).length * p.size < 2 ^ 32)
    (hjustified : ∀ group qIndex, s.ogroups ch.dip = some group → s.qIndexOf ch = some qIndex →
      qIndex ≠ 0 → (multiPorts group s.uplink ch junk s.ecmpSeed port = [] ∨
        s.mmu.checkIngressAdmission (port, qIndex) p.size = false) →
      s.mmu.checkShouldPause (port, qIndex) = true → Lifted s [] (port, qIndex))
    (hs : sendMultiToDevs transmit ch junk p port s = some s') (hrefused : s'.refused = []) :
    Covers except s' [] := by
  obtain rfl | ⟨group, qIndex, inDev, t, tosend, u, hgroup, hqIndex, hin, hadmit, hpfc, hs⟩ :=
    sendMultiToDevs_cases hs
  · exact h
  · cases hflow.symm.trans hin
    have hbooked : Booked t tosend tosend := Booked.admitCopies (s, []) hb hflow hmulti
      (by rw [List.append_nil]; exact hsmall group hgroup) hadmit
    have hcovers : Covers except t tosend := Covers.admitCopies (s, []) h hadmit
    obtain ⟨-, rfl⟩ | ⟨hq, hpfc⟩ := hpfc
    · exact hcovers.sendAll ht hbooked hs
    · have hbooked' := hbooked.checkAndSendPfc ht.books hpfc
      refine (hcovers.checkAndSendPfc ht hbooked hq hpfc fun hcheck => ?_).sendAll ht hbooked' hs
      rcases admitCopies_admitted (s, []) hq hflow hadmit with hadmitted | ⟨hmmu, hkept, hfirst⟩
      · exact .inl hadmitted
      · have hmmu : t.mmu = s.mmu := hmmu
        have hkept : t.kept = s.kept := hkept
        rw [hmmu] at hcheck
        have hlifted := hjustified group qIndex hgroup hqIndex hq hfirst hcheck
        refine .inr ⟨hlifted.mono fun held hmem _ => ?_, refused_sendAll ht hs hrefused⟩
        rw [List.append_nil] at hmem
        exact List.mem_append_left _ (hkept ▸ hmem)

end

/-! ## Runs -/

/-- A packet that entered by the port waits on the priority, in one of the queues. -/
def Buffered (s : SwitchNode) (slot : Slot) : Prop :=
  ∃ outDev, ∃ p ∈ s.queueAt (outDev, slot.2), p.flowId = some slot.1

/-- A multicast packet of which no copy is admitted does not pause its queue, unless something else
waits there. -/
def Justified (s : SwitchNode) : SwitchEvent → Prop
  | .receive port a => a.multicast = true → ∀ group qIndex, s.ogroups a.ch.dip = some group →
    s.qIndexOf a.ch = some qIndex → qIndex ≠ 0 →
    (multiPorts group s.uplink a.ch a.junk s.ecmpSeed port = [] ∨
      s.mmu.checkIngressAdmission (port, qIndex) a.size = false) →
    s.mmu.checkShouldPause (port, qIndex) = true → s.Buffered (port, qIndex)
  | .transmitComplete _ => True

theorem lifted_of_buffered (h : s.Buffered slot) (hq : slot.2 ≠ 0) : Lifted s [] slot := by
  obtain ⟨outDev, p, hmem, hflow⟩ := h
  have hqueued : Held.mk outDev slot.2 p ∈ s.queued :=
    List.mem_flatMap.mpr ⟨_, mem_slots (outDev, slot.2), List.mem_map_of_mem hmem⟩
  exact ⟨hq, _, List.mem_append_left _ (List.mem_append_left _ hqueued), hflow, rfl⟩

theorem Lifted.buffered (h : Lifted s [] slot) (hrefused : s.refused = []) : s.Buffered slot := by
  obtain ⟨-, held, hmem, hflow, hq⟩ := h
  rw [List.append_nil, kept, hrefused, List.append_nil] at hmem
  obtain ⟨slot', -, hheld⟩ := List.mem_flatMap.mp hmem
  obtain ⟨p, hp, rfl⟩ := List.mem_map.mp hheld
  have hq : slot'.2 = slot.2 := hq
  exact ⟨slot'.1, p, hq ▸ hp, hflow⟩

section
variable {transmit : Port → SwitchNode → Option SwitchNode} (ht : KeepsPauses transmit)
include ht

theorem refused_sendToDev (hs : sendToDev transmit ch junk p s = some s') (h : s'.refused = []) :
    s.refused = [] := by
  obtain rfl | ⟨port, qIndex, inDev, -, -, ⟨-, hs⟩ | ⟨-, -, t, hpfc, hs⟩⟩ := sendToDev_cases hs
  · exact h
  · have hfirst := refused_enqueue (ht.refused hs h)
    exact hfirst
  · have hcount := refused_enqueue (ht.refused hs h)
    have hfirst := refused_checkAndSendPfc ht hpfc hcount
    exact hfirst

theorem refused_sendMultiToDevs (hs : sendMultiToDevs transmit ch junk p port s = some s')
    (h : s'.refused = []) : s.refused = [] := by
  obtain rfl | ⟨group, qIndex, inDev, t, tosend, u, -, -, -, hadmit, hpfc, hs⟩ :=
    sendMultiToDevs_cases hs
  · exact h
  · have hsent := refused_sendAll ht hs h
    have heq : t.refused = s.refused := refused_admitCopies hadmit
    rw [← heq]
    obtain ⟨-, rfl⟩ | ⟨-, hpfc⟩ := hpfc
    · exact hsent
    · exact refused_checkAndSendPfc ht hpfc hsent

theorem refused_onEvent (hs : onEvent transmit e s = some s') (h : s'.refused = []) :
    s.refused = [] := by
  cases e with
  | receive port a =>
    obtain rfl | rfl | hs | ⟨-, hs⟩ | ⟨-, hs⟩ := receive_cases hs
    · exact h
    · exact h
    · have hfirst := ht.refused hs h
      exact hfirst
    · have hfirst := refused_sendMultiToDevs ht hs h
      exact hfirst
    · have hfirst := refused_sendToDev ht hs h
      exact hfirst
  | transmitComplete port =>
    have hfirst := ht.refused (transmitComplete_eq hs) h
    exact hfirst

theorem Covers.onEvent (h : Covers except s []) (hb : Booked s [] []) (hfits : s.Fits e)
    (hjustified : s.Justified e) (hs : onEvent transmit e s = some s')
    (hrefused : s'.refused = []) :
    Covers except s' [] := by
  cases e with
  | receive port a =>
    obtain rfl | rfl | hs | ⟨hmulti, hs⟩ | ⟨hmulti, hs⟩ := receive_cases hs
    · exact h
    · exact h.setDevice rfl
    · exact ht.covers hs (hb.setDevice rfl) (h.setDevice rfl)
    · rw [Fits, copies, if_pos hmulti] at hfits
      have halloc : Covers except s.alloc [] := h.mono rfl fun _ hmem _ => hmem
      refine halloc.sendMultiToDevs ht hb.alloc rfl hmulti (fun group hgroup => ?_)
        (fun group qIndex hgroup hqIndex hq hfirst hcheck => ?_) hs hrefused
      · have hgroup : s.ogroups a.ch.dip = some group := hgroup
        rwa [hgroup] at hfits
      · exact lifted_of_buffered (hjustified hmulti group qIndex hgroup hqIndex hq hfirst hcheck) hq
    · rw [Fits, copies, hmulti, if_neg Bool.false_ne_true, Nat.one_mul] at hfits
      exact h.sendToDev ht hb rfl hmulti hfits hs
  | transmitComplete port =>
    exact ht.covers (transmitComplete_eq hs) (hb.setDevice rfl) (h.setDevice rfl)

end

/-- The packets that are charged are fewer than 4 GiB, and a pause has its reason. -/
def Supported (s : SwitchNode) (e : SwitchEvent) : Prop := Fits s e ∧ Justified s e

/-- A queue is paused only as long as a packet waits that lifts the pause, if nothing was
refused. -/
theorem paused_buffered (h : (machine.restrict Supported).Reachable s) (hrefused : s.refused = [])
    (hpaused : s.mmu.paused slot = true) : s.Buffered slot := by
  have hinv : Booked s [] [] ∧ (s.refused = [] → Covers (fun _ => False) s []) := by
    refine h.invariant
      (I := fun s => Booked s [] [] ∧ (s.refused = [] → Covers (fun _ => False) s []))
      (fun hidle => ⟨Idle.booked hidle, fun _ slot hslot => ?_⟩) ?_
    · obtain ⟨cfg, hmmu⟩ := Idle.mmu hidle
      rw [hmmu] at hslot
      cases hslot
    · rintro s e s' - ⟨hb, hcovers⟩ ⟨⟨hfits, hjustified⟩, fuel, hs⟩
      have ht := keepsPauses_dequeueAndTransmit fuel
      refine ⟨hb.onEvent ht.books hfits hs, fun hrefused => ?_⟩
      have hbefore := hcovers (refused_onEvent ht hs hrefused)
      exact hbefore.onEvent ht hb hfits hjustified hs hrefused
  exact ((hinv.2 hrefused slot hpaused).resolve_left id).buffered hrefused

/-- A switch without a shared pool. -/
def noPool (headroom : Nat) : SwitchNode where
  mmu := { bufferSize := 8192, headroom := fun _ => headroom, totalRsrv := 8192 }
  devices := fun _ => { qbbEnabled := true }
  rtTable := fun _ => some [2]
  ogroups := fun _ => some [1, 2]
  uplink := [false, false, false]

theorem idle_noPool (headroom : Nat) : Idle (noPool headroom) :=
  ⟨⟨_, rfl⟩, fun _ _ => rfl, fun _ => rfl, fun _ _ => rfl, fun _ => rfl, rfl, rfl, rfl, rfl⟩

/-- A multicast packet is dropped, and its queue is paused. -/
theorem paused_nothing_buffered : ∃ s : SwitchNode, machine.Reachable s ∧ s.refused = [] ∧
    s.mmu.paused (1, 3) = true ∧ ¬s.Buffered (1, 3) := by
  have hstep : ∃ s', onEvent (dequeueAndTransmit 1)
      (.receive 1 { ch := { dip := 5, pg := 3 }, size := 1000, multicast := true }) (noPool 0) =
        some s' ∧
      s'.refused = [] ∧ s'.mmu.paused (1, 3) = true ∧ ∀ outDev, s'.queueAt (outDev, 3) = [] := by
    refine ⟨_, rfl, rfl, rfl, fun outDev => ?_⟩
    by_cases hport : outDev = 1
    · subst hport
      rfl
    · have hother : ∀ d₁ d₂ d₃ : SwitchDevice,
          (update (update (update (noPool 0).devices 1 d₁) 1 d₂) 1 d₃ outDev).queue.queues 3 =
            [] := by
        intro d₁ d₂ d₃
        rw [update_of_ne hport, update_of_ne hport, update_of_ne hport]
        rfl
      exact hother _ _ _
  obtain ⟨s, hs, hrefused, hpaused, hqueues⟩ := hstep
  refine ⟨s, (Machine.Reachable.init (idle_noPool 0)).step (M := machine) ⟨1, hs⟩, hrefused,
    hpaused, ?_⟩
  rintro ⟨outDev, p, hmem, -⟩
  rw [hqueues] at hmem
  cases hmem

theorem supported_unicast (hempty : ∀ slot, s.queueAt slot = []) (hrefused : s.refused = [])
    (hmulti : a.multicast = false) (hsize : a.size < 2 ^ 32) : s.Supported (.receive port a) := by
  refine ⟨?_, fun h => ?_⟩
  · rw [Fits, kept, queued_eq_nil hempty, hrefused, copies, hmulti, if_neg Bool.false_ne_true,
      Nat.one_mul]
    exact (Nat.zero_add _).trans_lt hsize
  · rw [hmulti] at h
    cases h

/-- A packet waits at a port that is paused itself, and pauses its queue. -/
theorem paused_buffered_unicast : ∃ s : SwitchNode, s.mmu.paused (1, 3) = true ∧ s.refused = [] ∧
    s.Buffered (1, 3) := by
  have hempty : ∀ slot, ((noPool 4096).setPaused 2 3 true).queueAt slot = [] := by
    intro slot
    simp only [queueAt, setPaused, setDevice, update_apply]
    split <;> rfl
  have h₁ := (Machine.Reachable.init (idle_noPool 4096)).step (M := machine.restrict Supported)
    (show (machine.restrict Supported).step _
      (.receive 2 { ch := { l3Prot := 0xFE }, size := 31, pfc := ⟨5, 3⟩ }) _ from
      ⟨supported_unicast (fun _ => rfl) rfl rfl (by decide), 1, rfl⟩)
  have h₂ := h₁.step (show (machine.restrict Supported).step _
    (.receive 1 { ch := { dip := 5, pg := 3 }, size := 1000 }) _ from
    ⟨supported_unicast hempty rfl rfl (by decide), 2, rfl⟩)
  exact ⟨_, rfl, rfl, paused_buffered h₂ rfl rfl⟩

end SwitchNode
end Roce
