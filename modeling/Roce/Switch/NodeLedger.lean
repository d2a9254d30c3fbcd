import Roce.Switch.Accounting

/-! # The counters of a switch over its runs

Every call of a run keeps the counters in step with the packets in the queues, up to the packets
that `Enqueue` refused and the unicast packets of the priority 0. -/

namespace Roce

open Function

namespace SwitchNode

variable {s s' : SwitchNode} {pending counted : List Held}

/-- A function that keeps the counters, whatever packets are about to be enqueued. -/
def KeepsBooks (transmit : Port → SwitchNode → Option SwitchNode) : Prop :=
  ∀ {port s s' pending counted}, transmit port s = some s' → Booked s pending counted →
    Booked s' pending counted

theorem kept_setDevice {device : SwitchDevice} (h : device.queue = (s.devices port).queue) :
    (s.setDevice port device).kept = s.kept := by
  have hheld : (s.setDevice port device).heldAt = s.heldAt := by
    funext slot
    by_cases hp : slot.1 = port
    · subst hp
      simp [heldAt, queueAt, setDevice, h]
    · simp [heldAt, queueAt, setDevice, hp]
  rw [kept, kept, queued, queued, hheld]
  rfl

theorem Booked.setDevice {device : SwitchDevice} (h : Booked s pending counted)
    (hqueue : device.queue = (s.devices port).queue) :
    Booked (s.setDevice port device) pending counted := by
  have hkept := kept_setDevice hqueue
  exact h.congr ⟨rfl, rfl, rfl, rfl⟩ (.of_eq (by rw [hkept])) (.of_eq (by rw [hkept]))
    (.of_eq (by rw [hkept]; rfl))

/-- The marks of the paused queues count nothing. -/
theorem Booked.setMmu (h : Booked s pending counted) (paused : Slot → Bool) :
    Booked { s with mmu := { s.mmu with paused } } pending counted := by
  obtain ⟨⟨hledger, hegress, hlasts, hnodup, hfresh, htagged, hsmall⟩, hbytes⟩ := h
  have hledger' : Ledger { s.mmu with paused } _ :=
    ⟨hledger.charged, hledger.shared, hledger.headroom⟩
  exact ⟨⟨hledger', hegress, hlasts, hnodup, hfresh, htagged, hsmall⟩, hbytes⟩

section
variable {transmit : Port → SwitchNode → Option SwitchNode} (ht : KeepsBooks transmit)
include ht

theorem Booked.sendPfc (h : Booked s pending counted)
    (hs : sendPfc transmit port qIndex type s = some s') : Booked s' pending counted :=
  ht hs (h.alloc.silent rfl (.inl rfl)).enqueue

theorem Booked.checkAndSendPfc (h : Booked s pending counted)
    (hs : checkAndSendPfc transmit inDev qIndex s = some s') : Booked s' pending counted := by
  obtain ⟨-, t, hsend, rfl⟩ | ⟨-, rfl⟩ := checkAndSendPfc_cases hs
  · exact (h.sendPfc ht hsend).setMmu _
  · exact h

theorem Booked.checkAndSendResume (h : Booked s pending counted)
    (hs : checkAndSendResume transmit inDev qIndex s = some s') : Booked s' pending counted := by
  obtain ⟨-, t, hsend, rfl⟩ | ⟨-, rfl⟩ := checkAndSendResume_cases hs
  · exact (h.sendPfc ht hsend).setMmu _
  · exact h

/-- The counters of a packet that has left its queue are lowered. -/
theorem Booked.switchNotifyDequeue {held : Held} (h : Booked s (held :: pending) (held :: counted))
    (hq : held.qIndex ≠ 0) (hs : switchNotifyDequeue transmit held s = some s') :
    Booked s' pending counted := by
  obtain ⟨hq', -⟩ | ⟨-, inDev, t, -, hrelease, hs⟩ := switchNotifyDequeue_cases hs
  · exact absurd hq' hq
  · exact (h.release hq hrelease).checkAndSendResume ht hs

end

theorem Booked.transmitStart (h : Booked s pending counted)
    (hs : transmitStart port p s = some s') : Booked s' pending counted := by
  obtain ⟨-, rfl⟩ := transmitStart_cases hs
  exact h.setDevice rfl

theorem keepsBooks_dequeueAndTransmit (fuel : Nat) : KeepsBooks (dequeueAndTransmit fuel) := by
  induction fuel with
  | zero => exact fun hs => by cases hs
  | succ fuel ih =>
    intro port s s' pending counted hs h
    obtain rfl | ⟨held, t, u, hd, hnotify, hs⟩ := dequeueAndTransmit_cases hs
    · exact h
    · refine Booked.transmitStart ?_ hs
      by_cases hq : held.qIndex = 0
      · rw [switchNotifyDequeue, if_pos hq] at hnotify
        cases hnotify
        exact h.dequeue_zero hd hq
      · exact (h.dequeue hd hq).switchNotifyDequeue ih hq hnotify

/-! ## Admission -/

/-- The size of the packets that are charged. -/
def chargedSize (l : List Held) : Nat := tally Held.size (fun _ => True) (admitted l)

theorem chargedSize_concat (l l' : List Held) (h : Held) :
    chargedSize (l ++ (l' ++ [h])) ≤ chargedSize (l ++ l') + h.size := by
  rw [← List.append_assoc]
  unfold chargedSize
  by_cases hq : h.qIndex = 0
  · rw [tally_perm (admitted_middle_zero hq), List.append_nil]
    exact Nat.le_add_right ..
  · rw [tally_perm (admitted_middle hq), List.append_nil, tally_cons, if_pos trivial, Nat.add_comm]

/-- What a turn of the loop of `SendMultiToDevs` does. -/
theorem admitCopy_cases {st st' : SwitchNode × List Held}
    (hs : admitCopy inDev qIndex p st idx = some st') :
    ∃ port, (qIndex = 0 ∧
        st' = (st.1.alloc, st.2 ++ [⟨port, qIndex, { p with ptr := st.1.nextPtr }⟩])) ∨
      (qIndex ≠ 0 ∧ st' = (st.1.alloc, st.2)) ∨
      (qIndex ≠ 0 ∧ st.1.mmu.checkIngressAdmission (inDev, qIndex) p.size = true ∧
        st' = ((st.1.alloc.charge inDev
          ⟨port, qIndex, { p with ptr := st.1.nextPtr }⟩).countBytes inDev
          ⟨port, qIndex, { p with ptr := st.1.nextPtr }⟩,
          st.2 ++ [⟨port, qIndex, { p with ptr := st.1.nextPtr }⟩])) := by
  obtain ⟨port, -, hs⟩ := Option.bind_eq_some_iff.mp hs
  dsimp only at hs
  refine ⟨port, ?_⟩
  split at hs
  · cases hs
  · split at hs
    next hq => exact .inl ⟨hq, (Option.some.inj hs).symm⟩
    next hq =>
      split at hs
      next => exact .inr (.inl ⟨hq, (Option.some.inj hs).symm⟩)
      next hcheck =>
        exact .inr (.inr ⟨hq, by simpa using hcheck, (Option.some.inj hs).symm⟩)

theorem Booked.append_perm (h : Booked s (held :: l) (held :: l)) :
    Booked s (l ++ [held]) (l ++ [held]) := by
  have hperm : ∀ k : List Held, (k ++ held :: l).Perm (k ++ (l ++ [held])) := fun k =>
    List.Perm.append_left k (List.perm_append_singleton held l).symm
  exact h.congr ⟨rfl, rfl, rfl, rfl⟩ (admitted_perm (hperm _)) (admitted_perm (hperm _))
    (unicastZero_perm (hperm _))

/-- A copy is charged and counted, unless it is not admitted or of the priority 0. -/
theorem Booked.admitCopy {st st' : SwitchNode × List Held} (h : Booked st.1 st.2 st.2)
    (hflow : p.flowId = some inDev) (hmulti : p.multicast = true)
    (hsmall : chargedSize (st.1.kept ++ st.2) + p.size < 2 ^ 32)
    (hs : admitCopy inDev qIndex p st idx = some st') :
    Booked st'.1 st'.2 st'.2 ∧
      chargedSize (st'.1.kept ++ st'.2) ≤ chargedSize (st.1.kept ++ st.2) + p.size := by
  obtain ⟨port, ⟨hq, rfl⟩ | ⟨hq, rfl⟩ | ⟨hq, hcheck, rfl⟩⟩ := admitCopy_cases hs
  · exact ⟨(h.alloc.silent hq (.inr hmulti)).append_perm, chargedSize_concat ..⟩
  · exact ⟨h.alloc, Nat.le_add_right ..⟩
  · have hcharge : Booked (st.1.alloc.charge inDev ⟨port, qIndex, { p with ptr := st.1.nextPtr }⟩)
        (⟨port, qIndex, { p with ptr := st.1.nextPtr }⟩ :: st.2) st.2 :=
      h.charge hflow hq rfl hcheck hsmall
    exact ⟨(hcharge.countBytes hflow (.inl hq)).append_perm, chargedSize_concat ..⟩

/-- The loop of `SendMultiToDevs` over the ports. -/
theorem Booked.admitCopies {ports : List Nat} (st : SwitchNode × List Held)
    {st' : SwitchNode × List Held} (h : Booked st.1 st.2 st.2) (hflow : p.flowId = some inDev)
    (hmulti : p.multicast = true)
    (hsmall : chargedSize (st.1.kept ++ st.2) + ports.length * p.size < 2 ^ 32)
    (hs : ports.foldlM (SwitchNode.admitCopy inDev qIndex p) st = some st') :
    Booked st'.1 st'.2 st'.2 := by
  refine (foldlM_invariant (I := fun ports st => Booked st.1 st.2 st.2 ∧
    chargedSize (st.1.kept ++ st.2) + ports.length * p.size < 2 ^ 32) ?_ ⟨h, hsmall⟩ hs).1
  rintro port ports st st₁ ⟨h, hsmall⟩ hs₁
  rw [List.length_cons, Nat.succ_mul] at hsmall
  obtain ⟨h₁, hle⟩ := h.admitCopy hflow hmulti (by omega) hs₁
  exact ⟨h₁, by omega⟩

section
variable {transmit : Port → SwitchNode → Option SwitchNode} (ht : KeepsBooks transmit)
include ht

/-- `SendToDev` of a new packet. -/
theorem Booked.sendToDev (h : Booked s [] []) (hptr : p.ptr = s.nextPtr)
    (hmulti : p.multicast = false) (hsmall : chargedSize s.kept + p.size < 2 ^ 32)
    (hs : sendToDev transmit ch junk p s.alloc = some s') : Booked s' [] [] := by
  obtain rfl | ⟨port, qIndex, inDev, -, hflow, ⟨hq, hs⟩ | ⟨hq, hadmit, t, hpfc, hs⟩⟩ :=
    sendToDev_cases hs
  · exact h.alloc
  · exact ht hs ((h.alloc.countBytes hflow (.inr hmulti)).pending_zero hq).enqueue
  · have hcharge : Booked (s.alloc.charge inDev ⟨port, qIndex, p⟩) [⟨port, qIndex, p⟩] [] :=
      h.charge hflow hq hptr hadmit (by rwa [List.append_nil])
    exact ht hs ((hcharge.checkAndSendPfc ht hpfc).countBytes hflow (.inl hq)).enqueue

/-- The copies are enqueued. -/
theorem Booked.sendAll (h : Booked s tosend tosend)
    (hs : tosend.foldlM (fun s h => switchSend transmit h.port h.qIndex h.packet s) s = some s') :
    Booked s' [] [] :=
  foldlM_invariant (I := fun tosend s => Booked s tosend tosend) (fun h hs => ht hs h.enqueue) h hs

theorem Booked.sendMultiToDevs {port : Port} (h : Booked s [] []) (hflow : p.flowId = some port)
    (hmulti : p.multicast = true)
    (hsmall : ∀ group, s.ogroups ch.dip = some group → chargedSize s.kept +
      (multiPorts group s.uplink ch junk s.ecmpSeed port).length * p.size < 2 ^ 32)
    (hs : sendMultiToDevs transmit ch junk p port s = some s') : Booked s' [] [] := by
  obtain rfl | ⟨group, qIndex, inDev, t, tosend, u, hgroup, -, hin, hadmit, hpfc, hs⟩ :=
    sendMultiToDevs_cases hs
  · exact h
  · cases hflow.symm.trans hin
    have hbooked : Booked t tosend tosend := Booked.admitCopies (s, []) h hflow hmulti
      (by rw [List.append_nil]; exact hsmall group hgroup) hadmit
    refine Booked.sendAll ht ?_ hs
    obtain ⟨-, rfl⟩ | ⟨-, hpfc⟩ := hpfc
    · exact hbooked
    · exact hbooked.checkAndSendPfc ht hpfc

end

/-! ## Runs -/

/-- The number of the packets that are made of what arrives. -/
def copies (s : SwitchNode) (port : Port) (a : Arrival) : Nat :=
  if a.multicast then
    (s.ogroups a.ch.dip).elim 0 fun group =>
      (multiPorts group s.uplink a.ch a.junk s.ecmpSeed port).length
  else 1

/-- What is admitted of a packet does not make the charged packets exceed 4 GiB. -/
def Fits (s : SwitchNode) : SwitchEvent → Prop
  | .receive port a => chargedSize s.kept + s.copies port a * a.size < 2 ^ 32
  | .transmitComplete _ => True

instance (s : SwitchNode) : (e : SwitchEvent) → Decidable (s.Fits e)
  | .receive .. => Nat.decLt ..
  | .transmitComplete _ => .isTrue trivial

section
variable {transmit : Port → SwitchNode → Option SwitchNode} (ht : KeepsBooks transmit)
include ht

theorem Booked.receive (h : Booked s [] []) (hfits : s.Fits (.receive port a))
    (hs : receive transmit port a s = some s') : Booked s' [] [] := by
  obtain rfl | rfl | hs | ⟨hmulti, hs⟩ | ⟨hmulti, hs⟩ := receive_cases hs
  · exact h
  · exact h.setDevice rfl
  · exact ht hs (h.setDevice rfl)
  · rw [Fits, copies, if_pos hmulti] at hfits
    refine Booked.sendMultiToDevs ht h.alloc rfl hmulti (fun group hgroup => ?_) hs
    have hgroup : s.ogroups a.ch.dip = some group := hgroup
    rwa [hgroup] at hfits
  · rw [Fits, copies, hmulti, if_neg Bool.false_ne_true, Nat.one_mul] at hfits
    exact h.sendToDev ht rfl hmulti hfits hs

theorem Booked.onEvent (h : Booked s [] []) (hfits : s.Fits e)
    (hs : onEvent transmit e s = some s') :
    Booked s' [] [] := by
  cases e with
  | receive port a => exact h.receive ht hfits hs
  | transmitComplete port => exact ht (transmitComplete_eq hs) (h.setDevice rfl)

end

theorem queued_eq_nil (h : ∀ slot, s.queueAt slot = []) : s.queued = [] :=
  List.flatMap_eq_nil_iff.mpr fun slot _ => by rw [heldAt, h, List.map_nil]

theorem Idle.booked (h : Idle s) : Booked s [] [] := by
  obtain ⟨cfg, hmmu⟩ := h.mmu
  have hqueued : s.queued = [] := queued_eq_nil fun slot => h.queues slot.1 slot.2
  have hkept : s.kept = [] := by rw [kept, hqueued, h.refused, List.append_nil]
  have hledger := Ledger.init cfg
  rw [← hmmu] at hledger
  constructor
  case charged =>
    rw [hkept]
    refine ⟨hledger, fun slot => ?_, fun ptr => ?_, List.nodup_nil, ?_, ?_, by decide⟩
    · rw [hmmu]
      rfl
    · rw [h.egressLasts]
      rfl
    · exact fun _ hh => absurd hh List.not_mem_nil
    · exact fun _ hh => absurd hh List.not_mem_nil
  case bytes =>
    intro i o q
    rw [h.bytes, hkept, h.dequeued]
    rfl

/-- In every run the counters agree with the packets in the queues and those that were refused. -/
theorem booked_of_reachable (h : (machine.restrict Fits).Reachable s) : Booked s [] [] := by
  refine h.invariant (I := fun s => Booked s [] []) (fun hidle => Idle.booked hidle) ?_
  rintro s e s' - hb ⟨hfits, fuel, hs⟩
  exact hb.onEvent (keepsBooks_dequeueAndTransmit fuel) hfits hs

/-! ## The ledger of the queues -/

/-- The size of the packets that entered by a port. -/
def enteredBy (inDev : Port) (packets : List SwitchPacket) : Nat :=
  tally (·.size) (·.flowId = some inDev) packets

/-- The counters of the switch agree with its queues. -/
structure Balanced (s : SwitchNode) : Prop where
  egress : ∀ o q, q ≠ 0 → s.mmu.egressBytes (o, q) = ((s.queueAt (o, q)).map (·.size)).sum
  ingress : ∀ i q, q ≠ 0 → s.mmu.ingressBytes (i, q) + s.mmu.hdrmBytes (i, q) =
    ∑ o, enteredBy i (s.queueAt (o, q))
  bytes : ∀ i o q, s.bytes (i, o, q) = enteredBy i (s.queueAt (o, q))
  lasts : ∀ ptr, (s.egressLasts ptr).isSome ↔ ptr ∈ (admitted s.queued).map (·.packet.ptr)
  distinct : ((admitted s.queued).map (·.packet.ptr)).Nodup

/-- The bytes of unicast packets that were sent from a port to another on the priority 0. -/
def unicastBytes (s : SwitchNode) (inDev outDev : Port) : Nat :=
  tally Held.size (Held.Via inDev outDev 0) (unicastZero (s.kept ++ s.dequeued))

/-- The packets of a queue among all. -/
theorem tally_queued (s : SwitchNode) (slot : Slot) (p : SwitchPacket → Prop) [DecidablePred p] :
    tally Held.size (fun h => h.slot = slot ∧ p h.packet) s.queued =
      tally (·.size) p (s.queueAt slot) := by
  have hother : ∀ slot' ∈ slots, slot' ≠ slot →
      (s.heldAt slot').filter (fun h => h.slot = slot ∧ p h.packet) = [] := by
    intro slot' _ hne
    refine List.filter_eq_nil_iff.mpr fun h hh => ?_
    obtain ⟨packet, -, rfl⟩ := List.mem_map.mp hh
    simp [Held.slot, hne]
  have hself : tally Held.size (fun h => h.slot = slot ∧ p h.packet) (s.heldAt slot) =
      tally (·.size) p (s.queueAt slot) := by
    rw [heldAt, tally_map]
    exact tally_congr fun packet _ => and_iff_right rfl
  rw [← hself, tally, queued, List.filter_flatMap,
    flatMap_eq_of_unique nodup_slots (fun hnot => absurd (mem_slots slot) hnot) hother]
  rfl

/-- The counters of the priorities other than 0 follow the queues, if nothing was refused. -/
theorem Charged.balanced (h : Charged s (admitted s.queued)) (hq : q ≠ 0) :
    s.mmu.egressBytes (o, q) = ((s.queueAt (o, q)).map (·.size)).sum ∧
    s.mmu.ingressBytes (i, q) + s.mmu.hdrmBytes (i, q) = ∑ o, enteredBy i (s.queueAt (o, q)) := by
  constructor
  · have hle : tally Held.size (·.slot = (o, q)) (admitted s.queued) < 2 ^ 32 :=
      Nat.lt_of_le_of_lt (tally_mono fun _ _ _ => trivial) h.small
    rw [h.egress, u32_of_lt hle, ← tally_true, ← tally_queued, admitted]
    refine (tally_filter fun held _ hslot => ?_).trans
      (tally_congr fun _ _ => (and_iff_left trivial).symm)
    exact (Prod.mk.inj hslot).2.symm ▸ hq
  · have hkey : ∀ held ∈ admitted s.queued,
        held.charge.1 = (i, q) ↔ held.packet.flowId = some i ∧ held.qIndex = q := by
      intro held hmem
      obtain ⟨inDev, hflow⟩ := Option.isSome_iff_exists.mp (h.tagged held hmem)
      rw [charge_eq hflow, hflow, Prod.mk.injEq, Option.some_inj]
    have hport : ∀ o, enteredBy i (s.queueAt (o, q)) = tally Held.size
        (fun held => (held.packet.flowId = some i ∧ held.qIndex = q) ∧ held.port = o) s.queued := by
      intro o
      rw [enteredBy, ← tally_queued]
      refine tally_congr fun held _ => ?_
      rw [Held.slot, Prod.mk.injEq]
      exact ⟨fun ⟨⟨ho, hq⟩, hi⟩ => ⟨⟨hi, hq⟩, ho⟩, fun ⟨⟨hi, hq⟩, ho⟩ => ⟨⟨ho, hq⟩, hi⟩⟩
    simp only [hport, sum_tally_and]
    rw [h.ledger.charged, bytesAt, tally_map]
    refine (tally_congr hkey).trans (tally_filter fun held _ hk => ?_)
    exact hk.2.symm ▸ hq

theorem tally_via (s : SwitchNode) (i o : Port) (q : Priority) :
    tally Held.size (Held.Via i o q) s.queued = enteredBy i (s.queueAt (o, q)) := by
  rw [enteredBy, ← tally_queued]
  refine tally_congr fun held _ => ?_
  rw [Held.Via, Held.slot, Prod.mk.injEq, and_comm]

theorem Booked.bytes_eq (h : Booked s [] []) (hrefused : admitted s.refused = []) (hq : q ≠ 0) :
    s.bytes (i, o, q) = enteredBy i (s.queueAt (o, q)) := by
  have hzero : tally Held.size (Held.Via i o q) (unicastZero (s.kept ++ s.dequeued)) = 0 := by
    refine tally_eq_zero fun held hmem hvia => hq ?_
    exact hvia.2.2.symm.trans (of_decide_eq_true (List.mem_filter.mp hmem).2).1
  have hsmall := h.charged.small
  rw [List.append_nil, kept, admitted_append, hrefused, List.append_nil] at hsmall
  have hle : tally Held.size (Held.Via i o q) (admitted s.queued) < 2 ^ 32 :=
    Nat.lt_of_le_of_lt (tally_mono fun _ _ _ => trivial) hsmall
  rw [h.bytes, List.append_nil, List.append_nil, tally_append, hzero, Nat.add_zero, kept,
    admitted_append, hrefused, List.append_nil, u32_of_lt hle, ← tally_via]
  exact tally_filter fun held _ hvia => hvia.2.2.symm ▸ hq

theorem Booked.bytes_zero (h : Booked s [] []) : s.bytes (i, o, 0) = u32 (s.unicastBytes i o) := by
  have hadm : tally Held.size (Held.Via i o 0) (admitted s.kept) = 0 := by
    refine tally_eq_zero fun held hmem hvia => ?_
    exact of_decide_eq_true (List.mem_filter.mp hmem).2 hvia.2.2
  rw [h.bytes, List.append_nil, List.append_nil, tally_append, hadm, Nat.zero_add]
  rfl

/-- A packet that was refused has an entry that no queued packet has. -/
theorem Booked.refused_zero (h : Booked s [] []) (hb : Balanced s) :
    ∀ held ∈ s.refused, held.qIndex = 0 := by
  intro held hmem
  by_contra hq
  have hadm : held ∈ admitted s.refused := List.mem_filter.mpr ⟨hmem, decide_eq_true hq⟩
  have hnodup := h.charged.nodup
  have hlast := h.charged.lasts held.packet.ptr
  rw [List.append_nil, kept, admitted_append, List.map_append] at hnodup hlast
  rw [if_pos (List.mem_append_right _ (List.mem_map_of_mem hadm))] at hlast
  have hin := (hb.lasts held.packet.ptr).mp (by rw [hlast, Option.isSome_some])
  exact (List.disjoint_of_nodup_append hnodup) hin (List.mem_map_of_mem hadm)

/-- **The buffer ledger follows the queues**, as long as no packet that was admitted is refused by
its queue, and the bytes of unicast packets that were sent on the priority 0 are those that still
wait there. -/
theorem switch_ledger (h : (machine.restrict Fits).Reachable s) :
    Balanced s ↔ (∀ held ∈ s.refused, held.qIndex = 0) ∧
      ∀ i o, u32 (s.unicastBytes i o) = enteredBy i (s.queueAt (o, 0)) := by
  have hbooked := booked_of_reachable h
  refine ⟨fun hb => ⟨hbooked.refused_zero hb, fun i o => ?_⟩, fun ⟨hrefused, hzero⟩ => ?_⟩
  · rw [← hbooked.bytes_zero, hb.bytes]
  · have hnone : admitted s.refused = [] :=
      List.filter_eq_nil_iff.mpr fun held hmem => by simpa using hrefused held hmem
    have hcharged := hbooked.charged
    rw [List.append_nil, kept, admitted_append, hnone, List.append_nil] at hcharged
    constructor
    case egress => exact fun o q hq => (hcharged.balanced hq (i := 0)).1
    case ingress => exact fun i q hq => (hcharged.balanced hq (o := 0)).2
    case bytes =>
      intro i o q
      by_cases hq : q = 0
      · rw [hq, hbooked.bytes_zero, hzero]
      · exact hbooked.bytes_eq hnone hq
    case lasts =>
      intro ptr
      rw [hcharged.lasts]
      split
      next hmem => simp [hmem]
      next hmem => simp [hmem]
    case distinct => exact hcharged.nodup

/-- A switch with one route. -/
def oneRoute : SwitchNode where
  mmu := { toMmuConfig := {} }
  rtTable := fun dip => if dip = 5 then some [2] else none

theorem idle_oneRoute : Idle oneRoute :=
  ⟨⟨{}, rfl⟩, fun _ _ => rfl, fun _ => rfl, fun _ _ => rfl, fun _ => rfl, rfl, rfl, rfl, rfl⟩

/-- A unicast packet of the priority 0 leaves at once, and its bytes stay in `m_bytes`. -/
theorem not_balanced_unicast : ∃ s, machine.Reachable s ∧ s.queueAt (2, 0) = [] ∧
    s.bytes (1, 2, 0) = 60 ∧ ¬Balanced s := by
  have h := (Machine.Reachable.init idle_oneRoute).step (M := machine)
    (e := .receive 1 { ch := { dip := 5 }, size := 60 }) ⟨1, rfl⟩
  refine ⟨_, h, rfl, rfl, fun hb => ?_⟩
  have hbytes := hb.bytes 1 2 0
  exact absurd hbytes (by decide)

/-- A packet of another priority has left, and its counters are lowered. -/
theorem balanced_oneRoute : ∃ s, (machine.restrict Fits).Reachable s ∧ s.dequeued.length = 1 ∧
    Balanced s := by
  have hfits : oneRoute.Fits (.receive 1 { ch := { dip := 5, pg := 3 }, size := 1000 }) := by
    have hkept : oneRoute.kept = [] := by
      rw [kept, queued_eq_nil fun _ => rfl]
      rfl
    rw [Fits, hkept]
    decide
  have hstep : ∃ s', onEvent (dequeueAndTransmit 1)
      (.receive 1 { ch := { dip := 5, pg := 3 }, size := 1000 }) oneRoute = some s' ∧
      s'.refused = [] ∧ s'.dequeued.length = 1 ∧ (unicastZero s'.dequeued) = [] ∧
      ∀ slot, s'.queueAt slot = [] := by
    refine ⟨_, rfl, rfl, rfl, rfl, fun slot => ?_⟩
    obtain ⟨port, q⟩ := slot
    by_cases hp : port = 2
    · subst hp
      revert q
      decide
    · have hother : ∀ d₁ d₂ d₃ : SwitchDevice,
          (update (update (update oneRoute.devices 2 d₁) 2 d₂) 2 d₃ port).queue.queues q = [] := by
        intro d₁ d₂ d₃
        rw [update_of_ne hp, update_of_ne hp, update_of_ne hp]
        rfl
      exact hother _ _ _
  obtain ⟨s, hs, hrefused, hlength, hzero, hqueues⟩ := hstep
  have h := (Machine.Reachable.init idle_oneRoute).step (M := machine.restrict Fits) ⟨hfits, 1, hs⟩
  refine ⟨s, h, hlength, (switch_ledger h).mpr ⟨?_, fun i o => ?_⟩⟩
  · exact fun held hmem => absurd (hrefused ▸ hmem) List.not_mem_nil
  · rw [unicastBytes, kept, queued_eq_nil hqueues, hrefused, unicastZero_append, hzero, hqueues]
    rfl

end SwitchNode

end Roce
