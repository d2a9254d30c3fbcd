import Roce.Switch.PfcFrames

/-! # A switch keeps the order of the packets

The packets that a queue of a port accepts are a lane: first those that have left, then those that
wait. A packet joins a lane at its end, so that none overtakes another one of the same lane. PFC
frames are not counted: they come from the switch itself. -/

namespace Roce

open Function

namespace SwitchNode

variable {s s' t : SwitchNode} {new new' : Slot → List SwitchPacket}

/-- The packets that a queue of a port accepted, in this order. -/
def lane (s : SwitchNode) (slot : Slot) : List SwitchPacket :=
  ((s.dequeued.filter (·.slot = slot)).map (·.packet) ++ s.queueAt slot).filter (·.pfc.isNone)

/-- The ports that `SendToDev` or `SendMultiToDevs` picks. -/
def outPorts (s : SwitchNode) (ch : CustomHeader) (junk : UInt32) (multicast : Bool)
    (inIface : Port) : List Nat :=
  if multicast then multiPorts ((s.ogroups ch.dip).getD []) s.uplink ch junk s.ecmpSeed inIface
  else (s.outDev ch junk).toList

/-- The lanes that the copies of a packet join, unless they are refused. -/
def targets (s : SwitchNode) (ch : CustomHeader) (junk : UInt32) (multicast : Bool)
    (inIface : Port) :
    List Slot :=
  (s.qIndexOf ch).elim [] fun qIndex =>
    ((s.outPorts ch junk multicast inIface).filterMap toPort).map (·, qIndex)

theorem toPort_inj (hi : toPort i = some port) (hj : toPort j = some port) : i = j := by
  obtain ⟨_, hi⟩ := Option.dite_none_right_eq_some.mp hi
  obtain ⟨_, hj⟩ := Option.dite_none_right_eq_some.mp hj
  exact congrArg Fin.val (Option.some.inj (hi.trans hj.symm))

theorem mem_targets : slot ∈ s.targets ch junk multicast inIface ↔
    ∃ port ∈ s.outPorts ch junk multicast inIface, toPort port = some slot.1 ∧
      s.qIndexOf ch = some slot.2 := by
  obtain ⟨port, qIndex⟩ := slot
  unfold targets
  cases s.qIndexOf ch with
  | none => simp
  | some q =>
    simp only [Option.elim_some, List.mem_map, List.mem_filterMap, Option.some.injEq, Prod.mk.injEq]
    constructor
    · rintro ⟨_, ⟨i, hi, hport⟩, rfl, rfl⟩
      exact ⟨i, hi, hport, rfl⟩
    · rintro ⟨i, hi, hport, rfl⟩
      exact ⟨port, ⟨i, hi, hport⟩, rfl, rfl⟩

/-- All copies of a packet join queues of one priority. -/
theorem targets_queue (s : SwitchNode) (ch : CustomHeader) (junk : UInt32) (multicast : Bool) :
    ∃ qIndex, ∀ inIface, ∀ slot ∈ s.targets ch junk multicast inIface, slot.2 = qIndex := by
  refine ⟨(s.qIndexOf ch).getD 0, fun inIface slot hslot => ?_⟩
  obtain ⟨-, -, -, hq⟩ := mem_targets.mp hslot
  rw [hq, Option.getD_some]

theorem nodup_targets (h : multicast = true → ((s.ogroups ch.dip).getD []).Nodup) (junk : UInt32)
    (inIface : Port) : (s.targets ch junk multicast inIface).Nodup := by
  unfold targets
  cases s.qIndexOf ch with
  | none => exact .nil
  | some qIndex =>
    refine List.Nodup.map (fun _ _ heq => congrArg Prod.fst heq) ?_
    refine List.Nodup.filterMap (fun i j port hi hj => toPort_inj hi hj) ?_
    unfold outPorts
    split
    next hmulti => exact (h hmulti).filter _
    next =>
      cases s.outDev ch junk with
      | none => exact .nil
      | some port => exact List.nodup_singleton _

/-- The tables of a switch do not change while it runs. -/
structure SameTables (s s' : SwitchNode) : Prop where
  rtTable : s'.rtTable = s.rtTable
  ogroups : s'.ogroups = s.ogroups
  uplink : s'.uplink = s.uplink
  ecmpSeed : s'.ecmpSeed = s.ecmpSeed
  ackHighPrio : s'.ackHighPrio = s.ackHighPrio

theorem SameTables.refl (s : SwitchNode) : SameTables s s := ⟨rfl, rfl, rfl, rfl, rfl⟩

theorem SameTables.trans (h : SameTables s t) (h' : SameTables t s') : SameTables s s' :=
  ⟨h'.rtTable.trans h.rtTable, h'.ogroups.trans h.ogroups, h'.uplink.trans h.uplink,
    h'.ecmpSeed.trans h.ecmpSeed, h'.ackHighPrio.trans h.ackHighPrio⟩

theorem SameTables.targets (h : SameTables s s') (ch : CustomHeader) (junk : UInt32)
    (multicast : Bool) (inIface : Port) :
    s'.targets ch junk multicast inIface = s.targets ch junk multicast inIface := by
  unfold SwitchNode.targets outPorts outDev qIndexOf
  rw [h.rtTable, h.ogroups, h.uplink, h.ecmpSeed, h.ackHighPrio]

/-- The packets of `new` join the lanes. -/
structure Joins (s s' : SwitchNode) (new : Slot → List SwitchPacket) : Prop where
  lane : ∀ slot, s'.lane slot = s.lane slot ++ new slot
  tables : SameTables s s'
  nextPtr : s.nextPtr ≤ s'.nextPtr

/-- No packet joins a lane. -/
abbrev SameLanes (s s' : SwitchNode) : Prop := Joins s s' fun _ => []

theorem SameLanes.refl (s : SwitchNode) : SameLanes s s :=
  ⟨fun _ => (List.append_nil _).symm, .refl s, Nat.le_refl _⟩

theorem Joins.trans (h : Joins s t new) (h' : Joins t s' new') :
    Joins s s' fun slot => new slot ++ new' slot :=
  ⟨fun slot => by rw [h'.lane, h.lane, List.append_assoc], h.tables.trans h'.tables,
    Nat.le_trans h.nextPtr h'.nextPtr⟩

theorem SameLanes.trans (h : SameLanes s t) (h' : Joins t s' new) : Joins s s' new := by
  simpa using Joins.trans h h'

theorem Joins.same (h : Joins s t new) (h' : SameLanes t s') : Joins s s' new := by
  simpa using Joins.trans h h'

/-- Nothing but counters and flags changes. -/
theorem SameLanes.of_queues (hdequeued : s'.dequeued = s.dequeued)
    (hqueue : ∀ port, (s'.devices port).queue = (s.devices port).queue) (htables : SameTables s s')
    (hptr : s.nextPtr ≤ s'.nextPtr) : SameLanes s s' := by
  refine ⟨fun slot => ?_, htables, hptr⟩
  have hat : s'.queueAt slot = s.queueAt slot := by rw [queueAt, hqueue]; rfl
  rw [SwitchNode.lane, SwitchNode.lane, hdequeued, hat, List.append_nil]

theorem SameLanes.setDevice {device : SwitchDevice}
    (hqueue : device.queue = (s.devices port).queue) :
    SameLanes s (s.setDevice port device) := by
  refine SameLanes.of_queues rfl (fun e => ?_) ⟨rfl, rfl, rfl, rfl, rfl⟩ (Nat.le_refl _)
  by_cases he : e = port
  · subst he
    simpa [SwitchNode.setDevice] using hqueue
  · simp [SwitchNode.setDevice, update_of_ne he]

theorem SameLanes.alloc (s : SwitchNode) : SameLanes s s.alloc :=
  SameLanes.of_queues rfl (fun _ => rfl) ⟨rfl, rfl, rfl, rfl, rfl⟩ (Nat.le_succ _)

theorem SameLanes.charge : SameLanes s (s.charge inDev held) :=
  SameLanes.of_queues rfl (fun _ => rfl) ⟨rfl, rfl, rfl, rfl, rfl⟩ (Nat.le_refl _)

theorem SameLanes.countBytes : SameLanes s (s.countBytes inDev held) :=
  SameLanes.of_queues rfl (fun _ => rfl) ⟨rfl, rfl, rfl, rfl, rfl⟩ (Nat.le_refl _)

theorem SameLanes.setMmu (s : SwitchNode) (mmu : SwitchMmu) : SameLanes s { s with mmu } :=
  SameLanes.of_queues rfl (fun _ => rfl) ⟨rfl, rfl, rfl, rfl, rfl⟩ (Nat.le_refl _)

theorem SameLanes.release (h : s.release held = some s') : SameLanes s s' := by
  obtain ⟨inDev, x, mmu, -, -, -, rfl⟩ := release_spec h
  exact SameLanes.of_queues rfl (fun _ => rfl) ⟨rfl, rfl, rfl, rfl, rfl⟩ (Nat.le_refl _)

theorem tables_enqueue (s : SwitchNode) : SameTables s (s.enqueue port qIndex p) := by
  unfold SwitchNode.enqueue
  split <;> exact ⟨rfl, rfl, rfl, rfl, rfl⟩

theorem nextPtr_enqueue : (s.enqueue port qIndex p).nextPtr = s.nextPtr :=
  (enqueue_perm port qIndex p s).2.2.nextPtr

/-- A packet joins its lane, unless it is refused. -/
theorem lane_enqueue (port : Port) (qIndex : Priority) (p : SwitchPacket) (s : SwitchNode) :
    ((s.enqueue port qIndex p).refused = s.refused ∧ Joins s (s.enqueue port qIndex p) fun slot =>
        if slot = (port, qIndex) then [p].filter (·.pfc.isNone) else []) ∨
      (s.enqueue port qIndex p).refused = s.refused ++ [⟨port, qIndex, p⟩] ∧
        SameLanes s (s.enqueue port qIndex p) := by
  obtain ⟨hqueue, hrefused⟩ | ⟨hqueue, hrefused⟩ := queueAt_enqueue port qIndex p s
  · refine .inl ⟨hrefused, fun slot => ?_, tables_enqueue s, Nat.le_of_eq nextPtr_enqueue.symm⟩
    rw [SwitchNode.lane, SwitchNode.lane, dequeued_enqueue, hqueue]
    by_cases hslot : slot = (port, qIndex)
    · subst hslot
      rw [update_self, if_pos rfl, ← List.append_assoc, List.filter_append]
    · rw [update_of_ne hslot, if_neg hslot, List.append_nil]
  · refine .inr ⟨hrefused, fun slot => ?_, tables_enqueue s, Nat.le_of_eq nextPtr_enqueue.symm⟩
    rw [SwitchNode.lane, SwitchNode.lane, dequeued_enqueue, hqueue, List.append_nil]

/-- A PFC frame joins no lane. -/
theorem SameLanes.enqueuePfc (hp : p.pfc.isNone = false) :
    SameLanes s (s.enqueue port qIndex p) := by
  obtain ⟨-, h⟩ | ⟨-, h⟩ := lane_enqueue port qIndex p s
  · have hnil : [p].filter (·.pfc.isNone) = [] := by simp [hp]
    simpa [hnil] using h
  · exact h

theorem Joins.enqueue (s : SwitchNode) : ∃ l, l.Sublist [p] ∧
    Joins s (s.enqueue port qIndex p) fun slot => if slot = (port, qIndex) then l else [] := by
  obtain ⟨-, h⟩ | ⟨-, h⟩ := lane_enqueue port qIndex p s
  · exact ⟨_, List.filter_sublist, h⟩
  · exact ⟨[], List.nil_sublist _, by simpa using h⟩

/-- A packet that leaves its queue stays in its lane. -/
theorem SameLanes.dequeue (h : s.dequeue port = some (held, s')) : SameLanes s s' := by
  obtain ⟨-, -, hdequeued, hsame⟩ := dequeue_perm h
  obtain ⟨hport, tail, hfirst, hrest⟩ := queueAt_dequeue h
  refine ⟨fun slot => ?_, ?_, Nat.le_of_eq hsame.nextPtr.symm⟩
  · rw [SwitchNode.lane, SwitchNode.lane, hdequeued, hrest, List.append_nil]
    by_cases hslot : slot = (port, held.qIndex)
    · subst hslot
      have hheld : held.slot = (port, held.qIndex) := by rw [Held.slot, hport]
      rw [update_self, hfirst]
      simp [hheld]
    · have hheld : held.slot ≠ slot := fun heq => hslot (by rw [← heq, Held.slot, hport])
      rw [update_of_ne hslot]
      simp [hheld]
  · obtain ⟨⟨p, queue⟩, -, h⟩ := Option.bind_eq_some_iff.mp h
    cases h
    exact ⟨rfl, rfl, rfl, rfl, rfl⟩

/-! ## The calls -/

/-- A function that lets no packet join a lane. -/
def KeepsLanes (transmit : Port → SwitchNode → Option SwitchNode) : Prop :=
  ∀ {port s s'}, transmit port s = some s' → SameLanes s s'

section
variable {transmit : Port → SwitchNode → Option SwitchNode} (ht : KeepsLanes transmit)
include ht

theorem SameLanes.sendPfc (hs : sendPfc transmit port qIndex type s = some s') : SameLanes s s' :=
  (SameLanes.alloc s).trans ((SameLanes.enqueuePfc rfl).trans (ht hs))

theorem SameLanes.checkAndSendPfc (hs : checkAndSendPfc transmit inDev qIndex s = some s') :
    SameLanes s s' := by
  obtain ⟨-, t, hsend, rfl⟩ | ⟨-, rfl⟩ := checkAndSendPfc_cases hs
  · exact (SameLanes.sendPfc ht hsend).trans (SameLanes.setMmu _ _)
  · exact SameLanes.refl _

theorem SameLanes.checkAndSendResume (hs : checkAndSendResume transmit inDev qIndex s = some s') :
    SameLanes s s' := by
  obtain ⟨-, t, hsend, rfl⟩ | ⟨-, rfl⟩ := checkAndSendResume_cases hs
  · exact (SameLanes.sendPfc ht hsend).trans (SameLanes.setMmu _ _)
  · exact SameLanes.refl _

theorem SameLanes.switchNotifyDequeue (hs : switchNotifyDequeue transmit held s = some s') :
    SameLanes s s' := by
  obtain ⟨-, rfl⟩ | ⟨-, inDev, t, -, hrelease, hs⟩ := switchNotifyDequeue_cases hs
  · exact SameLanes.refl _
  · exact (SameLanes.release hrelease).trans (SameLanes.checkAndSendResume ht hs)

theorem Joins.switchSend (hs : switchSend transmit port qIndex p s = some s') :
    ∃ l, l.Sublist [p] ∧ Joins s s' fun slot => if slot = (port, qIndex) then l else [] := by
  obtain ⟨l, hl, h⟩ := Joins.enqueue s
  exact ⟨l, hl, h.same (ht hs)⟩

end

theorem SameLanes.transmitStart (hs : transmitStart port p s = some s') : SameLanes s s' := by
  obtain ⟨-, rfl⟩ := transmitStart_cases hs
  exact SameLanes.setDevice rfl

theorem keepsLanes_dequeueAndTransmit (fuel : Nat) : KeepsLanes (dequeueAndTransmit fuel) := by
  induction fuel with
  | zero => exact fun hs => by cases hs
  | succ fuel ih =>
    intro port s s' hs
    obtain rfl | ⟨held, t, u, hd, hnotify, hs⟩ := dequeueAndTransmit_cases hs
    · exact SameLanes.refl _
    · refine (SameLanes.dequeue hd).trans ?_
      exact (SameLanes.switchNotifyDequeue ih hnotify).trans (SameLanes.transmitStart hs)

/-! ## What arrives -/

/-- New packets join the lanes, in the order of their pointers. -/
structure Enters (s s' : SwitchNode) (new : Slot → List SwitchPacket) : Prop extends
    Joins s s' new where
  sorted : ∀ slot, (new slot).Pairwise (·.ptr < ·.ptr)
  fresh : ∀ slot, ∀ p ∈ new slot, s.nextPtr ≤ p.ptr ∧ p.ptr < s'.nextPtr

theorem SameLanes.enters (h : SameLanes s s') : Enters s s' fun _ => [] :=
  ⟨h, fun _ => .nil, fun _ _ hp => absurd hp List.not_mem_nil⟩

/-- The turns of the loop of `SendMultiToDevs` make copies that are new. -/
theorem admitCopies_fresh {ports : List Nat} {st : SwitchNode × List Held}
    (hs : ports.foldlM (admitCopy inDev qIndex p) (s, []) = some st) :
    SameLanes s st.1 ∧ st.2.Pairwise (·.packet.ptr < ·.packet.ptr) ∧
      ∀ h ∈ st.2, s.nextPtr ≤ h.packet.ptr ∧ h.packet.ptr < st.1.nextPtr ∧
        h.packet.flowId = p.flowId := by
  refine foldlM_invariant (I := fun _ (st : SwitchNode × List Held) => SameLanes s st.1 ∧
    st.2.Pairwise (·.packet.ptr < ·.packet.ptr) ∧
    ∀ h ∈ st.2, s.nextPtr ≤ h.packet.ptr ∧ h.packet.ptr < st.1.nextPtr ∧
      h.packet.flowId = p.flowId) ?_
    ⟨SameLanes.refl s, .nil, fun _ h => absurd h List.not_mem_nil⟩ hs
  rintro idx - st st' ⟨hsame, hsorted, hfresh⟩ hs
  have hold : ∀ h ∈ st.2, s.nextPtr ≤ h.packet.ptr ∧ h.packet.ptr < st.1.nextPtr + 1 ∧
      h.packet.flowId = p.flowId :=
    fun h hmem => ⟨(hfresh h hmem).1, Nat.lt_succ_of_lt (hfresh h hmem).2.1, (hfresh h hmem).2.2⟩
  have hnew : ∀ port,
      (st.2 ++ [⟨port, qIndex, { p with ptr := st.1.nextPtr }⟩] : List Held).Pairwise
        (·.packet.ptr < ·.packet.ptr) ∧
      ∀ h ∈ st.2 ++ [⟨port, qIndex, { p with ptr := st.1.nextPtr }⟩],
        s.nextPtr ≤ h.packet.ptr ∧ h.packet.ptr < st.1.nextPtr + 1 ∧
          h.packet.flowId = p.flowId := by
    refine fun port => ⟨List.pairwise_append.mpr ⟨hsorted, List.pairwise_singleton .., ?_⟩, ?_⟩
    · intro h hmem h' hmem'
      rw [List.mem_singleton.mp hmem']
      exact (hfresh h hmem).2.1
    · intro h hmem
      rcases List.mem_append.mp hmem with hmem | hmem
      · exact hold h hmem
      · rw [List.mem_singleton.mp hmem]
        exact ⟨hsame.nextPtr, Nat.lt_succ_self _, rfl⟩
  have halloc := hsame.trans (SameLanes.alloc st.1)
  obtain ⟨port, ⟨-, rfl⟩ | ⟨-, rfl⟩ | ⟨-, -, rfl⟩⟩ := admitCopy_cases hs
  · exact ⟨by simpa using halloc, hnew port⟩
  · exact ⟨by simpa using halloc, hsorted, hold⟩
  · refine ⟨?_, hnew port⟩
    simpa using halloc.trans (SameLanes.charge.trans SameLanes.countBytes)

/-- The copies that are kept have the slots of the ports, in their order. -/
theorem admitCopies_slots {ports : List Nat} {st : SwitchNode × List Held}
    (hs : ports.foldlM (admitCopy inDev qIndex p) (s, []) = some st) :
    (st.2.map Held.slot).Sublist ((ports.filterMap toPort).map (·, qIndex)) := by
  have hloop := foldlM_invariant (I := fun l (st : SwitchNode × List Held) =>
    ∃ done, ports = done ++ l ∧
      (st.2.map Held.slot).Sublist ((done.filterMap toPort).map (·, qIndex))) ?_ ?_ hs
  · obtain ⟨done, hdone, hsub⟩ := hloop
    rwa [hdone, List.append_nil]
  · rintro idx l st st' ⟨done, hdone, hsub⟩ hs
    refine ⟨done ++ [idx], by rw [hdone, List.append_assoc]; rfl, ?_⟩
    obtain ⟨port, hport, hs⟩ := Option.bind_eq_some_iff.mp hs
    have hone : [idx].filterMap toPort = [port] := List.filterMap_cons_some hport
    rw [List.filterMap_append, List.map_append, hone]
    have hkept : ∀ p', ((st.2 ++ [⟨port, qIndex, p'⟩] : List Held).map Held.slot).Sublist
        ((done.filterMap toPort).map (·, qIndex) ++ [port].map (·, qIndex)) := fun p' => by
      rw [List.map_append]
      exact hsub.append (.refl _)
    dsimp only at hs
    split at hs
    · cases hs
    · split at hs
      · cases hs
        exact hkept _
      · split at hs
        · cases hs
          exact hsub.trans (List.sublist_append_left _ _)
        · cases hs
          exact hkept _
  · exact ⟨[], rfl, List.nil_sublist _⟩

section
variable {transmit : Port → SwitchNode → Option SwitchNode} (ht : KeepsLanes transmit)
include ht

/-- The copies join the lanes of their ports. -/
theorem Joins.sendAll {tosend : List Held}
    (hs : tosend.foldlM
      (fun s h => SwitchNode.switchSend transmit h.port h.qIndex h.packet s) s = some s') :
    ∃ new, Joins s s' new ∧
      ∀ slot, (new slot).Sublist ((tosend.filter (·.slot = slot)).map (·.packet)) := by
  induction tosend generalizing s with
  | nil =>
    cases hs
    exact ⟨_, SameLanes.refl _, fun _ => List.nil_sublist _⟩
  | cons h tosend ih =>
    rw [List.foldlM_cons] at hs
    obtain ⟨t, hsend, hs⟩ := Option.bind_eq_some_iff.mp hs
    obtain ⟨l, hl, hfirst⟩ := Joins.switchSend ht hsend
    obtain ⟨new, hrest, hnew⟩ := ih hs
    refine ⟨_, hfirst.trans hrest, fun slot => ?_⟩
    by_cases hslot : slot = (h.port, h.qIndex)
    · have hheld : h.slot = slot := hslot.symm
      rw [if_pos hslot, List.filter_cons_of_pos (by simpa using hheld), List.map_cons]
      exact hl.append (hnew slot)
    · have hheld : h.slot ≠ slot := fun heq => hslot heq.symm
      rw [if_neg hslot, List.filter_cons_of_neg (by simpa using hheld), List.nil_append]
      exact hnew slot

/-- A unicast packet joins at most one lane. -/
theorem Joins.sendToDev (inIface : Port) (hs : sendToDev transmit ch junk p s = some s') :
    ∃ slot l, l.Sublist [p] ∧ (l ≠ [] → s.targets ch junk false inIface = [slot]) ∧
    Joins s s' fun slot' => if slot' = slot then l else [] := by
  have hnone : SameLanes s s' → ∃ slot l, l.Sublist [p] ∧
      (l ≠ [] → s.targets ch junk false inIface = [slot]) ∧
      Joins s s' fun slot' => if slot' = slot then l else [] :=
    fun h => ⟨(0, 0), [], List.nil_sublist _, fun hne => absurd rfl hne, by simpa using h⟩
  unfold SwitchNode.sendToDev at hs
  split at hs
  next =>
    cases hs
    exact hnone (SameLanes.refl s)
  next idx hout =>
    obtain ⟨port, hport, hs⟩ := Option.bind_eq_some_iff.mp hs
    obtain ⟨qIndex, hqIndex, hs⟩ := Option.bind_eq_some_iff.mp hs
    obtain ⟨inDev, -, hs⟩ := Option.bind_eq_some_iff.mp hs
    have htargets : s.targets ch junk false inIface = [(port, qIndex)] := by
      rw [targets, hqIndex, outPorts, if_neg Bool.false_ne_true, hout, Option.toList_some,
        Option.elim_some, List.filterMap_cons_some hport]
      rfl
    have hjoin : ∀ {t u}, SameLanes s t → SwitchNode.switchSend transmit port qIndex p t = some u →
        ∃ slot l, l.Sublist [p] ∧ (l ≠ [] → s.targets ch junk false inIface = [slot]) ∧
          Joins s u fun slot' => if slot' = slot then l else [] := by
      intro t u hsame hsend
      obtain ⟨l, hl, h⟩ := Joins.switchSend ht hsend
      exact ⟨(port, qIndex), l, hl, fun _ => htargets, hsame.trans h⟩
    dsimp only at hs
    split at hs
    · cases hs
    · split at hs
      · exact hjoin SameLanes.countBytes hs
      · split at hs
        · cases hs
          exact hnone (SameLanes.refl s)
        · obtain ⟨t, hpfc, hs⟩ := Option.bind_eq_some_iff.mp hs
          refine hjoin ?_ hs
          exact (SameLanes.charge.trans (SameLanes.checkAndSendPfc ht hpfc)).trans
            SameLanes.countBytes

theorem Enters.sendMultiToDevs {port : Port}
    (hs : sendMultiToDevs transmit ch junk p port s = some s') :
    ∃ new, Enters s s' new ∧ (∀ slot, ∀ q ∈ new slot, q.flowId = p.flowId) ∧
      ∀ slot, (new slot).length ≤ (s.targets ch junk true port).count slot := by
  unfold SwitchNode.sendMultiToDevs at hs
  split at hs
  next =>
    cases hs
    exact ⟨_, (SameLanes.refl s).enters, fun _ _ hq => absurd hq List.not_mem_nil,
      fun _ => Nat.zero_le _⟩
  next group hgroup =>
    obtain ⟨qIndex, hqIndex, hs⟩ := Option.bind_eq_some_iff.mp hs
    obtain ⟨inDev, -, hs⟩ := Option.bind_eq_some_iff.mp hs
    obtain ⟨⟨t, tosend⟩, hadmit, hs⟩ := Option.bind_eq_some_iff.mp hs
    obtain ⟨u, hpfc, hs⟩ := Option.bind_eq_some_iff.mp hs
    obtain ⟨hsame, hsorted, hfresh⟩ := admitCopies_fresh hadmit
    have hu : SameLanes t u := by
      split at hpfc
      · cases hpfc
        exact SameLanes.refl t
      · exact SameLanes.checkAndSendPfc ht hpfc
    have htargets : s.targets ch junk true port =
        ((multiPorts group s.uplink ch junk s.ecmpSeed port).filterMap toPort).map (·, qIndex) := by
      rw [targets, hqIndex, outPorts, if_pos rfl, hgroup]
      rfl
    obtain ⟨new, hjoin, hnew⟩ := Joins.sendAll ht hs
    refine ⟨new, ⟨hsame.trans (hu.trans hjoin), fun slot => ?_, fun slot p hp => ?_⟩,
      fun slot q hq => ?_, fun slot => ?_⟩
    · apply List.Pairwise.sublist (hnew slot)
      exact List.pairwise_map.mpr (hsorted.filter _)
    · obtain ⟨h, hmem, rfl⟩ := List.mem_map.mp ((hnew slot).subset hp)
      obtain ⟨hlo, hhi, -⟩ := hfresh h (List.mem_of_mem_filter hmem)
      exact ⟨hlo, Nat.lt_of_lt_of_le hhi (Nat.le_trans hu.nextPtr hjoin.nextPtr)⟩
    · obtain ⟨h, hmem, rfl⟩ := List.mem_map.mp ((hnew slot).subset hq)
      exact (hfresh h (List.mem_of_mem_filter hmem)).2.2
    · have hcount : (tosend.map Held.slot).count slot = (tosend.filter (·.slot = slot)).length := by
        rw [List.count_eq_countP, List.countP_map, List.countP_eq_length_filter]
        refine congrArg List.length (List.filter_congr fun h _ => ?_)
        exact beq_eq_decide ..
      have hlength := (hnew slot).length_le
      rw [List.length_map, ← hcount] at hlength
      rw [htargets]
      exact hlength.trans ((admitCopies_slots hadmit).count_le slot)

/-- What `Receive` does to the lanes. PFC frames join none. -/
theorem Enters.receive (hs : receive transmit port a s = some s') : ∃ new, Enters s s' new ∧
    (a.ch.l3Prot = 0xFE → new = fun _ => []) ∧ (∀ slot, ∀ q ∈ new slot, q.flowId = some port) ∧
    ∀ slot, (new slot).length ≤ (s.targets a.ch a.junk a.multicast port).count slot := by
  have hnone : SameLanes s s' → ∃ new, Enters s s' new ∧
      (a.ch.l3Prot = 0xFE → new = fun _ => []) ∧ (∀ slot, ∀ q ∈ new slot, q.flowId = some port) ∧
      ∀ slot, (new slot).length ≤ (s.targets a.ch a.junk a.multicast port).count slot :=
    fun h => ⟨_, h.enters, fun _ => rfl, fun _ _ hq => absurd hq List.not_mem_nil,
      fun _ => Nat.zero_le _⟩
  unfold SwitchNode.receive at hs
  split at hs
  · cases hs
    exact hnone (SameLanes.refl s)
  · split at hs
    · split at hs
      · cases hs
        exact hnone (SameLanes.refl s)
      · split at hs
        · cases hs
          exact hnone (SameLanes.setDevice rfl)
        · unfold resume at hs
          split at hs
          · have hset : SameLanes s (s.setPaused port a.pfc.qIndex false) := SameLanes.setDevice rfl
            exact hnone (hset.trans (ht hs))
          · cases hs
    next hpfc =>
      have halloc := SameLanes.alloc s
      unfold switchReceiveFromDevice at hs
      dsimp only at hs
      split at hs
      next hmulti =>
        obtain ⟨new, hnew, hflow, hcount⟩ := Enters.sendMultiToDevs ht hs
        refine ⟨new, ⟨halloc.trans hnew.toJoins, hnew.sorted, fun slot p hp => ?_⟩,
          fun h => absurd h hpfc, hflow, hmulti ▸ hcount⟩
        exact ⟨Nat.le_trans halloc.nextPtr (hnew.fresh slot p hp).1, (hnew.fresh slot p hp).2⟩
      next hmulti =>
        obtain ⟨slot, l, hl, htargets, hsent⟩ := Joins.sendToDev ht port hs
        have hjoin : Joins s s' fun slot' => if slot' = slot then l else [] := halloc.trans hsent
        have hone : ∀ slot', ∀ q ∈ if slot' = slot then l else [], q =
            { ptr := s.nextPtr, size := a.size, flowId := some port
              multicast := a.multicast } := by
          intro slot' q hq
          split at hq
          · exact List.mem_singleton.mp (hl.subset hq)
          · exact absurd hq List.not_mem_nil
        refine ⟨_, ⟨hjoin, fun slot' => ?_, fun slot' p hp => ?_⟩, fun h => absurd h hpfc,
          fun slot' q hq => ?_, fun slot' => ?_⟩
        · split
          · exact (List.pairwise_singleton ..).sublist hl
          · exact .nil
        · rw [hone slot' p hp]
          exact ⟨Nat.le_refl _, hsent.nextPtr⟩
        · rw [hone slot' q hq]
        · split
          next heq =>
            subst heq
            rcases List.eq_nil_or_concat l with rfl | ⟨_, _, hne⟩
            · exact Nat.zero_le _
            · have htarget : s.targets a.ch a.junk a.multicast port = [slot'] := by
                rw [Bool.eq_false_iff.mpr hmulti]
                exact htargets (by simp [hne])
              rw [htarget, List.count_singleton_self]
              exact hl.length_le
          next => exact Nat.zero_le _

end

/-- The packets of every lane are in the order in which they arrived. -/
structure InOrder (s : SwitchNode) : Prop where
  sorted : ∀ slot, (s.lane slot).Pairwise (·.ptr < ·.ptr)
  fresh : ∀ slot, ∀ p ∈ s.lane slot, p.ptr < s.nextPtr

theorem InOrder.enters (h : InOrder s) (he : Enters s s' new) : InOrder s' := by
  constructor
  case sorted =>
    intro slot
    rw [he.lane]
    refine List.pairwise_append.mpr ⟨h.sorted slot, he.sorted slot, fun p hp p' hp' => ?_⟩
    exact Nat.lt_of_lt_of_le (h.fresh slot p hp) (he.fresh slot p' hp').1
  case fresh =>
    intro slot p hp
    rw [he.lane] at hp
    rcases List.mem_append.mp hp with hp | hp
    · exact Nat.lt_of_lt_of_le (h.fresh slot p hp) he.nextPtr
    · exact (he.fresh slot p hp).2

theorem Idle.lane (h : Idle s) (slot : Slot) : s.lane slot = [] := by
  rw [SwitchNode.lane, h.dequeued, queueAt, h.queues]
  rfl

theorem Idle.inOrder (h : Idle s) : InOrder s :=
  ⟨fun slot => by rw [h.lane]; exact .nil, fun slot p hp => by rw [h.lane] at hp; cases hp⟩

theorem SameLanes.transmitComplete
    (hs : transmitComplete (dequeueAndTransmit fuel) port s = some s') : SameLanes s s' := by
  have hset : SameLanes s (s.setDevice port { s.devices port with currentPkt := none }) :=
    SameLanes.setDevice rfl
  exact hset.trans (keepsLanes_dequeueAndTransmit fuel (transmitComplete_eq hs))

/-- A packet that a port has transmitted was in one of its lanes. -/
theorem mem_lane_of_transmitted (hp : p ∈ s.transmitted port) (hpfc : p.pfc = none) :
    ∃ qIndex, p ∈ s.lane (port, qIndex) := by
  obtain ⟨h, hmem, rfl⟩ := List.mem_map.mp hp
  obtain ⟨hmem, hport⟩ := List.mem_filter.mp hmem
  have hport : h.port = port := by simpa using hport
  refine ⟨h.qIndex, List.mem_filter.mpr ⟨List.mem_append_left _ ?_, by simp [hpfc]⟩⟩
  exact List.mem_map_of_mem (List.mem_filter.mpr ⟨hmem, by simp [Held.slot, hport]⟩)

end SwitchNode
end Roce
