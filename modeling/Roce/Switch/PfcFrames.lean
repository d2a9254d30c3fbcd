import Roce.Switch.CallsRun
import Roce.Switch.PausedPackets

/-! # The PFC frames that a switch sends

Whoever receives all PFC frames of a port, in their order, has paused the priorities that the MMU
has paused, provided that none of them was refused by the queue of the port and that the time of a
frame to pause is not 0. -/

namespace Roce

open Function

/-- What `Receive` makes of a PFC frame, on a device with `QbbEnabled`. Nothing if the assertion of
`Resume` fails. -/
def PauseHeader.receive (paused : Priority → Bool) (pfc : PauseHeader) : Option (Priority → Bool) :=
  if pfc.time > 0 then some (update paused pfc.qIndex true)
  else if paused pfc.qIndex then some (update paused pfc.qIndex false)
  else none

/-- The frames of a list of packets, one after the other. -/
def receiveFrames (paused : Priority → Bool) (packets : List SwitchPacket) :
    Option (Priority → Bool) :=
  (packets.filterMap (·.pfc)).foldlM PauseHeader.receive paused

theorem receiveFrames_append (paused : Priority → Bool) (l l' : List SwitchPacket) :
    receiveFrames paused (l ++ l') =
      (receiveFrames paused l).bind fun paused => receiveFrames paused l' := by
  rw [receiveFrames, List.filterMap_append, List.foldlM_append]
  rfl

theorem receiveFrames_singleton (hpfc : p.pfc = some pfc) (paused : Priority → Bool) :
    receiveFrames paused [p] = pfc.receive paused := by
  simp [receiveFrames, hpfc]

/-- Packets without frames change nothing. -/
theorem receiveFrames_plain {l : List SwitchPacket} (h : ∀ p ∈ l, p.pfc = none)
    (paused : Priority → Bool) : receiveFrames paused l = some paused := by
  have hnil : l.filterMap (·.pfc) = [] := List.filterMap_eq_nil_iff.mpr h
  rw [receiveFrames, hnil]
  rfl

/-- Frames change only the priorities that they are for. -/
theorem receiveFrames_other {l : List SwitchPacket} {paused paused' : Priority → Bool}
    (h : receiveFrames paused l = some paused')
    (hq : ∀ p ∈ l, ∀ pfc ∈ p.pfc, pfc.qIndex ≠ qIndex) : paused' qIndex = paused qIndex := by
  induction l generalizing paused with
  | nil =>
    cases h
    rfl
  | cons p l ih =>
    rw [← List.singleton_append, receiveFrames_append] at h
    obtain ⟨paused₁, h₁, h⟩ := Option.bind_eq_some_iff.mp h
    refine (ih h fun p' hp' => hq p' (List.mem_cons_of_mem _ hp')).trans ?_
    have hfirst := hq p List.mem_cons_self
    cases hpfc : p.pfc with
    | none =>
      rw [receiveFrames_plain (fun p' hp' => List.mem_singleton.mp hp' ▸ hpfc)] at h₁
      rw [Option.some.inj h₁]
    | some pfc =>
      have hne := (hfirst pfc hpfc).symm
      rw [receiveFrames_singleton hpfc, PauseHeader.receive] at h₁
      split at h₁
      next =>
        rw [← Option.some.inj h₁, update_of_ne hne]
      next =>
        split at h₁
        next => rw [← Option.some.inj h₁, update_of_ne hne]
        next => cases h₁

namespace SwitchNode

variable {s s' : SwitchNode}

/-- The packets that a port has transmitted. -/
def transmitted (s : SwitchNode) (port : Port) : List SwitchPacket :=
  (s.dequeued.filter (·.port = port)).map (·.packet)

/-- The packets that a port has transmitted and those that it is going to, as far as they matter for
PFC. -/
def outgoing (s : SwitchNode) (port : Port) : List SwitchPacket :=
  s.transmitted port ++ s.queueAt (port, 0)

/-- No PFC frame was refused by a queue. -/
def NoneRefused (s : SwitchNode) : Prop := ∀ h ∈ s.refused, h.packet.pfc = none

/-- PFC frames are on the priority 0 only, and last for a while. -/
structure Plain (s : SwitchNode) : Prop where
  queues : ∀ port qIndex, qIndex ≠ 0 → ∀ p ∈ s.queueAt (port, qIndex), p.pfc = none
  timed : ∀ port, 0 < (s.devices port).pauseMicroSeconds

/-- The same frames, and the same priorities paused by the MMU. -/
structure SameFrames (s s' : SwitchNode) : Prop where
  paused : s'.mmu.paused = s.mmu.paused
  frames : ∀ port, (s'.outgoing port).filterMap (·.pfc) = (s.outgoing port).filterMap (·.pfc)
  plain : Plain s → Plain s'

theorem SameFrames.refl (s : SwitchNode) : SameFrames s s := ⟨rfl, fun _ => rfl, id⟩

theorem SameFrames.trans (h : SameFrames s t) (h' : SameFrames t u) : SameFrames s u :=
  ⟨h'.paused.trans h.paused, fun port => (h'.frames port).trans (h.frames port),
    fun hp => h'.plain (h.plain hp)⟩

/-- Nothing but counters and flags changes. -/
theorem SameFrames.of_queues (hpaused : s'.mmu.paused = s.mmu.paused)
    (hdequeued : s'.dequeued = s.dequeued)
    (hqueue : ∀ port, (s'.devices port).queue = (s.devices port).queue)
    (htime : ∀ port, (s'.devices port).pausetime = (s.devices port).pausetime) :
      SameFrames s s' := by
  have hat : ∀ slot, s'.queueAt slot = s.queueAt slot := fun slot => by rw [queueAt, hqueue]; rfl
  refine ⟨hpaused, fun port => ?_, fun hp => ⟨fun port qIndex hq => ?_, fun port => ?_⟩⟩
  · rw [outgoing, outgoing, transmitted, hdequeued, hat]
    rfl
  · rw [hat]
    exact hp.queues port qIndex hq
  · rw [SwitchDevice.pauseMicroSeconds, htime]
    exact hp.timed port

theorem SameFrames.setDevice {device : SwitchDevice}
    (hqueue : device.queue = (s.devices port).queue)
    (htime : device.pausetime = (s.devices port).pausetime) :
      SameFrames s (s.setDevice port device) := by
  refine .of_queues rfl rfl (fun e => ?_) (fun e => ?_)
  all_goals
    by_cases he : e = port
    · subst he
      simpa [SwitchNode.setDevice] using by assumption
    · simp [SwitchNode.setDevice, update_of_ne he]

theorem queueAt_setDevice {queue : BEgressQueue} {xs : List SwitchPacket}
    (h : queue.queues = update (s.devices port).queue.queues qIndex xs) :
    (s.setDevice port { s.devices port with queue }).queueAt =
      update s.queueAt (port, qIndex) xs := by
  funext ⟨e, q⟩
  by_cases he : e = port
  · subst he
    by_cases hq : q = qIndex
    · subst hq
      simp [queueAt, SwitchNode.setDevice, h]
    · have hne : (e, q) ≠ (e, qIndex) := fun heq => hq (congrArg Prod.snd heq)
      simp [queueAt, SwitchNode.setDevice, h, hq, hne]
  · have hne : (e, q) ≠ (port, qIndex) := fun heq => he (congrArg Prod.fst heq)
    simp [queueAt, SwitchNode.setDevice, he, hne]

/-- A packet is the last one of its queue, or refused. -/
theorem queueAt_enqueue (port : Port) (qIndex : Priority) (p : SwitchPacket) (s : SwitchNode) :
    ((s.enqueue port qIndex p).queueAt =
        update s.queueAt (port, qIndex) (s.queueAt (port, qIndex) ++ [p]) ∧
      (s.enqueue port qIndex p).refused = s.refused) ∨
    (s.enqueue port qIndex p).queueAt = s.queueAt ∧
      (s.enqueue port qIndex p).refused = s.refused ++ [⟨port, qIndex, p⟩] := by
  unfold SwitchNode.enqueue
  split
  next queue hq => exact .inl ⟨queueAt_setDevice (BEgressQueue.enqueue_spec hq), rfl⟩
  next => exact .inr ⟨rfl, rfl⟩

/-- A packet is the first one of its queue. -/
theorem queueAt_dequeue (h : s.dequeue port = some (held, s')) : held.port = port ∧
    ∃ tail, s.queueAt (port, held.qIndex) = held.packet :: tail ∧
      s'.queueAt = update s.queueAt (port, held.qIndex) tail := by
  obtain ⟨⟨p, queue⟩, hq, h⟩ := Option.bind_eq_some_iff.mp h
  cases h
  obtain ⟨hfirst, hrest⟩ := BEgressQueue.dequeueRR_spec hq
  exact ⟨rfl, _, hfirst, queueAt_setDevice hrest⟩

theorem pausetime_enqueue (e : Port) :
    ((s.enqueue port qIndex p).devices e).pausetime = (s.devices e).pausetime := by
  unfold SwitchNode.enqueue
  split
  · by_cases he : e = port
    · subst he
      simp [SwitchNode.setDevice]
    · simp [SwitchNode.setDevice, he]
  · rfl

theorem pausetime_dequeue (h : s.dequeue port = some (held, s')) (e : Port) :
    (s'.devices e).pausetime = (s.devices e).pausetime := by
  obtain ⟨⟨p, queue⟩, -, h⟩ := Option.bind_eq_some_iff.mp h
  cases h
  by_cases he : e = port
  · subst he
    simp [SwitchNode.setDevice]
  · simp [SwitchNode.setDevice, he]

theorem Plain.enqueue (h : Plain s) (hp : qIndex ≠ 0 → p.pfc = none) :
    Plain (s.enqueue port qIndex p) := by
  constructor
  case queues =>
    intro e q hq p' hp'
    rcases queueAt_enqueue port qIndex p s with ⟨heq, -⟩ | ⟨heq, -⟩
    · rw [heq] at hp'
      by_cases hslot : (e, q) = (port, qIndex)
      · obtain ⟨rfl, rfl⟩ := Prod.mk.inj hslot
        rw [update_self] at hp'
        rcases List.mem_append.mp hp' with hp' | hp'
        · exact h.queues e q hq p' hp'
        · exact List.mem_singleton.mp hp' ▸ hp hq
      · rw [update_of_ne hslot] at hp'
        exact h.queues e q hq p' hp'
    · exact h.queues e q hq p' (heq ▸ hp')
  case timed =>
    intro e
    rw [SwitchDevice.pauseMicroSeconds, pausetime_enqueue]
    exact h.timed e

theorem dequeued_enqueue : (s.enqueue port qIndex p).dequeued = s.dequeued :=
  (enqueue_perm port qIndex p s).2.1

theorem mmu_enqueue : (s.enqueue port qIndex p).mmu = s.mmu :=
  (enqueue_perm port qIndex p s).2.2.mmu

/-- A packet without a frame is enqueued. -/
theorem SameFrames.enqueue (hp : p.pfc = none) : SameFrames s (s.enqueue port qIndex p) := by
  refine ⟨by rw [mmu_enqueue], fun e => ?_, fun h => h.enqueue fun _ => hp⟩
  rw [outgoing, outgoing, transmitted, dequeued_enqueue]
  rcases queueAt_enqueue port qIndex p s with ⟨heq, -⟩ | ⟨heq, -⟩
  · rw [heq]
    by_cases hslot : (e, 0) = (port, qIndex)
    · rw [hslot, update_self, ← List.append_assoc, List.filterMap_append]
      simp [hp, transmitted]
    · rw [update_of_ne hslot]
      rfl
  · rw [heq]
    rfl

/-- A frame is enqueued, if it is not refused. -/
theorem outgoing_enqueue (hp : p.pfc = some pfc) (h : NoneRefused (s.enqueue port 0 p)) (e : Port) :
    (s.enqueue port 0 p).outgoing e = s.outgoing e ++ if e = port then [p] else [] := by
  rw [outgoing, outgoing, transmitted, dequeued_enqueue]
  rcases queueAt_enqueue port 0 p s with ⟨heq, -⟩ | ⟨-, hrefused⟩
  · rw [heq]
    by_cases he : e = port
    · subst he
      rw [update_self, if_pos rfl, ← List.append_assoc]
      rfl
    · rw [update_of_ne fun hslot => he (congrArg Prod.fst hslot), if_neg he, List.append_nil]
      rfl
  · have hnone := h ⟨port, 0, p⟩ (hrefused ▸ List.mem_append_right _ List.mem_cons_self)
    rw [hp] at hnone
    cases hnone

theorem SameFrames.dequeue (hp : Plain s) (h : s.dequeue port = some (held, s')) :
    SameFrames s s' := by
  obtain ⟨-, -, hdequeued, hsame⟩ := dequeue_perm h
  obtain ⟨hport, tail, hfirst, hrest⟩ := queueAt_dequeue h
  constructor
  case paused => rw [hsame.mmu]
  case frames =>
    intro e
    rw [outgoing, outgoing, transmitted, hdequeued, hrest, List.filter_append, List.map_append]
    by_cases he : e = port
    · subst he
      by_cases hq : held.qIndex = 0
      · rw [hq] at hfirst ⊢
        rw [update_self, hfirst]
        simp [hport, transmitted]
      · have hnone := hp.queues e held.qIndex hq held.packet (hfirst ▸ List.mem_cons_self)
        rw [update_of_ne fun hslot => hq (congrArg Prod.snd hslot).symm]
        simp [hport, transmitted, hnone]
    · have hne : held.port ≠ e := fun heq => he (heq ▸ hport)
      rw [update_of_ne fun hslot => he (congrArg Prod.fst hslot)]
      simp [hne, transmitted]
  case plain =>
    refine fun hp => ⟨fun e q hq p hmem => hp.queues e q hq p ?_, fun e => ?_⟩
    · rw [hrest] at hmem
      by_cases hslot : (e, q) = (port, held.qIndex)
      · rw [hslot, update_self] at hmem
        rw [hslot, hfirst]
        exact List.mem_cons_of_mem _ hmem
      · rwa [update_of_ne hslot] at hmem
    · rw [SwitchDevice.pauseMicroSeconds, pausetime_dequeue h]
      exact hp.timed e

theorem SameFrames.alloc (s : SwitchNode) : SameFrames s s.alloc :=
  .of_queues rfl rfl (fun _ => rfl) fun _ => rfl

theorem SameFrames.charge : SameFrames s (s.charge inDev held) :=
  .of_queues (paused_updateIngressAdmission ..) rfl (fun _ => rfl) fun _ => rfl

theorem SameFrames.countBytes : SameFrames s (s.countBytes inDev held) :=
  .of_queues rfl rfl (fun _ => rfl) fun _ => rfl

theorem SameFrames.release (h : s.release held = some s') : SameFrames s s' := by
  have hpaused := paused_release h
  obtain ⟨inDev, x, mmu, -, -, -, rfl⟩ := release_spec h
  exact .of_queues hpaused rfl (fun _ => rfl) fun _ => rfl

theorem SameFrames.admitCopies {ports : List Nat} {st st' : SwitchNode × List Held}
    (hs : ports.foldlM (admitCopy inDev qIndex p) st = some st') : SameFrames st.1 st'.1 := by
  refine foldlM_invariant (I := fun _ t => SameFrames st.1 t.1) (fun h hs => h.trans ?_)
    (.refl _) hs
  obtain ⟨port, ⟨-, rfl⟩ | ⟨-, rfl⟩ | ⟨-, -, rfl⟩⟩ := admitCopy_cases hs
  · exact .alloc _
  · exact .alloc _
  · exact (SameFrames.alloc _).trans (SameFrames.charge.trans .countBytes)

theorem pfc_admitCopies {ports : List Nat} {st st' : SwitchNode × List Held} (hp : p.pfc = none)
    (h : ∀ held ∈ st.2, held.packet.pfc = none)
    (hs : ports.foldlM (admitCopy inDev qIndex p) st = some st') :
    ∀ held ∈ st'.2, held.packet.pfc = none := by
  refine foldlM_invariant (I := fun _ t => ∀ held ∈ t.2, held.packet.pfc = none)
    (fun h hs held hmem => ?_) h hs
  obtain ⟨port, ⟨-, rfl⟩ | ⟨-, rfl⟩ | ⟨-, -, rfl⟩⟩ := admitCopy_cases hs
  · rcases List.mem_append.mp hmem with hmem | hmem
    · exact h held hmem
    · exact List.mem_singleton.mp hmem ▸ hp
  · exact h held hmem
  · rcases List.mem_append.mp hmem with hmem | hmem
    · exact h held hmem
    · exact List.mem_singleton.mp hmem ▸ hp

/-! ## The frames and the MMU -/

/-- Whoever receives the frames of a port has paused what is marked in `paused`. -/
structure Agrees (s : SwitchNode) (paused : Slot → Bool) : Prop where
  plain : Plain s
  frames : ∀ port, receiveFrames (fun _ => false) (s.outgoing port) = some fun q => paused (port, q)

theorem Agrees.congr (h : Agrees s paused) (hsame : SameFrames s s') : Agrees s' paused where
  plain := hsame.plain h.plain
  frames port := by
    rw [receiveFrames, hsame.frames]
    exact h.frames port

theorem Agrees.congr_mmu (h : Agrees s s.mmu.paused) (hsame : SameFrames s s') :
    Agrees s' s'.mmu.paused := by
  rw [hsame.paused]
  exact h.congr hsame

theorem Agrees.setMmu (h : Agrees s paused) (mmu : SwitchMmu) : Agrees { s with mmu } paused :=
  ⟨⟨h.plain.queues, h.plain.timed⟩, h.frames⟩

/-- A frame that is not refused is the last one of its port. -/
theorem Agrees.enqueuePfc (h : Agrees s paused)
    (hvalue : type = 0 ∧ value = true ∨ type ≠ 0 ∧ value = false ∧ paused (port, q) = true)
    (hnone : NoneRefused (s.enqueuePfc port q type)) :
    Agrees (s.enqueuePfc port q type) (update paused (port, q) value) ∧
      (s.enqueuePfc port q type).queueAt (port, 0) ≠ [] := by
  have halloc := h.congr (.alloc s)
  have hout := outgoing_enqueue (s := s.alloc) rfl hnone
  refine ⟨⟨halloc.plain.enqueue (absurd rfl), fun e => ?_⟩, ?_⟩
  · rw [SwitchNode.enqueuePfc, hout, receiveFrames_append, halloc.frames, Option.bind_some]
    by_cases he : e = port
    · subst he
      have hupdate : update (fun q' => paused (e, q')) q value =
          fun q' => update paused (e, q) value (e, q') := by
        funext q'
        by_cases hq : q' = q
        · subst hq
          rw [update_self, update_self]
        · rw [update_of_ne hq, update_of_ne fun hslot => hq (congrArg Prod.snd hslot)]
      rw [if_pos rfl, receiveFrames_singleton rfl, PauseHeader.receive]
      rcases hvalue with ⟨htype, rfl⟩ | ⟨htype, rfl, hpaused⟩
      · rw [if_pos htype, if_pos (h.plain.timed e), hupdate]
      · rw [if_neg htype, if_neg (Nat.lt_irrefl 0), if_pos hpaused, hupdate]
    · rw [if_neg he]
      refine congrArg some (funext fun q' => ?_)
      rw [update_of_ne fun hslot => he (congrArg Prod.fst hslot)]
  · rcases queueAt_enqueue port 0 _ s.alloc with ⟨heq, -⟩ | ⟨-, hrefused⟩
    · rw [SwitchNode.enqueuePfc, heq, update_self]
      exact List.append_ne_nil_of_right_ne_nil _ (List.cons_ne_nil _ _)
    · have hpfc := hnone _ (hrefused ▸ List.mem_append_right _ List.mem_cons_self)
      cases hpfc

end SwitchNode

/-! ## The calls -/

/-- What a frame of the stack is going to mark. -/
def SwitchFrame.mark : SwitchFrame → Option (Slot × Bool)
  | .setPause slot => some (slot, true)
  | .setResume slot => some (slot, false)
  | _ => none

/-- A frame of the stack that marks nothing and sends no PFC frame. -/
def SwitchFrame.Ordinary : SwitchFrame → Prop
  | .setPause _ => False
  | .setResume _ => False
  | .sendToDev _ h => h.packet.pfc = none
  | .sendMultiToDevs tosend => ∀ h ∈ tosend, h.packet.pfc = none
  | _ => True

namespace SwitchCalls

open SwitchNode

variable {x y : SwitchCalls} {s s' : SwitchNode} {rest : List SwitchFrame}

/-- What can happen between `SendPfc` and the mark. The frame is sent first, so that nothing else is
marked. -/
inductive Urgent (s : SwitchNode) : List SwitchFrame → Prop
  | done : Urgent s []
  | transmitStart : Urgent s [.transmitStart port p]
  | dequeue : s.queueAt (port, 0) ≠ [] → Urgent s [.dequeueAndTransmit port]

/-- The frames agree with the marks of the MMU, or with those that it is about to have. -/
inductive Synced (x : SwitchCalls) : Prop
  | settled : (∀ f ∈ x.frames, f.Ordinary) → Agrees x.node x.node.mmu.paused → Synced x
  | marking (pre rest : List SwitchFrame) (f : SwitchFrame) : x.frames = pre ++ f :: rest →
    f.mark = some (slot, value) → (∀ f ∈ rest, f.Ordinary) → Urgent x.node pre →
    Agrees x.node (update x.node.mmu.paused slot value) → Synced x

/-- `CheckAndSendPfc`. -/
theorem Synced.pauseCalls (h : Agrees s s.mmu.paused) (hrest : ∀ f ∈ rest, f.Ordinary)
    (hnone : NoneRefused (s.pauseCalls inDev q).1) (transmitting : Port → List SwitchPacket) :
    Synced ⟨(s.pauseCalls inDev q).1, (s.pauseCalls inDev q).2 ++ rest, transmitting⟩ := by
  unfold SwitchNode.pauseCalls at hnone ⊢
  split at hnone
  next hcheck =>
    obtain ⟨hag, hne⟩ := h.enqueuePfc (.inl ⟨rfl, rfl⟩) hnone
    have hmmu : (s.enqueuePfc inDev q 0).mmu = s.mmu := mmu_enqueue
    rw [if_pos hcheck]
    exact .marking [.dequeueAndTransmit inDev] rest _ rfl rfl hrest (.dequeue hne) (hmmu ▸ hag)
  next hcheck =>
    rw [if_neg hcheck]
    exact .settled hrest h

/-- `CheckAndSendResume`. -/
theorem Synced.resumeCalls (h : Agrees s s.mmu.paused) (hrest : ∀ f ∈ rest, f.Ordinary)
    (hnone : NoneRefused (s.resumeCalls inDev q).1) (transmitting : Port → List SwitchPacket) :
    Synced ⟨(s.resumeCalls inDev q).1, (s.resumeCalls inDev q).2 ++ rest, transmitting⟩ := by
  unfold SwitchNode.resumeCalls at hnone ⊢
  split at hnone
  next hcheck =>
    have hpaused : s.mmu.paused (inDev, q) = true := by
      rw [SwitchMmu.checkShouldResume, Bool.and_eq_true, Bool.and_eq_true] at hcheck
      exact hcheck.1.1
    obtain ⟨hag, hne⟩ := h.enqueuePfc (.inr ⟨Nat.one_ne_zero, rfl, hpaused⟩) hnone
    have hmmu : (s.enqueuePfc inDev q 1).mmu = s.mmu := mmu_enqueue
    rw [if_pos hcheck]
    exact .marking [.dequeueAndTransmit inDev] rest _ rfl rfl hrest (.dequeue hne) (hmmu ▸ hag)
  next hcheck =>
    rw [if_neg hcheck]
    exact .settled hrest h

/-- `SwitchNotifyDequeue`. -/
theorem Synced.notifyCalls (h : Agrees s s.mmu.paused) (hs : s.notifyCalls held = some calls)
    (hrest : ∀ f ∈ rest, f.Ordinary) (hnone : NoneRefused calls.1)
    (transmitting : Port → List SwitchPacket) :
    Synced ⟨calls.1, calls.2 ++ rest, transmitting⟩ := by
  obtain ⟨-, rfl⟩ | ⟨-, inDev, t, -, hrelease, rfl⟩ := notifyCalls_cases hs
  · exact .settled hrest h
  · exact .resumeCalls (h.congr_mmu (.release hrelease)) hrest hnone transmitting

theorem Synced.dequeueAndTransmit (h : Agrees x.node x.node.mmu.paused)
    (hf : x.frames = .dequeueAndTransmit port :: rest) (hrest : ∀ f ∈ rest, f.Ordinary)
    (hs : x.next = some y) (hnone : NoneRefused y.node) : Synced y := by
  obtain rfl | ⟨held, s, calls, -, -, hd, hcalls, rfl⟩ := next_dequeueAndTransmit hf hs
  · exact .settled hrest h
  · refine .notifyCalls (h.congr_mmu (.dequeue h.plain hd)) hcalls (fun f hmem => ?_) hnone _
    rcases List.mem_cons.mp hmem with rfl | hmem
    · trivial
    · exact hrest f hmem

theorem SameFrames.setCurrentPkt (s : SwitchNode) (port : Port) (p : Option SwitchPacket) :
    SameFrames s (s.setCurrentPkt port p) := .setDevice rfl rfl

/-- A step of the innermost frame. -/
theorem Synced.next (h : Synced x) (hs : x.next = some y) (hnone : NoneRefused y.node) :
    Synced y := by
  cases h with
  | settled hord h =>
    cases hf : x.frames with
    | nil => simp [SwitchCalls.next, hf] at hs
    | cons frame rest =>
      rw [hf] at hord
      have hrest : ∀ f ∈ rest, f.Ordinary := fun f hmem => hord f (List.mem_cons_of_mem _ hmem)
      have hframe := hord frame List.mem_cons_self
      cases frame with
      | dequeueAndTransmit port => exact .dequeueAndTransmit h hf hrest hs hnone
      | transmitStart port p =>
        simp only [SwitchCalls.next, hf, Option.some.injEq] at hs
        rw [← hs]
        exact .settled hrest (h.congr_mmu (SameFrames.setCurrentPkt ..))
      | setPause => exact hframe.elim
      | setResume => exact hframe.elim
      | sendToDev inDev held =>
        simp only [SwitchCalls.next, hf, Option.some.injEq] at hs
        rw [← hs]
        refine .settled (fun f hmem => ?_)
          (h.congr_mmu (SameFrames.countBytes.trans (.enqueue hframe)))
        rcases List.mem_cons.mp hmem with rfl | hmem
        · trivial
        · exact hrest f hmem
      | sendMultiToDevs tosend =>
        cases tosend with
        | nil =>
          simp only [SwitchCalls.next, hf, Option.some.injEq] at hs
          rw [← hs]
          exact .settled hrest h
        | cons held tosend =>
          simp only [SwitchCalls.next, hf, Option.some.injEq] at hs
          rw [← hs]
          refine .settled (fun f hmem => ?_)
            (h.congr_mmu (.enqueue (hframe held List.mem_cons_self)))
          rcases List.mem_cons.mp hmem with rfl | hmem
          · trivial
          · rcases List.mem_cons.mp hmem with rfl | hmem
            · exact fun h hmem => hframe h (List.mem_cons_of_mem _ hmem)
            · exact hrest f hmem
  | marking pre rest f hf hmark hrest hurgent h =>
    cases hurgent with
    | done =>
      cases f with
      | setPause slot =>
        simp only [SwitchCalls.next, hf, List.nil_append, Option.some.injEq] at hs
        obtain ⟨rfl, rfl⟩ := Prod.mk.inj (Option.some.inj hmark)
        rw [← hs]
        exact .settled hrest (h.setMmu _)
      | setResume slot =>
        simp only [SwitchCalls.next, hf, List.nil_append, Option.some.injEq] at hs
        obtain ⟨rfl, rfl⟩ := Prod.mk.inj (Option.some.inj hmark)
        rw [← hs]
        exact .settled hrest (h.setMmu _)
      | dequeueAndTransmit | transmitStart | sendToDev | sendMultiToDevs => cases hmark
    | transmitStart =>
      simp only [SwitchCalls.next, hf, List.cons_append, List.nil_append, Option.some.injEq] at hs
      rw [← hs]
      exact .marking [] rest f rfl hmark hrest .done (h.congr (SameFrames.setCurrentPkt ..))
    | @dequeue port hne =>
      obtain rfl | ⟨held, t, calls, -, -, hd, hcalls, rfl⟩ := next_dequeueAndTransmit hf hs
      · exact .marking [] rest f rfl hmark hrest .done h
      · -- the frame or a packet before it leaves, so that no other queue is looked at
        have hq := dequeue_urgent hne hd
        rw [SwitchNode.notifyCalls, if_pos hq] at hcalls
        obtain rfl := Option.some.inj hcalls
        have hsame := SameFrames.dequeue h.plain hd
        refine .marking [_] rest f rfl hmark hrest .transmitStart ?_
        rw [hsame.paused]
        exact h.congr hsame

/-! ## Events -/

theorem Synced.of_nil (h : Agrees s s.mmu.paused) (transmitting : Port → List SwitchPacket) :
    Synced ⟨s, [], transmitting⟩ := .settled (fun _ hmem => absurd hmem List.not_mem_nil) h

theorem Synced.of_frame {f : SwitchFrame} (h : Agrees s s.mmu.paused) (hf : f.Ordinary)
    (transmitting : Port → List SwitchPacket) : Synced ⟨s, [f], transmitting⟩ :=
  .settled (fun _ hmem => List.mem_singleton.mp hmem ▸ hf) h

theorem Synced.sendToDevCalls (h : Agrees s s.mmu.paused) (hp : p.pfc = none)
    (hs : s.sendToDevCalls ch junk p = some calls) (hnone : NoneRefused calls.1)
    (transmitting : Port → List SwitchPacket) : Synced ⟨calls.1, calls.2, transmitting⟩ := by
  obtain rfl | ⟨port, qIndex, inDev, -, -, hcalls⟩ := sendToDevCalls_cases hs
  · exact .of_nil h _
  · have hframe : (SwitchFrame.sendToDev inDev ⟨port, qIndex, p⟩).Ordinary := hp
    obtain ⟨-, rfl⟩ | ⟨-, -, rfl⟩ := hcalls
    · exact .of_frame h hframe _
    · refine .pauseCalls (h.congr_mmu .charge) (fun f hmem => ?_) hnone _
      rwa [List.mem_singleton.mp hmem]

theorem Synced.sendMultiToDevsCalls (h : Agrees s s.mmu.paused) (hp : p.pfc = none)
    (hs : s.sendMultiToDevsCalls ch junk p inIface = some calls) (hnone : NoneRefused calls.1)
    (transmitting : Port → List SwitchPacket) : Synced ⟨calls.1, calls.2, transmitting⟩ := by
  obtain rfl | ⟨group, qIndex, inDev, t, tosend, -, -, -, hadmit, hcalls⟩ :=
    sendMultiToDevsCalls_cases hs
  · exact .of_nil h _
  · have hagrees : Agrees t t.mmu.paused := h.congr_mmu (SameFrames.admitCopies hadmit)
    have hframe : (SwitchFrame.sendMultiToDevs tosend).Ordinary :=
      pfc_admitCopies hp (fun held hmem => absurd hmem List.not_mem_nil) hadmit
    obtain ⟨-, rfl⟩ | ⟨-, rfl⟩ := hcalls
    · exact .of_frame hagrees hframe _
    · refine .pauseCalls hagrees (fun f hmem => ?_) hnone _
      rwa [List.mem_singleton.mp hmem]

theorem SameFrames.setPaused (s : SwitchNode) (port : Port) (q : Priority) (value : Bool) :
    SameFrames s (s.setPaused port q value) := .setDevice rfl rfl

theorem Synced.receiveCalls (h : Agrees s s.mmu.paused) (hs : s.receiveCalls port a = some calls)
    (hnone : NoneRefused calls.1) (transmitting : Port → List SwitchPacket) :
    Synced ⟨calls.1, calls.2, transmitting⟩ := by
  obtain rfl | rfl | rfl | ⟨-, hs⟩ | ⟨-, hs⟩ := receiveCalls_cases hs
  · exact .of_nil h _
  · exact .of_nil (h.congr_mmu (SameFrames.setPaused ..)) _
  · have hframe : (SwitchFrame.dequeueAndTransmit port).Ordinary := trivial
    exact .of_frame (h.congr_mmu (SameFrames.setPaused ..)) hframe _
  · exact .sendMultiToDevsCalls (h.congr_mmu (.alloc s)) rfl hs hnone _
  · exact .sendToDevCalls (h.congr_mmu (.alloc s)) rfl hs hnone _

theorem Synced.enter (h : Synced x) (hf : x.frames = []) (hs : enter e x = some y)
    (hnone : NoneRefused y.node) : Synced y := by
  have h : Agrees x.node x.node.mmu.paused := by
    cases h with
    | settled _ h => exact h
    | marking pre rest f hframes =>
      rw [hf] at hframes
      exact absurd hframes.symm (List.append_ne_nil_of_right_ne_nil _ (List.cons_ne_nil _ _))
  cases e with
  | receive port a =>
    obtain ⟨calls, hcalls, hs⟩ := Option.bind_eq_some_iff.mp hs
    rw [← Option.some.inj hs] at hnone ⊢
    exact .receiveCalls h hcalls hnone _
  | transmitComplete port =>
    rw [SwitchCalls.enter] at hs
    split at hs
    next => cases hs
    next =>
      rw [← Option.some.inj hs]
      refine .settled (fun f hmem => ?_) (h.congr_mmu (SameFrames.setCurrentPkt ..))
      rw [List.mem_singleton.mp hmem]
      trivial

theorem Synced.step (h : Synced x) (hs : Step x c y) (hnone : NoneRefused y.node) : Synced y := by
  cases hs with
  | event hf hs => exact h.enter hf hs hnone
  | next hs => exact h.next hs hnone

end SwitchCalls

/-! ## Runs -/

namespace SwitchNode

variable {s s' : SwitchNode}

/-- Packets are refused and dequeued, and none is forgotten. -/
structure Appends (s s' : SwitchNode) : Prop where
  refused : s.refused <+: s'.refused
  dequeued : s.dequeued <+: s'.dequeued

theorem Appends.of_eq (hrefused : s'.refused = s.refused) (hdequeued : s'.dequeued = s.dequeued) :
    Appends s s' := ⟨hrefused ▸ List.prefix_rfl, hdequeued ▸ List.prefix_rfl⟩

theorem Appends.trans (h : Appends s t) (h' : Appends t u) : Appends s u :=
  ⟨h.refused.trans h'.refused, h.dequeued.trans h'.dequeued⟩

theorem Appends.enqueue : Appends s (s.enqueue port qIndex p) := by
  refine ⟨?_, dequeued_enqueue ▸ List.prefix_rfl⟩
  rcases queueAt_enqueue port qIndex p s with ⟨-, heq⟩ | ⟨-, heq⟩
  · rw [heq]
  · rw [heq]
    exact List.prefix_append ..

theorem Appends.dequeue (h : s.dequeue port = some (held, s')) : Appends s s' := by
  obtain ⟨-, hrefused, hdequeued, -⟩ := dequeue_perm h
  exact ⟨hrefused ▸ List.prefix_rfl, hdequeued ▸ List.prefix_append ..⟩

theorem Appends.release (h : s.release held = some s') : Appends s s' := by
  obtain ⟨inDev, x, mmu, -, -, -, rfl⟩ := release_spec h
  exact .of_eq rfl rfl

theorem Appends.admitCopies {ports : List Nat} {st st' : SwitchNode × List Held}
    (hs : ports.foldlM (admitCopy inDev qIndex p) st = some st') : Appends st.1 st'.1 := by
  refine foldlM_invariant (I := fun _ t => Appends st.1 t.1) (fun h hs => h.trans ?_)
    (.of_eq rfl rfl) hs
  obtain ⟨port, ⟨-, rfl⟩ | ⟨-, rfl⟩ | ⟨-, -, rfl⟩⟩ := admitCopy_cases hs
  · exact .of_eq rfl rfl
  · exact .of_eq rfl rfl
  · exact .of_eq rfl rfl

theorem Appends.pauseCalls : Appends s (s.pauseCalls inDev qIndex).1 := by
  unfold SwitchNode.pauseCalls
  split
  · exact (Appends.of_eq rfl rfl : Appends s s.alloc).trans .enqueue
  · exact .of_eq rfl rfl

theorem Appends.resumeCalls : Appends s (s.resumeCalls inDev qIndex).1 := by
  unfold SwitchNode.resumeCalls
  split
  · exact (Appends.of_eq rfl rfl : Appends s s.alloc).trans .enqueue
  · exact .of_eq rfl rfl

theorem Appends.notifyCalls (h : s.notifyCalls held = some calls) : Appends s calls.1 := by
  obtain ⟨-, rfl⟩ | ⟨-, inDev, t, -, hrelease, rfl⟩ := notifyCalls_cases h
  · exact .of_eq rfl rfl
  · exact (Appends.release hrelease).trans .resumeCalls

theorem Appends.sendToDevCalls (h : s.sendToDevCalls ch junk p = some calls) :
    Appends s calls.1 := by
  obtain rfl | ⟨port, qIndex, inDev, -, -, ⟨-, rfl⟩ | ⟨-, -, rfl⟩⟩ := sendToDevCalls_cases h
  · exact .of_eq rfl rfl
  · exact .of_eq rfl rfl
  · have hcharge : Appends s (s.charge inDev ⟨port, qIndex, p⟩) := .of_eq rfl rfl
    exact hcharge.trans .pauseCalls

theorem Appends.sendMultiToDevsCalls (h : s.sendMultiToDevsCalls ch junk p inIface = some calls) :
    Appends s calls.1 := by
  obtain rfl | ⟨group, qIndex, inDev, t, tosend, -, -, -, hadmit, hcalls⟩ :=
    sendMultiToDevsCalls_cases h
  · exact .of_eq rfl rfl
  · have happends : Appends s t := .admitCopies hadmit
    obtain ⟨-, rfl⟩ | ⟨-, rfl⟩ := hcalls
    · exact happends
    · exact happends.trans .pauseCalls

theorem Appends.receiveCalls (h : s.receiveCalls port a = some calls) : Appends s calls.1 := by
  have halloc : Appends s s.alloc := .of_eq rfl rfl
  obtain rfl | rfl | rfl | ⟨-, h⟩ | ⟨-, h⟩ := receiveCalls_cases h
  · exact .of_eq rfl rfl
  · exact .of_eq rfl rfl
  · exact .of_eq rfl rfl
  · exact halloc.trans (.sendMultiToDevsCalls h)
  · exact halloc.trans (.sendToDevCalls h)

end SwitchNode

namespace SwitchCalls

open SwitchNode

variable {x y : SwitchCalls} {s s' : SwitchNode}

theorem next_appends (hs : x.next = some y) : Appends x.node y.node := by
  cases hf : x.frames with
  | nil => simp [SwitchCalls.next, hf] at hs
  | cons frame rest =>
    cases frame with
    | dequeueAndTransmit port =>
      obtain rfl | ⟨held, t, calls, -, -, hd, hcalls, rfl⟩ := next_dequeueAndTransmit hf hs
      · exact .of_eq rfl rfl
      · exact (Appends.dequeue hd).trans (.notifyCalls hcalls)
    | transmitStart | setPause | setResume =>
      simp only [SwitchCalls.next, hf, Option.some.injEq] at hs
      subst hs
      exact .of_eq rfl rfl
    | sendToDev inDev held =>
      simp only [SwitchCalls.next, hf, Option.some.injEq] at hs
      subst hs
      have hcount : Appends x.node (x.node.countBytes inDev held) := .of_eq rfl rfl
      exact hcount.trans .enqueue
    | sendMultiToDevs tosend =>
      cases tosend with
      | nil =>
        simp only [SwitchCalls.next, hf, Option.some.injEq] at hs
        subst hs
        exact .of_eq rfl rfl
      | cons held tosend =>
        simp only [SwitchCalls.next, hf, Option.some.injEq] at hs
        subst hs
        exact .enqueue

theorem enter_appends (hs : enter e x = some y) : Appends x.node y.node := by
  cases e with
  | receive port a =>
    obtain ⟨calls, hcalls, hs⟩ := Option.bind_eq_some_iff.mp hs
    rw [← Option.some.inj hs]
    exact .receiveCalls hcalls
  | transmitComplete port =>
    rw [SwitchCalls.enter] at hs
    split at hs
    next => cases hs
    next =>
      rw [← Option.some.inj hs]
      exact .of_eq rfl rfl

theorem step_appends (h : Step x c y) : Appends x.node y.node := by
  cases h with
  | next hs => exact next_appends hs
  | event _ hs => exact enter_appends hs

theorem run_appends (h : machine.Run x es y) : Appends x.node y.node := by
  refine h.relates (R := fun x y => Appends x.node y.node) (fun x => .of_eq rfl rfl) ?_
  intro x y c z hR hst
  exact hR.trans (step_appends hst)

theorem Synced.run (h : Synced x) (hrun : machine.Run x es y) (hnone : NoneRefused y.node) :
    Synced y := by
  refine hrun.preserves (I := fun y => NoneRefused y.node → Synced y) ?_ (fun _ => h) hnone
  intro y c z hI hst hnone
  exact (hI fun held hmem => hnone held ((step_appends hst).refused.subset hmem)).step hst hnone

end SwitchCalls

namespace SwitchNode

open SwitchCalls

variable {s s' : SwitchNode}

/-- **What an event of the switch does** to the frames that it sends. -/
theorem Agrees.onEvent (h : Agrees s s.mmu.paused)
    (hs : onEvent (dequeueAndTransmit fuel) e s = some s') (hnone : NoneRefused s') :
    Agrees s' s'.mmu.paused := by
  obtain ⟨es, hrun⟩ := leads_onEvent (runsCalls_dequeueAndTransmit fuel) hs
  have hsynced : Synced (ofNode s []) := .settled (fun f hmem => absurd hmem List.not_mem_nil) h
  cases hsynced.run hrun hnone with
  | settled _ h => exact h
  | marking pre rest f hframes =>
    exact absurd (hframes : [] = _).symm (List.append_ne_nil_of_right_ne_nil _
      (List.cons_ne_nil _ _))

theorem onEvent_appends (hs : onEvent (dequeueAndTransmit fuel) e s = some s') : Appends s s' := by
  obtain ⟨es, hrun⟩ := leads_onEvent (runsCalls_dequeueAndTransmit fuel) hs
  exact run_appends hrun

theorem Idle.agrees (h : Idle s) (htime : ∀ port, 0 < (s.devices port).pauseMicroSeconds) :
    Agrees s s.mmu.paused := by
  obtain ⟨cfg, hmmu⟩ := h.mmu
  constructor
  case plain =>
    refine ⟨fun port q _ p hmem => ?_, htime⟩
    rw [queueAt, h.queues] at hmem
    exact absurd hmem List.not_mem_nil
  case frames =>
    intro port
    rw [outgoing, transmitted, h.dequeued, queueAt, h.queues, hmmu]
    rfl

end SwitchNode
end Roce
