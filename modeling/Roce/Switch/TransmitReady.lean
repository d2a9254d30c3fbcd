import Roce.Switch.Calls
import Roce.Switch.NodeLedger

/-! # When a switch enters `TransmitStart`

Between `DequeueRR` and `TransmitStart` a PFC frame may be sent, on the port that the packet came
from. A packet that leaves by the port it came from makes that the same port, which is still `READY`
and starts the transmission of the PFC frame. -/

namespace Roce

open Function

/-- The port that has dequeued a packet and not transmitted it. -/
def SwitchFrame.pending : SwitchFrame → Option Port
  | .transmitStart port _ => some port
  | _ => none

namespace SwitchNode

variable {s s' : SwitchNode} {calls : SwitchNode × List SwitchFrame}

def current (s : SwitchNode) (port : Port) : Option SwitchPacket := (s.devices port).currentPkt

/-- A function leaves the current packets, and what it has still to do is no `TransmitStart`. -/
structure Quiet (s : SwitchNode) (calls : SwitchNode × List SwitchFrame) : Prop where
  current : calls.1.current = s.current
  pending : calls.2.filterMap SwitchFrame.pending = []

theorem current_setDevice (s : SwitchNode) (port : Port) (device : SwitchDevice) :
    (s.setDevice port device).current = update s.current port device.currentPkt := by
  funext e
  simp only [current, setDevice, update_apply]
  split <;> rfl

theorem current_setDevice_self (s : SwitchNode) {device : SwitchDevice}
    (h : device.currentPkt = s.current port) : (s.setDevice port device).current = s.current := by
  rw [current_setDevice, h, update_eq_self]

@[simp] theorem current_setCurrentPkt (s : SwitchNode) (port : Port) (p : Option SwitchPacket) :
    (s.setCurrentPkt port p).current = update s.current port p := by
  rw [setCurrentPkt, current_setDevice]

@[simp] theorem current_enqueue (port : Port) (qIndex : Priority) (p : SwitchPacket)
    (s : SwitchNode) :
    (s.enqueue port qIndex p).current = s.current := by
  unfold enqueue
  split
  · exact current_setDevice_self s rfl
  · rfl

theorem current_dequeue (h : s.dequeue port = some (held, s')) : s'.current = s.current := by
  obtain ⟨a, -, h⟩ := Option.bind_eq_some_iff.mp h
  cases h
  exact current_setDevice_self s rfl

theorem current_release (h : s.release held = some s') : s'.current = s.current := by
  obtain ⟨inDev, x, mmu, -, -, -, rfl⟩ := release_spec h
  rfl

theorem Quiet.enqueuePfc : (s.enqueuePfc port qIndex type).current = s.current := by
  rw [SwitchNode.enqueuePfc, current_enqueue]
  rfl

theorem Quiet.pauseCalls (s : SwitchNode) (inDev : Port) (qIndex : Priority) :
    Quiet s (s.pauseCalls inDev qIndex) := by
  unfold SwitchNode.pauseCalls
  split
  · exact ⟨Quiet.enqueuePfc, rfl⟩
  · exact ⟨rfl, rfl⟩

theorem Quiet.resumeCalls (s : SwitchNode) (inDev : Port) (qIndex : Priority) :
    Quiet s (s.resumeCalls inDev qIndex) := by
  unfold SwitchNode.resumeCalls
  split
  · exact ⟨Quiet.enqueuePfc, rfl⟩
  · exact ⟨rfl, rfl⟩

theorem Quiet.notifyCalls (h : s.notifyCalls held = some calls) : Quiet s calls := by
  obtain ⟨-, rfl⟩ | ⟨-, inDev, t, -, hrelease, rfl⟩ := notifyCalls_cases h
  · exact ⟨rfl, rfl⟩
  · have hresume := Quiet.resumeCalls t inDev held.qIndex
    exact ⟨hresume.current.trans (current_release hrelease), hresume.pending⟩

theorem Quiet.sendToDevCalls (h : s.sendToDevCalls ch junk p = some calls) : Quiet s calls := by
  obtain rfl | ⟨port, qIndex, inDev, -, -, ⟨-, rfl⟩ | ⟨-, -, rfl⟩⟩ := sendToDevCalls_cases h
  · exact ⟨rfl, rfl⟩
  · exact ⟨rfl, rfl⟩
  · have hpause := Quiet.pauseCalls (s.charge inDev ⟨port, qIndex, p⟩) inDev qIndex
    refine ⟨hpause.current, ?_⟩
    rw [List.filterMap_append, hpause.pending]
    rfl

theorem current_admitCopy {st st' : SwitchNode × List Held}
    (h : admitCopy inDev qIndex p st idx = some st') : st'.1.current = st.1.current := by
  obtain ⟨port, ⟨-, rfl⟩ | ⟨-, rfl⟩ | ⟨-, -, rfl⟩⟩ := admitCopy_cases h <;> rfl

theorem current_admitCopies {ports : List Nat} (st : SwitchNode × List Held)
    {st' : SwitchNode × List Held} (h : ports.foldlM (admitCopy inDev qIndex p) st = some st') :
    st'.1.current = st.1.current :=
  foldlM_invariant (I := fun _ t => t.1.current = st.1.current)
    (fun hcurrent hs => (current_admitCopy hs).trans hcurrent) rfl h

theorem Quiet.sendMultiToDevsCalls (h : s.sendMultiToDevsCalls ch junk p inIface = some calls) :
    Quiet s calls := by
  obtain rfl | ⟨group, qIndex, inDev, t, tosend, -, -, -, hadmit, hcalls⟩ :=
    sendMultiToDevsCalls_cases h
  · exact ⟨rfl, rfl⟩
  · have hcurrent : t.current = s.current := current_admitCopies (s, []) hadmit
    obtain ⟨-, rfl⟩ | ⟨-, rfl⟩ := hcalls
    · exact ⟨hcurrent, rfl⟩
    · have hpause := Quiet.pauseCalls t inDev qIndex
      refine ⟨hpause.current.trans hcurrent, ?_⟩
      rw [List.filterMap_append, hpause.pending]
      rfl

theorem Quiet.receiveCalls (h : s.receiveCalls port a = some calls) : Quiet s calls := by
  obtain rfl | rfl | rfl | ⟨-, h⟩ | ⟨-, h⟩ := receiveCalls_cases h
  · exact ⟨rfl, rfl⟩
  · exact ⟨current_setDevice_self s rfl, rfl⟩
  · exact ⟨current_setDevice_self s rfl, rfl⟩
  · have hsend := Quiet.sendMultiToDevsCalls h
    exact ⟨hsend.current, hsend.pending⟩
  · have hsend := Quiet.sendToDevCalls h
    exact ⟨hsend.current, hsend.pending⟩

end SwitchNode

namespace SwitchCalls

variable {x y : SwitchCalls} {s : SwitchNode} {port : Port} {stack rest : List SwitchFrame}

def pending (x : SwitchCalls) : List Port := x.frames.filterMap SwitchFrame.pending

/-- A port that enters `DequeueAndTransmit` again, before it has transmitted the packet that it has
dequeued, finds nothing to send. -/
def Undisturbed (x : SwitchCalls) : SwitchCall → Prop
  | .event _ => True
  | .next => ∀ port rest, x.frames = .dequeueAndTransmit port :: rest → port ∈ x.pending →
    (x.node.devices port).linkUp = false ∨ x.node.dequeue port = none

/-- `TransmitStart` is entered in the state `READY`, and one packet at most is transmitted. -/
structure TransmitsWhenReady (x : SwitchCalls) : Prop where
  ready : ∀ port p rest, x.frames = .transmitStart port p :: rest →
    (x.node.devices port).currentPkt = none
  single : ∀ port, (x.transmitting port).length ≤ 1

/-- The ports that have dequeued a packet are `READY`, each has dequeued one, and what is
transmitted is the current packet. -/
def Inv (x : SwitchCalls) : Prop := Exclusive x.node.current x.transmitting x.pending

theorem pending_cons (hf : x.frames = frame :: rest) :
    x.pending = [frame].filterMap SwitchFrame.pending ++ rest.filterMap SwitchFrame.pending := by
  rw [pending, hf, ← List.filterMap_append, List.singleton_append]

/-- The innermost function goes on without `TransmitStart`. -/
theorem Inv.quiet (h : Inv x) (hf : x.frames = frame :: rest) (hframe : frame.pending = none)
    (hnode : s.current = x.node.current)
    (hstack : stack.filterMap SwitchFrame.pending = rest.filterMap SwitchFrame.pending) :
    Inv { x with node := s, frames := stack } := by
  rw [Inv, pending_cons hf, List.filterMap_cons_none hframe] at h
  rw [Inv, pending, hstack, hnode]
  exact h

/-- A packet is dequeued. -/
theorem Inv.dequeue {calls : SwitchNode × List SwitchFrame} (h : Inv x)
    (ho : x.Undisturbed .next) (hf : x.frames = .dequeueAndTransmit port :: rest)
    (hlink : (x.node.devices port).linkUp = true) (hready : (x.node.devices port).currentPkt = none)
    (hd : x.node.dequeue port = some (held, s)) (hcalls : s.Quiet calls) :
    Inv { x with node := calls.1, frames := calls.2 ++ .transmitStart port p :: rest } := by
  have hnew : port ∉ x.pending := by
    intro hmem
    rcases ho port rest hf hmem with hdown | hnone
    · rw [hlink] at hdown
      cases hdown
    · rw [hd] at hnone
      cases hnone
  have hpending : x.pending = rest.filterMap SwitchFrame.pending := pending_cons hf
  have hdecide := Exclusive.decide h hnew hready
  rw [hpending] at hdecide
  rw [Inv, pending, List.filterMap_append, hcalls.pending, hcalls.current,
    SwitchNode.current_dequeue hd]
  exact hdecide

theorem Inv.next (h : Inv x) (ho : x.Undisturbed .next) (hs : x.next = some y) : Inv y := by
  cases hf : x.frames with
  | nil => simp [SwitchCalls.next, hf] at hs
  | cons frame rest =>
    cases frame with
    | dequeueAndTransmit port =>
      obtain rfl | ⟨held, s, calls, hlink, hready, hd, hcalls, rfl⟩ := next_dequeueAndTransmit hf hs
      · exact h.quiet hf rfl rfl rfl
      · exact h.dequeue ho hf hlink hready hd (SwitchNode.Quiet.notifyCalls hcalls)
    | transmitStart port p =>
      simp only [SwitchCalls.next, hf, Option.some.injEq] at hs
      subst hs
      rw [Inv, pending_cons hf] at h
      rw [Inv, SwitchNode.current_setCurrentPkt]
      exact h.start p
    | setPause slot | setResume slot =>
      simp only [SwitchCalls.next, hf, Option.some.injEq] at hs
      subst hs
      exact h.quiet hf rfl rfl rfl
    | sendToDev inDev held =>
      simp only [SwitchCalls.next, hf, Option.some.injEq] at hs
      subst hs
      exact h.quiet hf rfl (SwitchNode.current_enqueue ..) rfl
    | sendMultiToDevs tosend =>
      cases tosend with
      | nil =>
        simp only [SwitchCalls.next, hf, Option.some.injEq] at hs
        subst hs
        exact h.quiet hf rfl rfl rfl
      | cons held tosend =>
        simp only [SwitchCalls.next, hf, Option.some.injEq] at hs
        subst hs
        exact h.quiet hf rfl (SwitchNode.current_enqueue ..) rfl

theorem Inv.enter (h : Inv x) (hf : x.frames = []) (hs : enter e x = some y) : Inv y := by
  have hpending : x.pending = [] := by rw [pending, hf]; rfl
  rw [Inv, hpending] at h
  cases e with
  | receive port a =>
    obtain ⟨calls, hcalls, hs⟩ := Option.bind_eq_some_iff.mp hs
    cases hs
    have hquiet := SwitchNode.Quiet.receiveCalls hcalls
    rw [Inv, pending, hquiet.pending, hquiet.current]
    exact h
  | transmitComplete port =>
    rw [SwitchCalls.enter] at hs
    split at hs
    · cases hs
    · cases hs
      rw [Inv, SwitchNode.current_setCurrentPkt]
      exact h.complete port

theorem Inv.step (h : Inv x) (ho : x.Undisturbed c) (hs : Step x c y) : Inv y := by
  cases hs with
  | event hf hs => exact h.enter hf hs
  | next hs => exact h.next ho hs

theorem Inv.transmitsWhenReady (h : Inv x) : TransmitsWhenReady x := by
  refine ⟨fun port p rest hf => ?_, h.single⟩
  rw [Inv, pending_cons hf] at h
  exact h.ready

theorem inv_of_reachable (h : (machine.restrict Undisturbed).Reachable x) : Inv x := by
  refine Machine.Reachable.invariant (M := machine.restrict Undisturbed) (fun h0 => ?_)
    (fun _ hi hs => hi.step hs.1 hs.2) h
  obtain ⟨hidle, hf, htransmitting⟩ := h0
  rw [Inv, pending, hf, htransmitting]
  exact .init hidle.currentPkt fun _ => rfl

end SwitchCalls
end Roce
