import Roce.Lib.Exclusive
import Roce.Switch.Node

/-! # The calls inside of a switch

The functions of a switch call each other through `SwitchSend`, and `DequeueAndTransmit` may be
entered for one port while it is in progress for another one. Here every step is one of the
innermost frame of the call stack, and a run of these steps does what the functions do. -/

namespace Roce

open Function

/-- A frame of the call stack: what a function has still to do. -/
inductive SwitchFrame where
  | dequeueAndTransmit (port : Port)
  /-- `TransmitStart`, at the end of `DequeueAndTransmit`. -/
  | transmitStart (port : Port) (p : SwitchPacket)
  | setPause (slot : Slot)
  | setResume (slot : Slot)
  /-- `SendToDev`, after `CheckAndSendPfc`. -/
  | sendToDev (inDev : Port) (h : Held)
  /-- The last loop of `SendMultiToDevs`. -/
  | sendMultiToDevs (tosend : List Held)
  deriving DecidableEq

namespace SwitchNode

/-- `SendPfc`, up to `DequeueAndTransmit`. -/
def enqueuePfc (port : Port) (qIndex : Priority) (type : Nat) (s : SwitchNode) : SwitchNode :=
  let time := if type = 0 then (s.devices port).pauseMicroSeconds else 0
  s.alloc.enqueue port 0 { ptr := s.nextPtr, size := 31, pfc := some ⟨time, qIndex⟩ }

/-- `CheckAndSendPfc`. -/
def pauseCalls (inDev : Port) (qIndex : Priority) (s : SwitchNode) :
    SwitchNode × List SwitchFrame :=
  if s.mmu.checkShouldPause (inDev, qIndex) then
    (s.enqueuePfc inDev qIndex 0, [.dequeueAndTransmit inDev, .setPause (inDev, qIndex)])
  else (s, [])

/-- `CheckAndSendResume`. -/
def resumeCalls (inDev : Port) (qIndex : Priority) (s : SwitchNode) :
    SwitchNode × List SwitchFrame :=
  if s.mmu.checkShouldResume (inDev, qIndex) then
    (s.enqueuePfc inDev qIndex 1, [.dequeueAndTransmit inDev, .setResume (inDev, qIndex)])
  else (s, [])

/-- `SwitchNotifyDequeue`. -/
def notifyCalls (h : Held) (s : SwitchNode) : Option (SwitchNode × List SwitchFrame) :=
  if h.qIndex = 0 then some (s, [])
  else do
    let inDev ← h.packet.flowId
    let s ← s.release h
    return s.resumeCalls inDev h.qIndex

section
variable (ch : CustomHeader) (junk : UInt32)

def sendToDevCalls (p : SwitchPacket) (s : SwitchNode) : Option (SwitchNode × List SwitchFrame) :=
  match s.outDev ch junk with
  | none => some (s, [])
  | some idx => do
    let port ← toPort idx
    let qIndex ← s.qIndexOf ch
    let inDev ← p.flowId
    let h : Held := ⟨port, qIndex, p⟩
    if !(s.devices port).linkUp then none
    else if qIndex = 0 then some (s, [.sendToDev inDev h])
    else if !s.mmu.checkIngressAdmission (inDev, qIndex) p.size then some (s, [])
    else
      let calls := (s.charge inDev h).pauseCalls inDev qIndex
      some (calls.1, calls.2 ++ [.sendToDev inDev h])

def sendMultiToDevsCalls (p : SwitchPacket) (inIface : Port) (s : SwitchNode) :
    Option (SwitchNode × List SwitchFrame) :=
  match s.ogroups ch.dip with
  | none => some (s, [])
  | some group => do
    let qIndex ← s.qIndexOf ch
    let inDev ← p.flowId
    let (s, tosend) ← (multiPorts group s.uplink ch junk s.ecmpSeed inIface).foldlM
      (admitCopy inDev qIndex p) (s, [])
    let calls := if qIndex = 0 then (s, []) else s.pauseCalls inDev qIndex
    return (calls.1, calls.2 ++ [.sendMultiToDevs tosend])

end

/-- `Receive`, of a new packet. -/
def receiveCalls (port : Port) (a : Arrival) (s : SwitchNode) :
    Option (SwitchNode × List SwitchFrame) :=
  if !(s.devices port).linkUp || a.corrupt then some (s, [])
  else if a.ch.l3Prot = 0xFE then
    if !(s.devices port).qbbEnabled then some (s, [])
    else if a.pfc.time > 0 then some (s.setPaused port a.pfc.qIndex true, [])
    else if (s.devices port).paused a.pfc.qIndex then
      some (s.setPaused port a.pfc.qIndex false, [.dequeueAndTransmit port])
    else none
  else
    let p : SwitchPacket :=
      { ptr := s.nextPtr, size := a.size, flowId := some port, multicast := a.multicast }
    if a.multicast then sendMultiToDevsCalls a.ch a.junk p port s.alloc
    else sendToDevCalls a.ch a.junk p s.alloc

/-- The current packet of a port. -/
def setCurrentPkt (port : Port) (p : Option SwitchPacket) (s : SwitchNode) : SwitchNode :=
  s.setDevice port { s.devices port with currentPkt := p }

/-! ## What the calls begin with -/

section
variable {s : SwitchNode} {p : SwitchPacket} {calls : SwitchNode × List SwitchFrame} {held : Held}
  {port inIface : Port}

theorem notifyCalls_cases (h : s.notifyCalls held = some calls) :
    (held.qIndex = 0 ∧ calls = (s, [])) ∨
    (held.qIndex ≠ 0 ∧ ∃ inDev t, held.packet.flowId = some inDev ∧ s.release held = some t ∧
      calls = t.resumeCalls inDev held.qIndex) := by
  unfold notifyCalls at h
  split at h
  next hq => exact .inl ⟨hq, (Option.some.inj h).symm⟩
  next hq =>
    obtain ⟨inDev, hin, h⟩ := Option.bind_eq_some_iff.mp h
    obtain ⟨t, ht, h⟩ := Option.bind_eq_some_iff.mp h
    exact .inr ⟨hq, inDev, t, hin, ht, (Option.some.inj h).symm⟩

theorem sendToDevCalls_cases (h : s.sendToDevCalls ch junk p = some calls) :
    calls = (s, []) ∨ ∃ port qIndex inDev, s.qIndexOf ch = some qIndex ∧ p.flowId = some inDev ∧
      ((qIndex = 0 ∧ calls = (s, [.sendToDev inDev ⟨port, qIndex, p⟩])) ∨
        (qIndex ≠ 0 ∧ s.mmu.checkIngressAdmission (inDev, qIndex) p.size = true ∧
          calls = (((s.charge inDev ⟨port, qIndex, p⟩).pauseCalls inDev qIndex).1,
            ((s.charge inDev ⟨port, qIndex, p⟩).pauseCalls inDev qIndex).2 ++
              [.sendToDev inDev ⟨port, qIndex, p⟩]))) := by
  unfold sendToDevCalls at h
  split at h
  next => exact .inl (Option.some.inj h).symm
  next idx _ =>
    obtain ⟨port, -, h⟩ := Option.bind_eq_some_iff.mp h
    obtain ⟨qIndex, hqIndex, h⟩ := Option.bind_eq_some_iff.mp h
    obtain ⟨inDev, hin, h⟩ := Option.bind_eq_some_iff.mp h
    dsimp only at h
    split at h
    · cases h
    · split at h
      next hq =>
        exact .inr ⟨port, qIndex, inDev, hqIndex, hin, .inl ⟨hq, (Option.some.inj h).symm⟩⟩
      next hq =>
        split at h
        next => exact .inl (Option.some.inj h).symm
        next hcheck =>
          have hadmit : s.mmu.checkIngressAdmission (inDev, qIndex) p.size = true := by
            simpa using hcheck
          exact .inr ⟨port, qIndex, inDev, hqIndex, hin,
            .inr ⟨hq, hadmit, (Option.some.inj h).symm⟩⟩

theorem sendMultiToDevsCalls_cases (h : s.sendMultiToDevsCalls ch junk p inIface = some calls) :
    calls = (s, []) ∨ ∃ group qIndex inDev t tosend, s.ogroups ch.dip = some group ∧
      s.qIndexOf ch = some qIndex ∧ p.flowId = some inDev ∧
      (multiPorts group s.uplink ch junk s.ecmpSeed inIface).foldlM
        (admitCopy inDev qIndex p) (s, []) = some (t, tosend) ∧
      ((qIndex = 0 ∧ calls = (t, [.sendMultiToDevs tosend])) ∨
        (qIndex ≠ 0 ∧ calls = ((t.pauseCalls inDev qIndex).1,
          (t.pauseCalls inDev qIndex).2 ++ [.sendMultiToDevs tosend]))) := by
  unfold sendMultiToDevsCalls at h
  split at h
  next => exact .inl (Option.some.inj h).symm
  next group hgroup =>
    obtain ⟨qIndex, hqIndex, h⟩ := Option.bind_eq_some_iff.mp h
    obtain ⟨inDev, hin, h⟩ := Option.bind_eq_some_iff.mp h
    obtain ⟨⟨t, tosend⟩, ht, h⟩ := Option.bind_eq_some_iff.mp h
    refine .inr ⟨group, qIndex, inDev, t, tosend, hgroup, hqIndex, hin, ht, ?_⟩
    rw [← Option.some.inj h]
    by_cases hq : qIndex = 0
    · exact .inl ⟨hq, by rw [if_pos hq]; rfl⟩
    · exact .inr ⟨hq, by rw [if_neg hq]⟩

theorem receiveCalls_cases (h : s.receiveCalls port a = some calls) :
    calls = (s, []) ∨ calls = (s.setPaused port a.pfc.qIndex true, []) ∨
    calls = (s.setPaused port a.pfc.qIndex false, [.dequeueAndTransmit port]) ∨
    (a.multicast = true ∧ sendMultiToDevsCalls a.ch a.junk
      { ptr := s.nextPtr, size := a.size, flowId := some port, multicast := a.multicast }
      port s.alloc = some calls) ∨
    (a.multicast = false ∧ sendToDevCalls a.ch a.junk
      { ptr := s.nextPtr, size := a.size, flowId := some port, multicast := a.multicast }
      s.alloc = some calls) := by
  unfold receiveCalls at h
  split at h
  · exact .inl (Option.some.inj h).symm
  · split at h
    · split at h
      · exact .inl (Option.some.inj h).symm
      · split at h
        · exact .inr (.inl (Option.some.inj h).symm)
        · split at h
          · exact .inr (.inr (.inl (Option.some.inj h).symm))
          · cases h
    · dsimp only at h
      split at h
      next hmulti => exact .inr (.inr (.inr (.inl ⟨hmulti, h⟩)))
      next hmulti => exact .inr (.inr (.inr (.inr ⟨Bool.not_eq_true _ ▸ hmulti, h⟩)))

end

end SwitchNode

/-- A switch inside of an event. `transmitting` has the packets for which `TransmitComplete` is
scheduled. -/
structure SwitchCalls where
  node : SwitchNode
  frames : List SwitchFrame := []
  transmitting : Port → List SwitchPacket := fun _ => []

/-- An event, or a step of the innermost frame. -/
inductive SwitchCall where
  | event (e : SwitchEvent)
  | next

namespace SwitchCalls

/-- What follows from an event. -/
def enter : SwitchEvent → SwitchCalls → Option SwitchCalls
  | .receive port a, x => do
    let calls ← x.node.receiveCalls port a
    return ⟨calls.1, calls.2, x.transmitting⟩
  | .transmitComplete port, x =>
    if (x.transmitting port).isEmpty || (x.node.devices port).currentPkt.isNone then none
    else
      some ⟨x.node.setCurrentPkt port none, [.dequeueAndTransmit port],
        update x.transmitting port (x.transmitting port).tail⟩

/-- A step of the innermost frame. -/
def next (x : SwitchCalls) : Option SwitchCalls :=
  match x.frames with
  | [] => none
  | .dequeueAndTransmit port :: rest =>
    if !(x.node.devices port).linkUp || (x.node.devices port).currentPkt.isSome then
      some { x with frames := rest }
    else
      match x.node.dequeue port with
      | none => some { x with frames := rest }
      | some (h, s) => do
        let calls ← s.notifyCalls h
        return { x with
          node := calls.1
          frames := calls.2 ++ .transmitStart port { h.packet with flowId := none } :: rest }
  | .transmitStart port p :: rest =>
    some ⟨x.node.setCurrentPkt port (some p), rest,
      update x.transmitting port (x.transmitting port ++ [p])⟩
  | .setPause slot :: rest =>
    some { x with node := { x.node with mmu := x.node.mmu.setPause slot }, frames := rest }
  | .setResume slot :: rest =>
    some { x with node := { x.node with mmu := x.node.mmu.setResume slot }, frames := rest }
  | .sendToDev inDev h :: rest =>
    some { x with
      node := (x.node.countBytes inDev h).enqueue h.port h.qIndex h.packet
      frames := .dequeueAndTransmit h.port :: rest }
  | .sendMultiToDevs [] :: rest => some { x with frames := rest }
  | .sendMultiToDevs (h :: tosend) :: rest =>
    some { x with
      node := x.node.enqueue h.port h.qIndex h.packet
      frames := .dequeueAndTransmit h.port :: .sendMultiToDevs tosend :: rest }

/-- What is left of a call of `DequeueAndTransmit`. -/
theorem next_dequeueAndTransmit {x y : SwitchCalls} {port : Port} {rest : List SwitchFrame}
    (hf : x.frames = .dequeueAndTransmit port :: rest) (hs : x.next = some y) :
    y = { x with frames := rest } ∨ ∃ held s calls, (x.node.devices port).linkUp = true ∧
      (x.node.devices port).currentPkt = none ∧ x.node.dequeue port = some (held, s) ∧
      s.notifyCalls held = some calls ∧
      y = { x with
        node := calls.1
        frames := calls.2 ++ .transmitStart port { held.packet with flowId := none } :: rest } := by
  unfold next at hs
  rw [hf] at hs
  dsimp only at hs
  split at hs
  next => exact .inl (Option.some.inj hs).symm
  next hready =>
    simp only [Bool.or_eq_true, Bool.not_eq_true', not_or, Bool.not_eq_false,
      Bool.not_eq_true, Option.isSome_eq_false_iff, Option.isNone_iff_eq_none] at hready
    split at hs
    next => exact .inl (Option.some.inj hs).symm
    next held s hd =>
      obtain ⟨calls, hcalls, hs⟩ := Option.bind_eq_some_iff.mp hs
      exact .inr ⟨held, s, calls, hready.1, hready.2, hd, hcalls, (Option.some.inj hs).symm⟩

inductive Step : SwitchCalls → SwitchCall → SwitchCalls → Prop
  | event {x y : SwitchCalls} : x.frames = [] → enter e x = some y → Step x (.event e) y
  | next {x y : SwitchCalls} : x.next = some y → Step x .next y

def machine : Machine SwitchCalls SwitchCall where
  init x := x.node.Idle ∧ x.frames = [] ∧ x.transmitting = fun _ => []
  step := Step

end SwitchCalls
end Roce
