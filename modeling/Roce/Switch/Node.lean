import Roce.Network.Forwarding
import Roce.Network.Multicast
import Roce.Switch.EgressQueue

/-! # A switch at run time

`SwitchNode` and its `QbbNetDevice`s: admission and forwarding of the packets that arrive, their way
through the queues of the ports, and the PFC frames that the switch sends and obeys. -/

namespace Roce

open Function

/-- A `QbbNetDevice` of a switch. It is `BUSY` while there is a current packet; `pausetime` is in
nanoseconds. -/
structure SwitchDevice where
  queue : BEgressQueue := {}
  paused : Priority → Bool := fun _ => false
  currentPkt : Option SwitchPacket := none
  linkUp : Bool := true
  qbbEnabled : Bool := false
  pausetime : Nat := 5000

/-- `m_pausetime.GetMicroSeconds()`, as the 32-bit time of a `PauseHeader`. -/
def SwitchDevice.pauseMicroSeconds (device : SwitchDevice) : Nat := u32 (device.pausetime / 1000)

/-- A packet, with the port and the queue that it leaves by. -/
structure Held where
  port : Port
  qIndex : Priority
  packet : SwitchPacket
  deriving DecidableEq, Repr

/-- A `SwitchNode` with its devices. `refused` has the packets that `SwitchSend` could not enqueue,
and `dequeued` those that were taken from the queues. -/
structure SwitchNode where
  mmu : SwitchMmu
  devices : Port → SwitchDevice := fun _ => {}
  rtTable : UInt32 → Option (List Nat) := fun _ => none
  ogroups : UInt32 → Option (List Nat) := fun _ => none
  uplink : List Bool := []
  ecmpSeed : UInt32 := 0
  ackHighPrio : Bool := false
  bytes : Port × Port × Priority → Nat := fun _ => 0
  egressLasts : Nat → Option Int := fun _ => none
  nextPtr : Nat := 0
  refused : List Held := []
  dequeued : List Held := []

namespace SwitchNode

def setDevice (s : SwitchNode) (port : Port) (device : SwitchDevice) : SwitchNode :=
  { s with devices := update s.devices port device }

/-- A new packet. -/
def alloc (s : SwitchNode) : SwitchNode := { s with nextPtr := s.nextPtr + 1 }

@[simp] theorem mmu_alloc (s : SwitchNode) : s.alloc.mmu = s.mmu := rfl

/-- An array index. -/
def toPort (idx : Nat) : Option Port := if h : idx < 257 then some ⟨idx, h⟩ else none

/-! ## Sending -/

/-- `Enqueue` in `SwitchSend`. -/
def enqueue (port : Port) (qIndex : Priority) (p : SwitchPacket) (s : SwitchNode) : SwitchNode :=
  match (s.devices port).queue.enqueue p qIndex with
  | some queue => s.setDevice port { s.devices port with queue }
  | none => { s with refused := s.refused ++ [⟨port, qIndex, p⟩] }

/-- `DequeueRR` in `DequeueAndTransmit`. -/
def dequeue (port : Port) (s : SwitchNode) : Option (Held × SwitchNode) := do
  let (p, queue) ← (s.devices port).queue.dequeueRR (s.devices port).paused
  let held := ⟨port, queue.qlast, p⟩
  return (held, { s.setDevice port { s.devices port with queue } with
    dequeued := s.dequeued ++ [held] })

/-- `TransmitStart`. -/
def transmitStart (port : Port) (p : SwitchPacket) (s : SwitchNode) : Option SwitchNode :=
  if (s.devices port).currentPkt.isSome then none
  else some (s.setDevice port { s.devices port with currentPkt := some p })

/-- The counters that `SwitchNotifyDequeue` lowers. -/
def release (h : Held) (s : SwitchNode) : Option SwitchNode := do
  let inDev ← h.packet.flowId
  let x ← s.egressLasts h.packet.ptr
  let mmu ← (if x - 1 = 0 then s.mmu.removeFromIngressAdmission (inDev, h.qIndex) h.packet.size
    else some s.mmu)
  return { s with
    mmu := mmu.removeFromEgressAdmission (h.port, h.qIndex) h.packet.size
    egressLasts := update s.egressLasts h.packet.ptr none
    bytes := update s.bytes (inDev, h.port, h.qIndex)
      (sub32 (s.bytes (inDev, h.port, h.qIndex)) h.packet.size) }

section
variable (transmit : Port → SwitchNode → Option SwitchNode)

/-- `SwitchSend`. -/
def switchSend (port : Port) (qIndex : Priority) (p : SwitchPacket) (s : SwitchNode) :
    Option SwitchNode :=
  transmit port (s.enqueue port qIndex p)

/-- `SendPfc`. -/
def sendPfc (port : Port) (qIndex : Priority) (type : Nat) (s : SwitchNode) : Option SwitchNode :=
  let time := if type = 0 then (s.devices port).pauseMicroSeconds else 0
  switchSend transmit port 0 { ptr := s.nextPtr, size := 31, pfc := some ⟨time, qIndex⟩ } s.alloc

def checkAndSendPfc (inDev : Port) (qIndex : Priority) (s : SwitchNode) : Option SwitchNode :=
  if s.mmu.checkShouldPause (inDev, qIndex) then do
    let s ← sendPfc transmit inDev qIndex 0 s
    return { s with mmu := s.mmu.setPause (inDev, qIndex) }
  else some s

def checkAndSendResume (inDev : Port) (qIndex : Priority) (s : SwitchNode) : Option SwitchNode :=
  if s.mmu.checkShouldResume (inDev, qIndex) then do
    let s ← sendPfc transmit inDev qIndex 1 s
    return { s with mmu := s.mmu.setResume (inDev, qIndex) }
  else some s

def switchNotifyDequeue (h : Held) (s : SwitchNode) : Option SwitchNode :=
  if h.qIndex = 0 then some s
  else do
    let inDev ← h.packet.flowId
    let s ← s.release h
    checkAndSendResume transmit inDev h.qIndex s

end

/-- `DequeueAndTransmit` of a switch. A PFC frame to resume may be sent before the packet that made
room for it. -/
def dequeueAndTransmit : Nat → Port → SwitchNode → Option SwitchNode
  | 0, _, _ => none
  | fuel + 1, port, s =>
    if !(s.devices port).linkUp || (s.devices port).currentPkt.isSome then some s
    else
      match s.dequeue port with
      | none => some s
      | some (h, s) => do
        let s ← switchNotifyDequeue (dequeueAndTransmit fuel) h s
        s.transmitStart port { h.packet with flowId := none }

/-! ## Admission and forwarding -/

/-- The queue of a packet. A priority group above 7 is out of the bounds of the arrays. -/
def qIndexOf (ch : CustomHeader) (s : SwitchNode) : Option Priority :=
  if ch.l3Prot = 0xFF ∨ ch.l3Prot = 0xFE ∨
      (s.ackHighPrio ∧ (ch.l3Prot = 0xFD ∨ ch.l3Prot = 0xFC)) then
    some 0
  else if ch.l3Prot = 0x06 then some 1
  else if h : ch.pg < 8 then some ⟨ch.pg, h⟩
  else none

/-- `UpdateIngressAdmission`, the new entry of `m_egress_lasts` and `UpdateEgressAdmission`. -/
def charge (inDev : Port) (h : Held) (s : SwitchNode) : SwitchNode :=
  { s with
    mmu := (s.mmu.updateIngressAdmission (inDev, h.qIndex) h.packet.size).updateEgressAdmission
      (h.port, h.qIndex) h.packet.size
    egressLasts := update s.egressLasts h.packet.ptr (some 1) }

/-- `m_bytes[inDev][idx][qIndex] += size`. -/
def countBytes (inDev : Port) (h : Held) (s : SwitchNode) : SwitchNode :=
  { s with
    bytes := update s.bytes (inDev, h.port, h.qIndex)
      (u32 (s.bytes (inDev, h.port, h.qIndex) + h.packet.size)) }

/-- A turn of the loop of `SendMultiToDevs` over the ports: a copy that is not admitted is not
sent. -/
def admitCopy (inDev : Port) (qIndex : Priority) (p : SwitchPacket) (s : SwitchNode × List Held)
    (idx : Nat) :
    Option (SwitchNode × List Held) := do
  let port ← toPort idx
  let h : Held := ⟨port, qIndex, { p with ptr := s.1.nextPtr }⟩
  if !(s.1.devices port).linkUp then none
  else if qIndex = 0 then some (s.1.alloc, s.2 ++ [h])
  else if !s.1.mmu.checkIngressAdmission (inDev, qIndex) p.size then some (s.1.alloc, s.2)
  else some ((s.1.alloc.charge inDev h).countBytes inDev h, s.2 ++ [h])

section
variable (transmit : Port → SwitchNode → Option SwitchNode) (ch : CustomHeader) (junk : UInt32)

def outDev (s : SwitchNode) : Option Nat :=
  getOutDev s.rtTable (fun ch => ecmpHash (ecmpKey ch junk) s.ecmpSeed) ch

def sendToDev (p : SwitchPacket) (s : SwitchNode) : Option SwitchNode :=
  match s.outDev ch junk with
  | none => some s
  | some idx => do
    let port ← toPort idx
    let qIndex ← s.qIndexOf ch
    let inDev ← p.flowId
    let h : Held := ⟨port, qIndex, p⟩
    if !(s.devices port).linkUp then none
    else if qIndex = 0 then switchSend transmit port qIndex p (s.countBytes inDev h)
    else if !s.mmu.checkIngressAdmission (inDev, qIndex) p.size then some s
    else do
      let s ← checkAndSendPfc transmit inDev qIndex (s.charge inDev h)
      switchSend transmit port qIndex p (s.countBytes inDev h)

def sendMultiToDevs (p : SwitchPacket) (inIface : Port) (s : SwitchNode) : Option SwitchNode :=
  match s.ogroups ch.dip with
  | none => some s
  | some group => do
    let qIndex ← s.qIndexOf ch
    let inDev ← p.flowId
    let (s, tosend) ← (multiPorts group s.uplink ch junk s.ecmpSeed inIface).foldlM
      (admitCopy inDev qIndex p) (s, [])
    let s ← (if qIndex = 0 then some s else checkAndSendPfc transmit inDev qIndex s)
    tosend.foldlM (fun s h => switchSend transmit h.port h.qIndex h.packet s) s

def switchReceiveFromDevice (p : SwitchPacket) (port : Port) (s : SwitchNode) : Option SwitchNode :=
  if p.multicast then sendMultiToDevs transmit ch junk p port s else sendToDev transmit ch junk p s

end
end SwitchNode

/-! ## Events -/

/-- What arrives at a port. The header of a PFC frame is read as `pfc`, and `corrupt` is what the
error model says. -/
structure Arrival where
  ch : CustomHeader
  size : Nat
  multicast : Bool := false
  pfc : PauseHeader := ⟨0, 0⟩
  corrupt : Bool := false
  junk : UInt32 := 0
  deriving DecidableEq, Repr

inductive SwitchEvent where
  | receive (port : Port) (arrival : Arrival)
  | transmitComplete (port : Port)

namespace SwitchNode

def setPaused (port : Port) (qIndex : Priority) (value : Bool) (s : SwitchNode) : SwitchNode :=
  s.setDevice port { s.devices port with paused := update (s.devices port).paused qIndex value }

section
variable (transmit : Port → SwitchNode → Option SwitchNode)

def resume (port : Port) (qIndex : Priority) (s : SwitchNode) : Option SwitchNode :=
  if (s.devices port).paused qIndex then transmit port (s.setPaused port qIndex false) else none

/-- `Receive`, of a new packet. -/
def receive (port : Port) (a : Arrival) (s : SwitchNode) : Option SwitchNode :=
  if !(s.devices port).linkUp || a.corrupt then some s
  else if a.ch.l3Prot = 0xFE then
    if !(s.devices port).qbbEnabled then some s
    else if a.pfc.time > 0 then some (s.setPaused port a.pfc.qIndex true)
    else resume transmit port a.pfc.qIndex s
  else
    switchReceiveFromDevice transmit a.ch a.junk
      { ptr := s.nextPtr, size := a.size, flowId := some port, multicast := a.multicast }
        port s.alloc

def transmitComplete (port : Port) (s : SwitchNode) : Option SwitchNode :=
  if (s.devices port).currentPkt.isSome then
    transmit port (s.setDevice port { s.devices port with currentPkt := none })
  else none

def onEvent : SwitchEvent → SwitchNode → Option SwitchNode
  | .receive port a => receive transmit port a
  | .transmitComplete port => transmitComplete transmit port

end

/-! ## What the functions do -/

section
variable {transmit : Port → SwitchNode → Option SwitchNode} {s s' : SwitchNode} {p : SwitchPacket}
  {port inDev : Port} {qIndex : Priority} {held : Held}

theorem checkAndSendPfc_cases (hs : checkAndSendPfc transmit inDev qIndex s = some s') :
    (s.mmu.checkShouldPause (inDev, qIndex) = true ∧
      ∃ t, sendPfc transmit inDev qIndex 0 s = some t ∧
      s' = { t with mmu := t.mmu.setPause (inDev, qIndex) }) ∨
    (s.mmu.checkShouldPause (inDev, qIndex) = false ∧ s' = s) := by
  unfold checkAndSendPfc at hs
  split at hs
  next hcheck =>
    obtain ⟨t, ht, hs⟩ := Option.bind_eq_some_iff.mp hs
    exact .inl ⟨hcheck, t, ht, (Option.some.inj hs).symm⟩
  next hcheck => exact .inr ⟨Bool.not_eq_true _ ▸ hcheck, (Option.some.inj hs).symm⟩

theorem checkAndSendResume_cases (hs : checkAndSendResume transmit inDev qIndex s = some s') :
    (s.mmu.checkShouldResume (inDev, qIndex) = true ∧
      ∃ t, sendPfc transmit inDev qIndex 1 s = some t ∧
      s' = { t with mmu := t.mmu.setResume (inDev, qIndex) }) ∨
    (s.mmu.checkShouldResume (inDev, qIndex) = false ∧ s' = s) := by
  unfold checkAndSendResume at hs
  split at hs
  next hcheck =>
    obtain ⟨t, ht, hs⟩ := Option.bind_eq_some_iff.mp hs
    exact .inl ⟨hcheck, t, ht, (Option.some.inj hs).symm⟩
  next hcheck => exact .inr ⟨Bool.not_eq_true _ ▸ hcheck, (Option.some.inj hs).symm⟩

theorem switchNotifyDequeue_cases (hs : switchNotifyDequeue transmit held s = some s') :
    (held.qIndex = 0 ∧ s' = s) ∨
    (held.qIndex ≠ 0 ∧ ∃ inDev t, held.packet.flowId = some inDev ∧ s.release held = some t ∧
      checkAndSendResume transmit inDev held.qIndex t = some s') := by
  unfold switchNotifyDequeue at hs
  split at hs
  next hq => exact .inl ⟨hq, (Option.some.inj hs).symm⟩
  next hq =>
    obtain ⟨inDev, hin, hs⟩ := Option.bind_eq_some_iff.mp hs
    obtain ⟨t, ht, hs⟩ := Option.bind_eq_some_iff.mp hs
    exact .inr ⟨hq, inDev, t, hin, ht, hs⟩

theorem transmitStart_cases (hs : transmitStart port p s = some s') :
    (s.devices port).currentPkt = none ∧
      s' = s.setDevice port { s.devices port with currentPkt := some p } := by
  unfold transmitStart at hs
  split at hs
  next => cases hs
  next hready =>
    exact ⟨by simpa using hready, (Option.some.inj hs).symm⟩

/-- A port that is down, busy, or has nothing that may be sent is left as it is. -/
theorem dequeueAndTransmit_cases {fuel : Nat}
    (hs : dequeueAndTransmit (fuel + 1) port s = some s') :
    s' = s ∨ ∃ held t u, s.dequeue port = some (held, t) ∧
      switchNotifyDequeue (dequeueAndTransmit fuel) held t = some u ∧
      u.transmitStart port { held.packet with flowId := none } = some s' := by
  unfold dequeueAndTransmit at hs
  split at hs
  next => exact .inl (Option.some.inj hs).symm
  next =>
    split at hs
    next => exact .inl (Option.some.inj hs).symm
    next held t hd =>
      obtain ⟨u, hu, hs⟩ := Option.bind_eq_some_iff.mp hs
      exact .inr ⟨held, t, u, hd, hu, hs⟩

/-- `SendToDev` does nothing with a packet that has no route or is not admitted. -/
theorem sendToDev_cases (hs : sendToDev transmit ch junk p s = some s') :
    s' = s ∨ ∃ port qIndex inDev, s.qIndexOf ch = some qIndex ∧ p.flowId = some inDev ∧
      ((qIndex = 0 ∧
          switchSend transmit port qIndex p (s.countBytes inDev ⟨port, qIndex, p⟩) = some s') ∨
        (qIndex ≠ 0 ∧ s.mmu.checkIngressAdmission (inDev, qIndex) p.size = true ∧ ∃ t,
          checkAndSendPfc transmit inDev qIndex (s.charge inDev ⟨port, qIndex, p⟩) = some t ∧
          switchSend transmit port qIndex p (t.countBytes inDev ⟨port, qIndex, p⟩) = some s')) := by
  unfold sendToDev at hs
  split at hs
  next => exact .inl (Option.some.inj hs).symm
  next idx _ =>
    obtain ⟨port, -, hs⟩ := Option.bind_eq_some_iff.mp hs
    obtain ⟨qIndex, hqIndex, hs⟩ := Option.bind_eq_some_iff.mp hs
    obtain ⟨inDev, hin, hs⟩ := Option.bind_eq_some_iff.mp hs
    dsimp only at hs
    split at hs
    · cases hs
    · split at hs
      next hq => exact .inr ⟨port, qIndex, inDev, hqIndex, hin, .inl ⟨hq, hs⟩⟩
      next hq =>
        split at hs
        next => exact .inl (Option.some.inj hs).symm
        next hcheck =>
          obtain ⟨t, ht, hs⟩ := Option.bind_eq_some_iff.mp hs
          have hadmit : s.mmu.checkIngressAdmission (inDev, qIndex) p.size = true := by
            simpa using hcheck
          exact .inr ⟨port, qIndex, inDev, hqIndex, hin, .inr ⟨hq, hadmit, t, ht, hs⟩⟩

/-- `SendMultiToDevs` does nothing with a packet of a group that the switch does not know. -/
theorem sendMultiToDevs_cases (hs : sendMultiToDevs transmit ch junk p port s = some s') :
    s' = s ∨ ∃ group qIndex inDev t tosend u, s.ogroups ch.dip = some group ∧
      s.qIndexOf ch = some qIndex ∧ p.flowId = some inDev ∧
      (multiPorts group s.uplink ch junk s.ecmpSeed port).foldlM
        (admitCopy inDev qIndex p) (s, []) = some (t, tosend) ∧
      ((qIndex = 0 ∧ u = t) ∨ (qIndex ≠ 0 ∧ checkAndSendPfc transmit inDev qIndex t = some u)) ∧
      tosend.foldlM (fun s h => switchSend transmit h.port h.qIndex h.packet s) u = some s' := by
  unfold sendMultiToDevs at hs
  split at hs
  next => exact .inl (Option.some.inj hs).symm
  next group hgroup =>
    obtain ⟨qIndex, hqIndex, hs⟩ := Option.bind_eq_some_iff.mp hs
    obtain ⟨inDev, hin, hs⟩ := Option.bind_eq_some_iff.mp hs
    obtain ⟨⟨t, tosend⟩, ht, hs⟩ := Option.bind_eq_some_iff.mp hs
    obtain ⟨u, hu, hs⟩ := Option.bind_eq_some_iff.mp hs
    refine .inr ⟨group, qIndex, inDev, t, tosend, u, hgroup, hqIndex, hin, ht, ?_, hs⟩
    split at hu
    next hq => exact .inl ⟨hq, (Option.some.inj hu).symm⟩
    next hq => exact .inr ⟨hq, hu⟩

/-- The PFC frames stay at the port; all other packets are new ones that are forwarded. -/
theorem receive_cases (hs : receive transmit port a s = some s') :
    s' = s ∨ s' = s.setPaused port a.pfc.qIndex true ∨
    transmit port (s.setPaused port a.pfc.qIndex false) = some s' ∨
    (a.multicast = true ∧ sendMultiToDevs transmit a.ch a.junk
      { ptr := s.nextPtr, size := a.size, flowId := some port, multicast := a.multicast }
      port s.alloc = some s') ∨
    (a.multicast = false ∧ sendToDev transmit a.ch a.junk
      { ptr := s.nextPtr, size := a.size, flowId := some port, multicast := a.multicast }
      s.alloc = some s') := by
  unfold receive at hs
  split at hs
  · exact .inl (Option.some.inj hs).symm
  · split at hs
    · split at hs
      · exact .inl (Option.some.inj hs).symm
      · split at hs
        · exact .inr (.inl (Option.some.inj hs).symm)
        · unfold resume at hs
          split at hs
          · exact .inr (.inr (.inl hs))
          · cases hs
    · unfold switchReceiveFromDevice at hs
      dsimp only at hs
      split at hs
      next hmulti => exact .inr (.inr (.inr (.inl ⟨hmulti, hs⟩)))
      next hmulti => exact .inr (.inr (.inr (.inr ⟨Bool.not_eq_true _ ▸ hmulti, hs⟩)))

theorem transmitComplete_eq (hs : transmitComplete transmit port s = some s') :
    transmit port (s.setDevice port { s.devices port with currentPkt := none }) = some s' := by
  unfold transmitComplete at hs
  split at hs
  · exact hs
  · cases hs

end

/-! ## More fuel -/

section
variable {f g : Port → SwitchNode → Option SwitchNode} {s s' : SwitchNode} {p : SwitchPacket}
  (hle : ∀ {port s s'}, f port s = some s' → g port s = some s')
include hle

theorem checkAndSendPfc_mono (hs : checkAndSendPfc f inDev qIndex s = some s') :
    checkAndSendPfc g inDev qIndex s = some s' := by
  unfold checkAndSendPfc at hs ⊢
  split at hs
  next hcheck =>
    rw [if_pos hcheck]
    exact bind_mono hle id hs
  next hcheck =>
    rw [if_neg hcheck]
    exact hs

theorem checkAndSendResume_mono (hs : checkAndSendResume f inDev qIndex s = some s') :
    checkAndSendResume g inDev qIndex s = some s' := by
  unfold checkAndSendResume at hs ⊢
  split at hs
  next hcheck =>
    rw [if_pos hcheck]
    exact bind_mono hle id hs
  next hcheck =>
    rw [if_neg hcheck]
    exact hs

theorem switchNotifyDequeue_mono (hs : switchNotifyDequeue f held s = some s') :
    switchNotifyDequeue g held s = some s' := by
  unfold switchNotifyDequeue at hs ⊢
  split at hs
  next hq =>
    rw [if_pos hq]
    exact hs
  next hq =>
    rw [if_neg hq]
    exact bind_mono id (bind_mono id (checkAndSendResume_mono hle)) hs

theorem sendToDev_mono (hs : sendToDev f ch junk p s = some s') :
    sendToDev g ch junk p s = some s' := by
  unfold sendToDev at hs ⊢
  split at hs
  next => exact hs
  next =>
    refine bind_mono id (bind_mono id (bind_mono id fun hs => ?_)) hs
    split at hs
    next hdown =>
      rw [if_pos hdown]
      exact hs
    next hdown =>
      rw [if_neg hdown]
      split at hs
      next hq =>
        rw [if_pos hq]
        exact hle hs
      next hq =>
        rw [if_neg hq]
        split at hs
        next hcheck =>
          rw [if_pos hcheck]
          exact hs
        next hcheck =>
          rw [if_neg hcheck]
          exact bind_mono (checkAndSendPfc_mono hle) hle hs

theorem sendMultiToDevs_mono (hs : sendMultiToDevs f ch junk p port s = some s') :
    sendMultiToDevs g ch junk p port s = some s' := by
  unfold sendMultiToDevs at hs ⊢
  split at hs
  next => exact hs
  next =>
    refine bind_mono id (bind_mono id (bind_mono id (bind_mono (fun hs => ?_)
      (foldlM_mono hle)))) hs
    split at hs
    next hq =>
      rw [if_pos hq]
      exact hs
    next hq =>
      rw [if_neg hq]
      exact checkAndSendPfc_mono hle hs

theorem receive_mono (hs : receive f port a s = some s') : receive g port a s = some s' := by
  unfold receive at hs ⊢
  split at hs
  next hdown =>
    rw [if_pos hdown]
    exact hs
  next hdown =>
    rw [if_neg hdown]
    split at hs
    next hpfc =>
      rw [if_pos hpfc]
      unfold resume at hs ⊢
      split_ifs at hs ⊢
      · exact hs
      · exact hs
      · exact hle hs
    next hpfc =>
      rw [if_neg hpfc]
      unfold switchReceiveFromDevice at hs ⊢
      split_ifs at hs ⊢
      · exact sendMultiToDevs_mono hle hs
      · exact sendToDev_mono hle hs

theorem onEvent_mono (hs : onEvent f e s = some s') : onEvent g e s = some s' := by
  cases e with
  | receive => exact receive_mono hle hs
  | transmitComplete =>
    dsimp only [onEvent] at hs ⊢
    unfold transmitComplete at hs ⊢
    split at hs
    next hbusy =>
      rw [if_pos hbusy]
      exact hle hs
    next => cases hs

end

theorem dequeueAndTransmit_mono {s s' : SwitchNode} (hle : fuel ≤ fuel')
    (hs : dequeueAndTransmit fuel port s = some s') :
    dequeueAndTransmit fuel' port s = some s' := by
  induction fuel generalizing fuel' port s s' with
  | zero => cases hs
  | succ fuel ih =>
    obtain ⟨fuel', rfl⟩ := Nat.exists_eq_add_one_of_ne_zero (Nat.ne_zero_of_lt hle)
    unfold dequeueAndTransmit at hs ⊢
    split at hs
    next hbusy =>
      rw [if_pos hbusy]
      exact hs
    next hbusy =>
      rw [if_neg hbusy]
      split at hs
      next => exact hs
      next => exact bind_mono (switchNotifyDequeue_mono (ih (Nat.le_of_succ_le_succ hle))) id hs

/-- What an event does, if the fuel is enough, does not depend on the fuel. -/
theorem onEvent_unique {s s₁ s₂ : SwitchNode} (h₁ : onEvent (dequeueAndTransmit m) e s = some s₁)
    (h₂ : onEvent (dequeueAndTransmit n) e s = some s₂) : s₁ = s₂ := by
  have h₁ := onEvent_mono (dequeueAndTransmit_mono (Nat.le_max_left m n)) h₁
  have h₂ := onEvent_mono (dequeueAndTransmit_mono (Nat.le_max_right m n)) h₂
  exact Option.some.inj (h₁.symm.trans h₂)

/-- A switch before the first packet, with any configuration. -/
structure Idle (s : SwitchNode) : Prop where
  mmu : ∃ cfg, s.mmu = { toMmuConfig := cfg }
  queues : ∀ port qIndex, (s.devices port).queue.queues qIndex = []
  bytesInQueueTotal : ∀ port, (s.devices port).queue.bytesInQueueTotal = 0
  paused : ∀ port qIndex, (s.devices port).paused qIndex = false
  currentPkt : ∀ port, (s.devices port).currentPkt = none
  bytes : s.bytes = fun _ => 0
  egressLasts : s.egressLasts = fun _ => none
  refused : s.refused = []
  dequeued : s.dequeued = []

/-- The runs of a switch. -/
def machine : Machine SwitchNode SwitchEvent where
  init := Idle
  step s e s' := ∃ fuel, onEvent (dequeueAndTransmit fuel) e s = some s'

end SwitchNode
end Roce
