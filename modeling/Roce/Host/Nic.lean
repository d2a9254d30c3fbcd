import Roce.Network.Ecmp
import Roce.QueuePair.ReliableRQ
import Roce.QueuePair.UnreliableService
import Roce.Switch.EgressQueue

/-! # The network card of a host

`RdmaEgressQueue` and the `QbbNetDevice` of a host: the queue of the ACKs, which goes first, and the
queue pairs, which take turns. -/

namespace Roce

open Function

/-- The send queue of a queue pair. None is ever marked as finished. -/
inductive SendQueue where
  | reliable (sq : RdmaReliableSQ)
  | unreliable (sq : RdmaUnreliableSQ)

namespace SendQueue

def base : SendQueue → RdmaTxQueuePair
  | reliable sq => sq.toRdmaTxQueuePair
  | unreliable sq => sq.toRdmaTxQueuePair

def getPg (qp : SendQueue) : Nat := qp.base.pg

def isReadyToSend (now : Nat) : SendQueue → Bool
  | reliable sq => sq.isReadyToSend now
  | unreliable sq => sq.isReadyToSend now

/-- `RdmaHw::UpdateNextAvail`. -/
def updateNextAvail (nextAvail : Nat) : SendQueue → SendQueue
  | reliable sq => .reliable { sq with nextAvail := nextAvail }
  | unreliable sq => .unreliable { sq with nextAvail := nextAvail }

@[simp] theorem getPg_updateNextAvail (qp : SendQueue) (t : Nat) :
    (qp.updateNextAvail t).getPg = qp.getPg := by
  cases qp <;> rfl

end SendQueue

/-- A packet that a host sends. -/
inductive NicPacket where
  | data (p : Packet)
  | ack (a : AckPacket)
  deriving DecidableEq, Repr

/-- What a switch reads from the headers. -/
def NicPacket.header : NicPacket → CustomHeader
  | data p => {
    sip := .ofNat p.ip.source, dip := .ofNat p.ip.destination, l3Prot := p.ip.protocol
    sport := .ofNat p.udp.sourcePort, dport := .ofNat p.udp.destinationPort, pg := p.seqTs.pg }
  | ack a => {
    sip := .ofNat a.source, dip := .ofNat a.destination, l3Prot := a.protocol
    sport := .ofNat a.sport, dport := .ofNat a.dport, pg := a.pg }

/-- What `GetNextQindex` finds. -/
inductive QIndex where
  | highPrio
  | qp (idx : Nat)
  deriving DecidableEq, Repr

/-- A `QbbNetDevice` of a host. It is `BUSY` while there is a current packet; `transmitting` has the
packets for which `TransmitComplete` is scheduled. -/
structure Nic where
  ackQ : List AckPacket := []
  qpGrp : List SendQueue := []
  rrlast : Nat := 0
  paused : Priority → Bool := fun _ => false
  currentPkt : Option NicPacket := none
  transmitting : List NicPacket := []
  linkUp : Bool := true
  qbbEnabled : Bool := false

namespace Nic

variable (nic : Nic)

/-- `DequeueAndTransmit` goes on: the link is up, and the state is `READY`. -/
def Ready : Prop := nic.linkUp = true ∧ nic.currentPkt = none

instance : Decidable nic.Ready := inferInstanceAs (Decidable (_ ∧ _))

/-- `m_paused[pg]`, of a priority within the bounds of the array. -/
def isPaused (pg : Nat) : Bool := if h : pg < 8 then nic.paused ⟨pg, h⟩ else false

/-- Whether a queue pair may send. -/
def maySend (now : Nat) (qp : SendQueue) : Bool := !nic.isPaused qp.getPg && qp.isReadyToSend now

/-- `GetNextQindex`. -/
def getNextQindex (ackQIdx : Priority) (now : Nat) : Option QIndex :=
  if !nic.paused ackQIdx && !nic.ackQ.isEmpty then some .highPrio
  else
    (((List.range' 1 nic.qpGrp.length).map fun i => (i + nic.rrlast) % nic.qpGrp.length).find?
      fun idx => nic.qpGrp[idx]?.any (nic.maySend now)).map .qp

/-- A queue pair of the group changes. -/
def setQp (idx : Nat) (qp : SendQueue) : Nic := { nic with qpGrp := nic.qpGrp.set idx qp }

/-- `TransmitStart`. -/
def transmitStart (p : NicPacket) : Nic :=
  { nic with currentPkt := some p, transmitting := nic.transmitting ++ [p] }

/-- `TransmitComplete`, up to `DequeueAndTransmit`. -/
def transmitComplete : Nic :=
  { nic with currentPkt := none, transmitting := nic.transmitting.tail }

/-- `m_rdmaPktSent`. -/
def pktSent (lastQp : Option Nat) (nextAvail : Nat) : Nic :=
  match lastQp with
  | none => nic
  | some idx => { nic with qpGrp := nic.qpGrp.modify idx (·.updateNextAvail nextAvail) }

def setPaused (qIndex : Priority) (value : Bool) : Nic :=
  { nic with paused := update nic.paused qIndex value }

end Nic

/-! ## The callback in `GetNextPacket` -/

namespace RdmaUnreliableSQ

/-- The request, the immediate value and the queue without the request, if `GetNextPacket` is going
to call `on_send`. -/
def completing (sq : RdmaUnreliableSQ) : Option (SendRequest × UInt32 × RdmaUnreliableSQ) :=
  match sq.toSend with
  | [] => none
  | work :: rest =>
    if (work.sr.payloadSize - work.bytesSent).toNat ≤ sq.mtu ∧ work.sr.onSend then
      some (work.sr, if work.fragmentAsImmediate then work.sentFragments else work.sr.imm,
        { sq with toSend := rest })
    else none

/-- What `GetNextPacket` does after the callback. -/
def completed (sq : RdmaUnreliableSQ) (sr : SendRequest) (imm : UInt32) :
    Packet × RdmaUnreliableSQ :=
  let p := sq.packetAt sr sr.payloadSize.toNat true imm
  (p, sq.advance p true)

/-- `GetNextPacket` is the part before the callback, the callback, and the part after it. -/
theorem getNextPacket_completing {sq sq' : RdmaUnreliableSQ}
    (h : sq.completing = some (sr, imm, sq')) (cb : Posts) :
    sq.getNextPacket cb = some ((sq'.callOnSend cb sr).completed sr imm) := by
  rw [completing] at h
  rw [getNextPacket]
  cases hsend : sq.toSend with
  | nil =>
    rw [hsend] at h
    cases h
  | cons work rest =>
    rw [hsend] at h
    dsimp only at h ⊢
    split at h
    next hlast =>
      cases h
      rw [if_neg (Nat.not_lt.mpr hlast.1), callOnSend_eq, hlast.2]
      rfl
    next => cases h

end RdmaUnreliableSQ
end Roce
