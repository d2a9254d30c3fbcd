import Roce.QueuePair.Request

/-! # `RdmaUnreliableSQ` and `RdmaUnreliableRQ`

The two ends of an unreliable queue pair (`rdma-unreliable-qp.cc`). A request larger than one MTU
is meant to be cut into fragments; the progress of the cut is kept in the `WorkElement` at the head
of the queue. The congestion notification of the receive queue (`SendEcn`) is never called and left
out. -/

namespace Roce

/-- `SendFlags`. -/
inductive SendFlags where
  | none
  | fragmentAsImmediate
  deriving DecidableEq, Repr

/-- The value of the enumerator. -/
def SendFlags.value : SendFlags → Nat
  | .none => 0
  | .fragmentAsImmediate => 1

/-- `RdmaUnreliableSQ::WorkElement`. -/
structure WorkElement where
  sr : SendRequest
  fragmentAsImmediate : Bool := false
  sentFragments : UInt32 := 0
  bytesSent : UInt32 := 0
  deriving DecidableEq, Repr

/-- A packet that left `GetNextPacket`, and whether that call called `on_send`. -/
structure Emission where
  packet : Packet
  called : Bool
  deriving DecidableEq, Repr

/-- The members of `RdmaUnreliableSQ`. The last two are a history that no function reads. -/
structure RdmaUnreliableSQ extends RdmaTxQueuePair where
  ipid : Nat := 0
  sndNxt : Nat := 0
  toSend : List WorkElement := []
  posted : List (SendRequest × SendFlags) := []
  sent : List Emission := []
  deriving DecidableEq, Repr

namespace RdmaUnreliableSQ

/-- `PostSend(sr, flags)`. The test of the flag is a bitwise or. -/
def postSend (s : RdmaUnreliableSQ) (sr : SendRequest) (flags : SendFlags) : RdmaUnreliableSQ :=
  let work : WorkElement :=
    { sr, fragmentAsImmediate := flags.value ||| SendFlags.fragmentAsImmediate.value ≠ 0 }
  { s with toSend := s.toSend ++ [work], posted := s.posted ++ [(sr, flags)] }

/-- `PostSend(sr)`. -/
def postSendDefault (s : RdmaUnreliableSQ) (sr : SendRequest) : RdmaUnreliableSQ :=
  s.postSend sr .none

/-- `HasDataToSend`. -/
def hasDataToSend (s : RdmaUnreliableSQ) : Bool := !s.toSend.isEmpty

/-- `IsReadyToSend`, at the time `now`. -/
def isReadyToSend (s : RdmaUnreliableSQ) (now : Nat) : Bool :=
  s.hasDataToSend && now ≥ s.nextAvail

/-- The requests that the `on_send` of a request posts. -/
abbrev Posts := SendRequest → List (SendRequest × SendFlags)

/-- The call of `on_send`, if it is set. -/
def callOnSend (s : RdmaUnreliableSQ) (cb : Posts) (sr : SendRequest) : RdmaUnreliableSQ :=
  if sr.onSend then (cb sr).foldl (fun s x => s.postSend x.1 x.2) s else s

/-- A callback that posts to other queue pairs leaves this one alone. -/
theorem callOnSend_nil (s : RdmaUnreliableSQ) (sr : SendRequest) :
    s.callOnSend (fun _ => []) sr = s := by
  unfold callOnSend
  split <;> rfl

/-- The packet of `size` bytes built for `sr`. -/
def packetAt (s : RdmaUnreliableSQ) (sr : SendRequest) (size : Nat) (notif : Bool)
    (imm : UInt32) : Packet where
  size := size
  seqTs := { seq := u32 s.sndNxt, pg := s.pg }
  udp := { sourcePort := s.sport, destinationPort := sr.dport }
  ip := {
    source := s.sip, destination := sr.dip, protocol := 0x11
    payloadSize := u16 (size + RdmaSeqHeader.headerSize + UdpHeader.headerSize)
    ttl := 64, tos := 0, identification := s.ipid }
  pppProtocol := 0x0021
  bth := {
    reliable := false, ackReq := false, multicast := sr.multicast, destQpKey := sr.dport
    notif := notif, imm := imm }

/-- The end of `GetNextPacket`: the update of the state. -/
def advance (s : RdmaUnreliableSQ) (p : Packet) (called : Bool) : RdmaUnreliableSQ :=
  { s with
    sndNxt := u64 (s.sndNxt + p.size)
    ipid := u16 (s.ipid + 1)
    sent := s.sent ++ [⟨p, called⟩] }

/-- `GetNextPacket`. Only the branch of a fragment that is not the last one sets the size of the
packet. -/
def getNextPacket (cb : Posts) (s : RdmaUnreliableSQ) : Option (Packet × RdmaUnreliableSQ) :=
  match s.toSend with
  | [] => none
  | work :: rest =>
    let sr := work.sr
    let imm := if work.fragmentAsImmediate then work.sentFragments else sr.imm
    let remBytes := sr.payloadSize - work.bytesSent
    if remBytes.toNat > s.mtu then
      let p := s.packetAt sr s.mtu work.fragmentAsImmediate imm
      let work := { work with
        bytesSent := work.bytesSent + UInt32.ofNat s.mtu
        sentFragments := work.sentFragments + 1 }
      some (p, { s with toSend := work :: rest }.advance p false)
    else
      let p := s.packetAt sr sr.payloadSize.toNat true imm
      some (p, ({ s with toSend := rest }.callOnSend cb sr).advance p sr.onSend)

/-- The immediate value of the next packet of `work`. -/
def nextImm (work : WorkElement) : UInt32 :=
  if work.fragmentAsImmediate then work.sentFragments else work.sr.imm

/-- What `GetNextPacket` hands out, and what it leaves: the first work element, advanced by a
fragment, or done with. -/
theorem getNextPacket_cases {s s' : RdmaUnreliableSQ} {cb : Posts}
    (h : s.getNextPacket cb = some (p, s')) : ∃ work rest, s.toSend = work :: rest ∧
      (s.mtu < (work.sr.payloadSize - work.bytesSent).toNat ∧
          p = s.packetAt work.sr s.mtu work.fragmentAsImmediate (nextImm work) ∧
          s' = { s with toSend := { work with
            bytesSent := work.bytesSent + UInt32.ofNat s.mtu
            sentFragments := work.sentFragments + 1 } :: rest }.advance p false ∨
        (work.sr.payloadSize - work.bytesSent).toNat ≤ s.mtu ∧
          p = s.packetAt work.sr work.sr.payloadSize.toNat true (nextImm work) ∧
          s' = ({ s with toSend := rest }.callOnSend cb work.sr).advance p work.sr.onSend) := by
  unfold getNextPacket at h
  split at h
  next => cases h
  next work rest hsend =>
    refine ⟨work, rest, hsend, ?_⟩
    dsimp only at h
    split at h
    next hgt =>
      cases h
      exact .inl ⟨hgt, rfl, rfl⟩
    next hle =>
      cases h
      exact .inr ⟨Nat.not_lt.mp hle, rfl, rfl⟩

end RdmaUnreliableSQ

/-- `RdmaRxQueuePair::RecvNotif`. -/
structure RecvNotif where
  packet : Packet
  hasImm : Bool
  imm : UInt32
  deriving DecidableEq, Repr

/-- `RdmaUnreliableRQ::ReceiveUdp`: the argument of the call of `m_onRecv`, if it is called. The
packet is one of an unreliable queue pair; otherwise an assertion fails. -/
def RdmaUnreliableRQ.receiveUdp (onRecv : Bool) (p : Packet) : Option (Option RecvNotif) :=
  if p.bth.reliable then none
  else if onRecv && p.bth.notif then some (some ⟨p, true, p.bth.imm⟩)
  else some none

end Roce
