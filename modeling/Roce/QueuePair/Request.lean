import Roce.Lib.Word

/-! # Send requests and packets

The requests posted to a queue pair (`rdma-queue-pair.h`), the `RdmaBTH` tag and the packets
the send queues build from them. Addresses, ports and priorities are carried, not computed
with. -/

namespace Roce

/-- `RdmaTxQueuePair::SendRequest`. Of the callback `on_send` only its presence is recorded:
what it does is chosen by the environment when it is called. -/
structure SendRequest where
  payloadSize : UInt32
  imm : UInt32 := 0
  multicast : Bool := false
  dip : Nat := 0
  dport : Nat := 0
  onSend : Bool := true
  firstPsn : Nat := 0
  deriving DecidableEq, Repr

/-- `SendRequest::GetEndPSN`. -/
def SendRequest.getEndPsn (sr : SendRequest) : Nat := u64 (sr.firstPsn + sr.payloadSize.toNat)

/-- What the callbacks post when they are called: the requests that the `on_send` of a
request hands to `PostSend`, in order. -/
abbrev Callbacks := SendRequest → List SendRequest

/-- `RdmaBTH`, with the defaults of the class. -/
structure RdmaBTH where
  reliable : Bool := true
  ackReq : Bool := false
  multicast : Bool := false
  notif : Bool := false
  imm : UInt32 := 0
  destQpKey : Nat := 0
  deriving DecidableEq, Repr

/-- `RdmaSeqHeader`. -/
structure RdmaSeqHeader where
  seq : Nat
  pg : Nat
  deriving DecidableEq, Repr

/-- `RdmaSeqHeader::GetHeaderSize`, with `IntHeader::mode == NONE`. -/
def RdmaSeqHeader.headerSize : Nat := 6

/-- The fields of `UdpHeader` that are set. -/
structure UdpHeader where
  sourcePort : Nat
  destinationPort : Nat
  deriving DecidableEq, Repr

def UdpHeader.headerSize : Nat := 8

/-- The fields of `Ipv4Header` that are set. -/
structure Ipv4Header where
  source : Nat
  destination : Nat
  protocol : Nat
  payloadSize : Nat
  ttl : Nat
  tos : Nat
  identification : Nat
  deriving DecidableEq, Repr

/-- A data packet as it leaves `GetNextPacket`: `size` bytes of payload behind the headers. -/
structure Packet where
  size : Nat
  seqTs : RdmaSeqHeader
  udp : UdpHeader
  ip : Ipv4Header
  pppProtocol : Nat
  bth : RdmaBTH
  deriving DecidableEq, Repr

/-- An ACK or a NACK as `RdmaReliableRQ::ReceiveUdp` builds it: the `qbbHeader`, the IP header
whose protocol tells them apart, and the tag. -/
structure AckPacket where
  seq : Nat
  pg : Nat
  sport : Nat
  dport : Nat
  cnp : Bool
  source : Nat
  destination : Nat
  protocol : Nat
  ttl : Nat := 64
  identification : Nat
  pppProtocol : Nat := 0x0021
  bth : RdmaBTH
  deriving DecidableEq, Repr

/-- The fields of `RdmaTxQueuePair` that the send queues read. -/
structure RdmaTxQueuePair where
  mtu : Nat
  sip : Nat := 0
  sport : Nat := 0
  pg : Nat := 0
  maxRate : Nat := 0
  rate : Nat := 0
  nextAvail : Nat := 0
  deriving DecidableEq, Repr

end Roce
