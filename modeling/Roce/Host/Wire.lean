import Roce.Host.Nic
import Roce.Lib.Bytes

/-! # Packets on the wire

The bytes of the packets that a host sends, with the tags that travel beside them: the headers as
they are serialized, `CustomHeader::Deserialize`, which reads all of them at once, and the mark of a
congested switch, which takes two of them off and puts them on again. `IntHeader::mode` is `NONE`,
so an `IntHeader` has no bytes. -/

namespace Roce

open Bytes

/-! ## The headers -/

/-- `PppHeader::Serialize`. -/
def PppHeader.serialize (protocol : Nat) : List UInt8 := be 2 protocol

/-- `Ipv4Header`, with the fields that no sender sets. -/
structure Ipv4Fields extends Ipv4Header where
  dontFragment : Bool := false
  moreFragments : Bool := false
  fragmentOffset : Nat := 0
  headerSize : Nat := 20
  deriving DecidableEq, Repr

namespace Ipv4Fields

/-- The byte of the flags and of the highest bits of the offset. -/
def flagsFrag (h : Ipv4Fields) : Nat :=
  h.fragmentOffset / 8 / 256 % 32 + h.dontFragment.toNat * 64 + h.moreFragments.toNat * 32

/-- `Ipv4Header::Serialize`, where no checksum is computed. -/
def serialize (h : Ipv4Fields) : List UInt8 :=
  be 1 0x45 ++ be 1 h.tos ++ be 2 (h.payloadSize + 20) ++ be 2 h.identification ++
    be 1 h.flagsFrag ++ be 1 (h.fragmentOffset / 8) ++ be 1 h.ttl ++ be 1 h.protocol ++ be 2 0 ++
    be 4 h.source ++ be 4 h.destination

/-- `Ipv4Header::Deserialize`, which refuses what is not IPv4. -/
def deserialize : Reader Ipv4Fields := do
  let verIhl ← readBe 1
  let headerSize := verIhl % 16 * 4
  if verIhl / 16 = 4 then
    let tos ← readBe 1
    let size ← readBe 2
    let identification ← readBe 2
    let flags ← readBe 1
    let frag ← readBe 1
    let ttl ← readBe 1
    let protocol ← readBe 1
    skip 2
    let source ← readBe 4
    let destination ← readBe 4
    return {
      source, destination, protocol, ttl, tos, identification, headerSize
      payloadSize := u16 (size + 2 ^ 16 - headerSize)
      dontFragment := flags / 64 % 2 = 1
      moreFragments := flags / 32 % 2 = 1
      fragmentOffset := (flags % 32 * 256 + frag) * 8 }
  else failure

/-- `SetEcn`. -/
def setEcn (h : Ipv4Fields) (ecn : Nat) : Ipv4Fields := { h with tos := h.tos &&& 0xFC ||| ecn }

end Ipv4Fields

/-- `UdpHeader::Serialize`, in front of a buffer of the given size. The length is that of all bytes
from the header on, and there is no checksum. -/
def UdpHeader.serialize (h : UdpHeader) (size : Nat) : List UInt8 :=
  be 2 h.sourcePort ++ be 2 h.destinationPort ++ be 2 (headerSize + size) ++ le 2 0

/-- `RdmaSeqHeader::Serialize`. -/
def RdmaSeqHeader.serialize (h : RdmaSeqHeader) : List UInt8 := be 4 h.seq ++ be 2 h.pg

/-- `flags` of a `qbbHeader`, where `FLAG_CNP` is the bit 0. -/
def AckPacket.flags (a : AckPacket) : Nat := a.cnp.toNat

/-- `qbbHeader::Serialize`. -/
def AckPacket.qbbHeader (a : AckPacket) : List UInt8 :=
  le 2 a.sport ++ le 2 a.dport ++ le 2 a.flags ++ le 2 a.pg ++ le 4 a.seq

namespace RdmaBTH

/-- `RdmaBTH::Serialize`. -/
def serialize (b : RdmaBTH) : List UInt8 :=
  le 1 (b.reliable.toNat + b.multicast.toNat * 2 + b.ackReq.toNat * 4 + b.notif.toNat * 8) ++
    le 4 b.imm.toNat ++ le 2 b.destQpKey

/-- `RdmaBTH::Deserialize`. -/
def deserialize : Reader RdmaBTH := do
  let payload ← readLe 1
  let imm ← readLe 4
  let key ← readLe 2
  return {
    reliable := payload % 2 = 1
    multicast := payload / 2 % 2 = 1
    ackReq := payload / 4 % 2 = 1
    notif := payload / 8 % 2 = 1
    imm := .ofNat imm
    destQpKey := key }

end RdmaBTH

/-! ## Packets -/

/-- The types of the tags in use. -/
inductive TagType where
  | rdmaBth
  | flowId
  deriving DecidableEq, Repr

/-- A packet as ns-3 stores it: the bytes of its buffer, and its tags with their bytes. -/
structure WirePacket where
  buffer : List UInt8
  tags : List (TagType × List UInt8) := []
  deriving DecidableEq, Repr

namespace WirePacket

variable (p : WirePacket)

def getSize : Nat := p.buffer.length

/-- `AddHeader`, of serialized headers. -/
def addHeader (header : List UInt8) : WirePacket := { p with buffer := header ++ p.buffer }

/-- `AddPacketTag`, with the assertion that there is no tag of this type yet. -/
def addPacketTag (type : TagType) (data : List UInt8) : Option WirePacket :=
  if p.tags.any (·.1 = type) then none else some { p with tags := (type, data) :: p.tags }

/-- `PeekPacketTag`. -/
def peekPacketTag (type : TagType) : Option (List UInt8) :=
  (p.tags.find? (·.1 = type)).map Prod.snd

/-- `RemovePacketTag`. -/
def removePacketTag (type : TagType) : WirePacket := { p with tags := p.tags.eraseP (·.1 = type) }

/-- The mark in `SwitchNotifyDequeue`. -/
def markCe : Option WirePacket := do
  let (ppp, buffer) ← readBe 2 p.buffer
  let (h, _) ← Ipv4Fields.deserialize buffer
  let p := { p with buffer := buffer.drop h.headerSize }
  return (p.addHeader (h.setEcn 0x03).serialize).addHeader (PppHeader.serialize ppp)

/-- A switch on the way of a packet: the device that receives it, and whether it marks. -/
structure Hop where
  inDev : Nat
  marks : Bool
  deriving DecidableEq, Repr

/-- The way through a switch: the tag with the incoming device is there only inside. -/
def throughSwitch (hop : Hop) : Option WirePacket := do
  let p ← p.addPacketTag .flowId (le 4 hop.inDev)
  let p ← if hop.marks then p.markCe else some p
  return p.removePacketTag .flowId

/-- The tag that a receiver reads. -/
def bth : Option RdmaBTH := do
  let data ← p.peekPacketTag .rdmaBth
  let (bth, _) ← RdmaBTH.deserialize data
  return bth

end WirePacket

/-- The IPv4 header of a data packet. -/
def Packet.ipFields (p : Packet) : Ipv4Fields := { p.ip with }

/-- The packet that `GetNextPacket` builds. -/
def Packet.wire (p : Packet) : Option WirePacket :=
  let w : WirePacket := { buffer := .replicate p.size 0 }
  let w := w.addHeader p.seqTs.serialize
  let w := w.addHeader (p.udp.serialize w.getSize)
  let w := w.addHeader p.ipFields.serialize
  let w := w.addHeader (PppHeader.serialize p.pppProtocol)
  w.addPacketTag .rdmaBth p.bth.serialize

/-- The padding of an ACK. -/
def AckPacket.payloadSize : Nat := 60 - 14 - 20 - 12

/-- The IPv4 header of an answer, in front of a buffer of the given size. -/
def AckPacket.ipFields (a : AckPacket) (size : Nat) : Ipv4Fields where
  source := a.source
  destination := a.destination
  protocol := a.protocol
  payloadSize := u16 size
  ttl := a.ttl
  tos := 0
  identification := a.identification

/-- The packet that `ReceiveUdp` builds as an answer. -/
def AckPacket.wire (a : AckPacket) : Option WirePacket :=
  let w : WirePacket := { buffer := .replicate AckPacket.payloadSize 0 }
  let w := w.addHeader a.qbbHeader
  let w := w.addHeader (a.ipFields w.getSize).serialize
  let w := w.addHeader (PppHeader.serialize a.pppProtocol)
  w.addPacketTag .rdmaBth a.bth.serialize

/-- `GetSize` of a packet of a host. -/
def NicPacket.getSize : NicPacket → Nat
  | .data p => p.wire.elim 0 WirePacket.getSize
  | .ack a => a.wire.elim 0 WirePacket.getSize

/-! ## `CustomHeader` -/

/-- The union of the headers above IPv4. -/
inductive L4Header where
  | udp (sport dport seq pg : Nat)
  | cnp (qIndex fid ecnBits qfb total : Nat)
  | ack (sport dport flags pg seq : Nat)
  | pfc (time qlen qIndex : Nat)
  | other
  deriving DecidableEq, Repr

/-- What `CustomHeader` reads of IPv4. -/
structure L3Header where
  tos : Nat
  ipid : Nat
  l3Prot : Nat
  sip : Nat
  dip : Nat
  deriving DecidableEq, Repr

/-- The fields of a `CustomHeader` with all layers, of which the brief form is read. -/
structure ParsedHeader extends L3Header where
  pppProto : Nat
  l4 : L4Header
  deriving DecidableEq, Repr

namespace CustomHeader

/-- The fields of IPv4, and `l3Size`. -/
def readL3 : Reader (Nat × L3Header) := do
  let verIhl ← readBe 1
  if verIhl / 16 = 4 then
    let tos ← readBe 1
    skip 2
    let ipid ← readBe 2
    skip 3
    let l3Prot ← readBe 1
    skip 2
    let sip ← readBe 4
    let dip ← readBe 4
    return (verIhl % 16 * 4, { tos, ipid, l3Prot, sip, dip })
  else failure

/-- UDP and the `RdmaSeqHeader`. -/
def readUdp : Reader L4Header := do
  let sport ← readBe 2
  let dport ← readBe 2
  skip 4
  let seq ← readBe 4
  let pg ← readBe 2
  return .udp sport dport seq pg

/-- The other protocols but TCP, which nothing sends. -/
def readL4 (l3Prot : Nat) : Reader L4Header := do
  if l3Prot = 0xFF then
    let qIndex ← readLe 1
    let fid ← readLe 2
    let ecnBits ← readLe 1
    let qfb ← readLe 2
    let total ← readLe 2
    return .cnp qIndex fid ecnBits qfb total
  else if l3Prot = 0xFC ∨ l3Prot = 0xFD then
    let sport ← readLe 2
    let dport ← readLe 2
    let flags ← readLe 2
    let pg ← readLe 2
    let seq ← readLe 4
    return .ack sport dport flags pg seq
  else if l3Prot = 0xFE then
    let time ← readLe 4
    let qlen ← readLe 4
    let qIndex ← readLe 1
    return .pfc time qlen qIndex
  else return .other

/-- `CustomHeader::Deserialize`, which refuses what is not IPv4. Only for UDP does it go back to the
start to find the place after IPv4. -/
def deserialize (start : List UInt8) : Option ParsedHeader := do
  let (pppProto, _) ← readBe 2 start
  let ((l3Size, l3), i) ← readL3 (start.drop 2)
  let (l4, _) ←
    if l3.l3Prot = 0x11 then readUdp (start.drop (2 + l3Size)) else readL4 l3.l3Prot i
  return { toL3Header := l3, pppProto, l4 }

end CustomHeader

namespace ParsedHeader

variable (ch : ParsedHeader)

/-- `CustomHeader::GetSerializedSize`. -/
def getSerializedSize : Nat :=
  2 + 20 +
    if ch.l3Prot = 0x11 then 8 + 2 + 4
    else if ch.l3Prot = 0xFC ∨ ch.l3Prot = 0xFD then 2 + 2 + 2 + 2 + 4
    else if ch.l3Prot = 0xFF then 8
    else if ch.l3Prot = 0xFE then 9
    else 0

/-- `GetIpv4EcnBits`. -/
def getIpv4EcnBits : Nat := ch.tos &&& 0x3

/-- What a switch reads of a data packet or an answer. -/
def header : CustomHeader :=
  match ch.l4 with
  | .udp sport dport _ pg | .ack sport dport _ pg _ => {
    sip := .ofNat ch.sip, dip := .ofNat ch.dip, l3Prot := ch.l3Prot
    sport := .ofNat sport, dport := .ofNat dport, pg }
  | _ => { sip := .ofNat ch.sip, dip := .ofNat ch.dip, l3Prot := ch.l3Prot }

end ParsedHeader

/-! ## The mark -/

namespace Ipv4Fields

/-- What is left of a header when its fields are cut to their widths. -/
def cut (h : Ipv4Fields) : Ipv4Fields where
  source := h.source % 256 ^ 4
  destination := h.destination % 256 ^ 4
  protocol := h.protocol % 256 ^ 1
  payloadSize := u16 h.payloadSize
  ttl := h.ttl % 256 ^ 1
  tos := h.tos % 256 ^ 1
  identification := h.identification % 256 ^ 2
  dontFragment := h.dontFragment
  moreFragments := h.moreFragments
  fragmentOffset := (h.fragmentOffset / 8 / 256 % 32 * 256 + h.fragmentOffset / 8 % 256) * 8

/-- The byte of the flags holds the flags and the highest bits of the offset. -/
theorem flagsFrag_spec (h : Ipv4Fields) :
    h.flagsFrag % 256 % 32 = h.fragmentOffset / 8 / 256 % 32 ∧
      decide (h.flagsFrag % 256 / 64 % 2 = 1) = h.dontFragment ∧
      decide (h.flagsFrag % 256 / 32 % 2 = 1) = h.moreFragments := by
  unfold flagsFrag
  generalize h.fragmentOffset / 8 / 256 = high
  cases h.dontFragment <;> cases h.moreFragments <;> simp only [Bool.toNat, cond] <;>
    refine ⟨by omega, ?_, ?_⟩ <;> simp <;> omega

theorem deserialize_serialize (h : Ipv4Fields) (rest : List UInt8) :
    deserialize (h.serialize ++ rest) = some (h.cut, rest) := by
  simp only [serialize, List.append_assoc, deserialize]
  rw [readBe_bind, if_pos (by decide)]
  simp only [readBe_bind, skip_bind length_be]
  obtain ⟨hoffset, hdont, hmore⟩ := h.flagsFrag_spec
  have hsize : u16 ((h.payloadSize + 20) % 256 ^ 2 + 2 ^ 16 - 69 % 256 ^ 1 % 16 * 4) =
      u16 h.payloadSize := by
    unfold u16
    omega
  rw [hsize, Nat.pow_one, hoffset, hdont, hmore]
  rfl

/-- What is cut off is not serialized, and the highest bits of the offset are the same. -/
theorem serialize_setEcn_cut (h : Ipv4Fields) (htos : h.tos < 256) (ecn : Nat) :
    (h.cut.setEcn ecn).serialize = (h.setEcn ecn).serialize := by
  have hpayload : be 2 (u16 h.payloadSize + 20) = be 2 (h.payloadSize + 20) := by
    refine be_congr ?_
    unfold u16
    omega
  have hhigh : (h.cut.setEcn ecn).flagsFrag = (h.setEcn ecn).flagsFrag := by
    simp only [flagsFrag, setEcn, cut]
    omega
  have hlow : be 1 (((h.fragmentOffset / 8 / 256 % 32 * 256 +
    h.fragmentOffset / 8 % 256) * 8) / 8) =
      be 1 (h.fragmentOffset / 8) := by
    refine be_congr ?_
    omega
  have htos : h.tos % 256 ^ 1 = h.tos := Nat.mod_eq_of_lt htos
  simp only [serialize, hhigh]
  simp only [setEcn, cut, hpayload, hlow, htos, be_mod]

end Ipv4Fields

/-- A packet with its two outer headers. -/
def onWire (ppp : Nat) (h : Ipv4Fields) (payload : List UInt8) : List UInt8 :=
  PppHeader.serialize ppp ++ (h.serialize ++ payload)

theorem Ipv4Fields.length_serialize (h : Ipv4Fields) : h.serialize.length = 20 := by
  simp [serialize]

def Ipv4Fields.withTos (h : Ipv4Fields) (tos : Nat) : Ipv4Fields := { h with tos }

namespace WirePacket

variable {h : Ipv4Fields} {payload : List UInt8}

/-- **The mark** changes the two bits of the ECN, and nothing else. -/
theorem markCe_onWire (tags : List (TagType × List UInt8)) (htos : h.tos < 256) :
    markCe ⟨onWire ppp h payload, tags⟩ = some ⟨onWire ppp (h.setEcn 0x03) payload, tags⟩ := by
  have hppp : readBe 2 (onWire ppp h payload) = some (ppp % 256 ^ 2, h.serialize ++ payload) :=
    readBe_be
  have hdrop : (h.serialize ++ payload).drop h.cut.headerSize = payload :=
    List.drop_left' h.length_serialize
  rw [markCe, hppp]
  simp only [Option.bind_eq_bind, Option.bind_some, h.deserialize_serialize payload, addHeader,
    hdrop, h.serialize_setEcn_cut htos]
  rw [PppHeader.serialize, be_mod]
  rfl

/-- A switch leaves the tags of the sender, and of the headers at most the ECN changes. -/
theorem throughSwitch_onWire (hop : Hop) (data : List UInt8) (htos : h.tos < 256) :
    throughSwitch ⟨onWire ppp h payload, [(.rdmaBth, data)]⟩ hop =
      some ⟨onWire ppp (if hop.marks then h.setEcn 0x03 else h) payload, [(.rdmaBth, data)]⟩ := by
  have hadd (buffer : List UInt8) :
      addPacketTag ⟨buffer, [(.rdmaBth, data)]⟩ .flowId (le 4 hop.inDev) =
        some ⟨buffer, [(.flowId, le 4 hop.inDev), (.rdmaBth, data)]⟩ := rfl
  rw [throughSwitch, hadd]
  cases hop.marks with
  | false => rfl
  | true =>
    have hmark : markCe ⟨onWire ppp h payload, [(.flowId, le 4 hop.inDev), (.rdmaBth, data)]⟩ =
        some ⟨onWire ppp (h.setEcn 0x03) payload, _⟩ := markCe_onWire _ htos
    simp only [Option.bind_eq_bind, Option.bind_some, ↓reduceIte, hmark]
    rfl

theorem setEcn_ce (htos : h.tos = 0 ∨ h.tos = 3) : h.setEcn 0x03 = h.withTos 3 := by
  unfold Ipv4Fields.setEcn Ipv4Fields.withTos
  rcases htos with htos | htos
  · rw [htos]
    rfl
  · rw [htos]
    rfl

/-- The way of a packet: it is marked from the first mark on. -/
theorem throughSwitches (hops : List Hop) (data : List UInt8) (htos : h.tos = 0 ∨ h.tos = 3) :
    hops.foldlM throughSwitch ⟨onWire ppp h payload, [(.rdmaBth, data)]⟩ =
      some ⟨onWire ppp (h.withTos (if hops.any (·.marks) then 3 else h.tos)) payload,
        [(.rdmaBth, data)]⟩ := by
  induction hops generalizing h with
  | nil => rfl
  | cons hop hops ih =>
    have hlt : h.tos < 256 := by rcases htos with htos | htos <;> omega
    rw [List.foldlM_cons, throughSwitch_onWire hop data hlt, List.any_cons]
    cases hop.marks with
    | false => exact ih htos
    | true =>
      rw [if_pos rfl, setEcn_ce htos]
      have htos' : (h.withTos 3).tos = 3 := rfl
      refine (ih (.inr htos')).trans ?_
      rw [htos', ite_self]
      rfl

end WirePacket

/-! ## The decoder reads what was encoded -/

namespace CustomHeader

theorem readL3_serialize (h : Ipv4Fields) (rest : List UInt8) :
    readL3 (h.serialize ++ rest) = some ((20, {
      tos := h.tos % 256 ^ 1, ipid := h.identification % 256 ^ 2, l3Prot := h.protocol % 256 ^ 1
      sip := h.source % 256 ^ 4, dip := h.destination % 256 ^ 4 }), rest) := by
  have hskip : skip 3 = skip (1 + (1 + 1)) := rfl
  simp only [Ipv4Fields.serialize, List.append_assoc, readL3]
  rw [readBe_bind, if_pos (by decide), hskip]
  simp only [readBe_bind, skip_be_bind, skip_bind length_be]
  rfl

theorem readUdp_serialize (udp : UdpHeader) (size : Nat) (seqTs : RdmaSeqHeader)
    (rest : List UInt8) : readUdp (udp.serialize size ++ (seqTs.serialize ++ rest)) =
      some (.udp (udp.sourcePort % 256 ^ 2) (udp.destinationPort % 256 ^ 2) (seqTs.seq % 256 ^ 4)
        (seqTs.pg % 256 ^ 2), rest) := by
  have hskip : skip 4 = skip (2 + 2) := rfl
  simp only [UdpHeader.serialize, RdmaSeqHeader.serialize, List.append_assoc, readUdp]
  rw [hskip]
  simp only [readBe_bind, skip_be_bind, skip_bind length_le]
  rfl

theorem readL4_qbbHeader (a : AckPacket) {prot : Nat} (hprot : prot = 0xFC ∨ prot = 0xFD)
    (rest : List UInt8) : readL4 prot (a.qbbHeader ++ rest) =
      some (.ack (a.sport % 256 ^ 2) (a.dport % 256 ^ 2) (a.flags % 256 ^ 2) (a.pg % 256 ^ 2)
        (a.seq % 256 ^ 4), rest) := by
  have hcnp : prot ≠ 0xFF := by omega
  simp only [AckPacket.qbbHeader, List.append_assoc, readL4, if_neg hcnp, if_pos hprot, readLe_bind]
  rfl

/-- The whole header, where the last layer is read at its place. -/
theorem deserialize_onWire {h : Ipv4Fields} {payload : List UInt8}
    (hl4 : (if h.protocol % 256 ^ 1 = 0x11 then readUdp payload
      else readL4 (h.protocol % 256 ^ 1) payload) = some (l4, rest)) :
    deserialize (onWire ppp h payload) = some {
      tos := h.tos % 256 ^ 1, ipid := h.identification % 256 ^ 2, l3Prot := h.protocol % 256 ^ 1
      sip := h.source % 256 ^ 4, dip := h.destination % 256 ^ 4, pppProto := ppp % 256 ^ 2
      l4 } := by
  have hppp : readBe 2 (onWire ppp h payload) = some (ppp % 256 ^ 2, h.serialize ++ payload) :=
    readBe_be
  have hl3 : (onWire ppp h payload).drop 2 = h.serialize ++ payload := List.drop_left' length_be
  have hstart : (onWire ppp h payload).drop (2 + 20) = payload := by
    rw [← List.drop_drop, hl3, List.drop_left' h.length_serialize]
  rw [deserialize, hppp, hl3]
  simp only [Option.bind_eq_bind, Option.bind_some, readL3_serialize, hstart]
  split at hl4
  next hudp =>
    rw [if_pos hudp, hl4]
    rfl
  next hudp =>
    rw [if_neg hudp, hl4]
    rfl

end CustomHeader

theorem RdmaBTH.deserialize_serialize (b : RdmaBTH) (rest : List UInt8) :
    deserialize (b.serialize ++ rest) = some ({ b with destQpKey := u16 b.destQpKey }, rest) := by
  simp only [serialize, List.append_assoc, deserialize, readLe_bind]
  obtain ⟨reliable, ackReq, multicast, notif, imm, destQpKey⟩ := b
  have himm : UInt32.ofNat (imm.toNat % 256 ^ 4) = imm := by
    rw [← UInt32.toNat_inj, UInt32.toNat_ofNat']
    have := imm.toNat_lt
    omega
  rw [himm]
  cases reliable <;> cases ackReq <;> cases multicast <;> cases notif <;> simp [u16] <;> rfl

/-- A receiver decodes these fields whatever switches the packet passes, it finds the payload to be
of this size, and it reads this tag; and the ECN bits are those of CE if and only if a switch
marked. -/
def Decodes (sent : Option WirePacket) (sip dip l3Prot : Nat) (l4 : L4Header) (size : Nat)
    (bth : RdmaBTH) : Prop :=
  ∀ hops : List WirePacket.Hop, ∃ w ch,
    (sent >>= fun w => hops.foldlM WirePacket.throughSwitch w) = some w ∧
    CustomHeader.deserialize w.buffer = some ch ∧
    ch.sip = sip ∧ ch.dip = dip ∧ ch.l3Prot = l3Prot ∧ ch.l4 = l4 ∧
    (ch.getIpv4EcnBits = 0x3 ↔ ∃ hop ∈ hops, hop.marks = true) ∧
    w.getSize = ch.getSerializedSize + size ∧ w.bth = some bth

/-- What is common to data packets and answers: the sizes of the last layer agree. -/
theorem decodes_onWire {h : Ipv4Fields} {l4Bytes payload : List UInt8}
    (hsource : h.source < 2 ^ 32) (hdest : h.destination < 2 ^ 32) (hkey : b.destQpKey < 2 ^ 16)
    (hprot : h.protocol < 256) (htos : h.tos = 0)
    (hl4 : (if h.protocol = 0x11 then CustomHeader.readUdp (l4Bytes ++ payload)
      else CustomHeader.readL4 h.protocol (l4Bytes ++ payload)) = some (l4, payload))
    (hsize : ∀ ch : ParsedHeader, ch.l3Prot = h.protocol →
      ch.getSerializedSize = 2 + 20 + l4Bytes.length) :
    Decodes (some ⟨onWire ppp h (l4Bytes ++ payload), [(.rdmaBth, b.serialize)]⟩)
      h.source h.destination h.protocol l4 payload.length b := by
  intro hops
  have hway : hops.foldlM WirePacket.throughSwitch ⟨onWire ppp h (l4Bytes ++ payload), _⟩ = _ :=
    WirePacket.throughSwitches hops b.serialize (.inl htos)
  have hmod : h.protocol % 256 ^ 1 = h.protocol := Nat.mod_eq_of_lt hprot
  have hl4 : (if (h.withTos (if hops.any (·.marks) then 3 else h.tos)).protocol % 256 ^ 1 = 0x11
      then CustomHeader.readUdp (l4Bytes ++ payload)
      else CustomHeader.readL4 (h.protocol % 256 ^ 1) (l4Bytes ++ payload)) =
        some (l4, payload) := by
    simpa only [Ipv4Fields.withTos, hmod] using hl4
  have hch : CustomHeader.deserialize (onWire ppp _ (l4Bytes ++ payload)) = _ :=
    CustomHeader.deserialize_onWire hl4
  refine ⟨_, _, hway, hch, Nat.mod_eq_of_lt hsource, Nat.mod_eq_of_lt hdest, hmod, rfl, ?_, ?_, ?_⟩
  · have hany : hops.any (·.marks) = true ↔ ∃ hop ∈ hops, hop.marks = true := List.any_eq_true
    rw [← hany, ParsedHeader.getIpv4EcnBits]
    cases hops.any (·.marks) <;> simp [Ipv4Fields.withTos, htos]
  · rw [hsize _ hmod, WirePacket.getSize, onWire, PppHeader.serialize]
    simp only [List.length_append, length_be, Ipv4Fields.length_serialize]
    omega
  · have hbth := b.deserialize_serialize []
    have hcut : u16 b.destQpKey = b.destQpKey := Nat.mod_eq_of_lt hkey
    rw [List.append_nil, hcut] at hbth
    show (RdmaBTH.deserialize b.serialize >>= fun x => some x.1) = some b
    rw [hbth]
    rfl

/-- The fields of a data packet have values of their types. -/
structure Packet.Typed (p : Packet) : Prop where
  source : p.ip.source < 2 ^ 32
  destination : p.ip.destination < 2 ^ 32
  sourcePort : p.udp.sourcePort < 2 ^ 16
  destinationPort : p.udp.destinationPort < 2 ^ 16
  pg : p.seqTs.pg < 2 ^ 16
  key : p.bth.destQpKey < 2 ^ 16

theorem mod_two_bytes (h : n < 2 ^ 16) : n % 256 ^ 2 = n := Nat.mod_eq_of_lt h

/-- A data packet of UDP that is not marked when it is sent. -/
theorem Packet.decodes {p : Packet} (h : p.Typed) (hprot : p.ip.protocol = 0x11)
    (htos : p.ip.tos = 0) : Decodes p.wire p.ip.source p.ip.destination 0x11
      (.udp p.udp.sourcePort p.udp.destinationPort (u32 p.seqTs.seq) p.seqTs.pg) p.size p.bth := by
  have hwire : p.wire = some ⟨onWire p.pppProtocol p.ipFields
      ((p.udp.serialize (p.seqTs.serialize ++ .replicate p.size 0).length ++ p.seqTs.serialize) ++
        .replicate p.size 0), [(.rdmaBth, p.bth.serialize)]⟩ := by
    rw [List.append_assoc]
    rfl
  have hl4 := CustomHeader.readUdp_serialize p.udp
    (p.seqTs.serialize ++ .replicate p.size 0).length p.seqTs (.replicate p.size 0)
  rw [mod_two_bytes h.sourcePort, mod_two_bytes h.destinationPort, mod_two_bytes h.pg,
    ← List.append_assoc] at hl4
  have hdecodes : Decodes (some ⟨onWire p.pppProtocol p.ipFields _, _⟩) _ _ _ _ _ _ :=
    decodes_onWire h.source h.destination h.key (hprot.trans_lt (by decide)) htos
      ((if_pos hprot).trans hl4) fun ch hch => by
        rw [ParsedHeader.getSerializedSize, if_pos (hch.trans hprot)]
        simp [UdpHeader.serialize, RdmaSeqHeader.serialize]
  rw [hwire, ← hprot]
  rwa [List.length_replicate] at hdecodes

/-- The fields of an answer have values of their types. -/
structure AckPacket.Typed (a : AckPacket) : Prop where
  source : a.source < 2 ^ 32
  destination : a.destination < 2 ^ 32
  sport : a.sport < 2 ^ 16
  dport : a.dport < 2 ^ 16
  pg : a.pg < 2 ^ 16
  key : a.bth.destQpKey < 2 ^ 16

theorem AckPacket.decodes {a : AckPacket} (h : a.Typed)
    (hprot : a.protocol = 0xFC ∨ a.protocol = 0xFD) :
    Decodes a.wire a.source a.destination a.protocol
      (.ack a.sport a.dport a.cnp.toNat a.pg (u32 a.seq)) AckPacket.payloadSize a.bth := by
  have hwire : a.wire = some ⟨onWire a.pppProtocol
      (a.ipFields (a.qbbHeader ++ .replicate AckPacket.payloadSize 0).length)
      (a.qbbHeader ++ .replicate AckPacket.payloadSize 0), [(.rdmaBth, a.bth.serialize)]⟩ := rfl
  have hl4 := CustomHeader.readL4_qbbHeader a hprot (.replicate AckPacket.payloadSize 0)
  have hflags : a.flags % 256 ^ 2 = a.cnp.toNat := by
    unfold AckPacket.flags
    cases a.cnp
    · rfl
    · rfl
  rw [mod_two_bytes h.sport, mod_two_bytes h.dport, mod_two_bytes h.pg, hflags] at hl4
  have hudp : a.protocol ≠ 0x11 := by omega
  have hlen : a.qbbHeader.length = 12 := by simp [AckPacket.qbbHeader]
  have hdecodes : Decodes (some ⟨onWire a.pppProtocol
      (a.ipFields (a.qbbHeader ++ .replicate AckPacket.payloadSize 0).length) _, _⟩) _ _ _ _ _ _ :=
    decodes_onWire h.source h.destination h.key (by show a.protocol < 256; omega) rfl
      ((if_neg hudp).trans hl4) fun ch hch => by
        have hch : ch.l3Prot = a.protocol := hch
        rw [ParsedHeader.getSerializedSize, hch, if_neg hudp, if_pos hprot, hlen]
  rw [hwire]
  rwa [List.length_replicate] at hdecodes

/-- A switch reads a data packet as `NicPacket.header` has it, whatever it passed before. -/
theorem Packet.header_wire {p : Packet} (h : p.Typed) (hprot : p.ip.protocol = 0x11)
    (htos : p.ip.tos = 0) (hops : List WirePacket.Hop) : ∃ w ch,
      (p.wire >>= fun w => hops.foldlM WirePacket.throughSwitch w) = some w ∧
      CustomHeader.deserialize w.buffer = some ch ∧ ch.header = (NicPacket.data p).header := by
  obtain ⟨w, ch, hw, hch, hsip, hdip, hl3, hl4, -⟩ := p.decodes h hprot htos hops
  refine ⟨w, ch, hw, hch, ?_⟩
  rw [ParsedHeader.header, hl4, hsip, hdip, hl3, ← hprot]
  rfl

theorem AckPacket.header_wire {a : AckPacket} (h : a.Typed)
    (hprot : a.protocol = 0xFC ∨ a.protocol = 0xFD) (hops : List WirePacket.Hop) : ∃ w ch,
      (a.wire >>= fun w => hops.foldlM WirePacket.throughSwitch w) = some w ∧
      CustomHeader.deserialize w.buffer = some ch ∧ ch.header = (NicPacket.ack a).header := by
  obtain ⟨w, ch, hw, hch, hsip, hdip, hl3, hl4, -⟩ := a.decodes h hprot hops
  refine ⟨w, ch, hw, hch, ?_⟩
  rw [ParsedHeader.header, hl4, hsip, hdip, hl3]
  rfl

/-! ## The packets that a host builds -/

theorem RdmaReliableSQ.getNextPacket_packetAt {s s' : RdmaReliableSQ}
    (h : s.getNextPacket = some (p, s')) : ∃ sr size, p = s.packetAt sr size := by
  obtain ⟨_, sr, size, _, -, hp, -⟩ := getNextPacket_cases h
  exact ⟨sr, size, hp⟩

theorem RdmaUnreliableSQ.getNextPacket_packetAt {s s' : RdmaUnreliableSQ} {cb : Posts}
    (h : s.getNextPacket cb = some (p, s')) :
    ∃ work ∈ s.toSend.head?, ∃ size notif imm, p = s.packetAt work.sr size notif imm := by
  obtain ⟨work, rest, hsend, ⟨-, hp, -⟩ | ⟨-, hp, -⟩⟩ := getNextPacket_cases h
  · exact ⟨work, by rw [hsend]; rfl, _, _, _, hp⟩
  · exact ⟨work, by rw [hsend]; rfl, _, _, _, hp⟩

/-- The members of a reliable send queue have values of their types. -/
structure RdmaReliableSQ.Typed (s : RdmaReliableSQ) : Prop where
  sip : s.sip < 2 ^ 32
  dip : s.dip < 2 ^ 32
  sport : s.sport < 2 ^ 16
  dport : s.dport < 2 ^ 16
  pg : s.pg < 2 ^ 16

theorem RdmaReliableSQ.Typed.packet {s : RdmaReliableSQ} (h : s.Typed) (sr : SendRequest)
    (size : Nat) : (s.packetAt sr size).Typed := by
  refine ⟨h.sip, h.dip, h.sport, h.dport, h.pg, ?_⟩
  show (s.bthAt sr s.sndNxt size).destQpKey < 2 ^ 16
  unfold bthAt
  split
  · exact h.dport
  · exact h.dport

/-- The members of an unreliable send queue and of its requests have values of their types. -/
structure RdmaUnreliableSQ.Typed (s : RdmaUnreliableSQ) : Prop where
  sip : s.sip < 2 ^ 32
  sport : s.sport < 2 ^ 16
  pg : s.pg < 2 ^ 16
  requests : ∀ work ∈ s.toSend, work.sr.dip < 2 ^ 32 ∧ work.sr.dport < 2 ^ 16

theorem u32_u32 (n : Nat) : u32 (u32 n) = u32 n := Nat.mod_mod ..

/-- **Encoders and decoder agree**: whatever switches a data packet or an answer passes and
whichever of them mark it, the receiver reads what the sender put in, and the mark if there was
one. -/
theorem packets_decode :
    (∀ (s s' : RdmaReliableSQ) p, s.Typed → s.getNextPacket = some (p, s') →
      Decodes p.wire s.sip s.dip 0x11 (.udp s.sport s.dport (u32 s.sndNxt) s.pg) p.size p.bth) ∧
    (∀ (s s' : RdmaUnreliableSQ) cb p, s.Typed → s.getNextPacket cb = some (p, s') →
      ∃ work ∈ s.toSend.head?, Decodes p.wire s.sip work.sr.dip 0x11
        (.udp s.sport work.sr.dport (u32 s.sndNxt) s.pg) p.size p.bth) ∧
    ∀ (rq rq' : RdmaReliableRQ) now ecnbits p a, p.Typed →
      rq.receiveUdp now ecnbits p = some (some a, rq') →
      Decodes a.wire p.ip.destination p.ip.source a.protocol
        (.ack p.udp.destinationPort p.udp.sourcePort a.cnp.toNat p.seqTs.pg (u32 a.seq))
        AckPacket.payloadSize a.bth := by
  refine ⟨fun s s' p hs hp => ?_, fun s s' cb p hs hp => ?_, fun rq rq' now ecnbits p a hp ha => ?_⟩
  · obtain ⟨sr, size, rfl⟩ := RdmaReliableSQ.getNextPacket_packetAt hp
    have hdecodes := Packet.decodes (hs.packet sr size) rfl rfl
    rwa [show u32 (s.packetAt sr size).seqTs.seq = u32 s.sndNxt from u32_u32 _] at hdecodes
  · obtain ⟨work, hwork, size, notif, imm, rfl⟩ := RdmaUnreliableSQ.getNextPacket_packetAt hp
    obtain ⟨hdip, hdport⟩ := hs.requests work (List.mem_of_head? hwork)
    have htyped : (s.packetAt work.sr size notif imm).Typed :=
      ⟨hs.sip, hdip, hs.sport, hdport, hs.pg, hdport⟩
    have hdecodes := Packet.decodes htyped rfl rfl
    rw [show u32 (s.packetAt work.sr size notif imm).seqTs.seq = u32 s.sndNxt from u32_u32 _]
      at hdecodes
    exact ⟨work, hwork, hdecodes⟩
  · obtain ⟨rq, x, rfl⟩ := RdmaReliableRQ.receiveUdp_ackPacket ha
    have htyped : (rq.ackPacket p ecnbits x).Typed :=
      ⟨hp.destination, hp.source, hp.destinationPort, hp.sourcePort, hp.pg, hp.sourcePort⟩
    refine AckPacket.decodes htyped ?_
    show (if x = .ack then 0xFC else 0xFD) = 0xFC ∨ (if x = .ack then 0xFC else 0xFD) = 0xFD
    split
    · exact .inl rfl
    · exact .inr rfl

/-- A request of three bytes. -/
def RdmaReliableSQ.threeBytes : RdmaReliableSQ :=
  postSend { mtu := 10, sip := 1, dip := 2, sport := 100, dport := 101, pg := 3 }
    { payloadSize := 3 }

/-- Its packet. -/
def Packet.threeBytes : Packet := RdmaReliableSQ.threeBytes.packetAt { payloadSize := 3 } 3

/-- A request of three bytes that needs two packets. -/
def RdmaUnreliableSQ.threeBytes : RdmaUnreliableSQ :=
  postSendDefault { mtu := 2, sip := 1, sport := 100, pg := 3 }
    { payloadSize := 3, dip := 2, dport := 101 }

/-- The packet of the reliable queue, the first packet of the other one, and the answer to the
former, which was marked. -/
theorem packets_decode_three :
    (∃ p, RdmaReliableSQ.threeBytes.getNextPacket.map Prod.fst = some p ∧ p.size = 3 ∧
      Decodes p.wire 1 2 0x11 (.udp 100 101 0 3) p.size p.bth) ∧
    (∃ p, (RdmaUnreliableSQ.threeBytes.getNextPacket fun _ => []).map Prod.fst = some p ∧
      p.size = 2 ∧ ∃ work ∈ RdmaUnreliableSQ.threeBytes.toSend.head?,
        Decodes p.wire 1 work.sr.dip 0x11 (.udp 100 work.sr.dport 0 3) p.size p.bth) ∧
    Decodes (RdmaReliableRQ.ackPacket { nextExpectedSeq := 3 } .threeBytes 3 .ack).wire 2 1 0xFC
      (.ack 101 100 1 3 3) AckPacket.payloadSize { destQpKey := 100 } := by
  have htyped : RdmaReliableSQ.threeBytes.Typed := by constructor <;> decide
  refine ⟨?_, ?_, ?_⟩
  · have hsize : RdmaReliableSQ.threeBytes.getNextPacket.map (·.1.size) = some 3 := by
      decide +kernel
    obtain ⟨⟨p, s'⟩, hp, hsize⟩ := Option.map_eq_some_iff.mp hsize
    exact ⟨p, congrArg _ hp, hsize, packets_decode.1 _ _ _ htyped hp⟩
  · have hsize : (RdmaUnreliableSQ.threeBytes.getNextPacket fun _ => []).map (·.1.size) =
      some 2 := by
      decide +kernel
    obtain ⟨⟨p, s'⟩, hp, hsize⟩ := Option.map_eq_some_iff.mp hsize
    exact ⟨p, congrArg _ hp, hsize,
      packets_decode.2.1 _ _ _ _ ⟨by decide, by decide, by decide, by decide⟩ hp⟩
  · have hreply : (RdmaReliableRQ.receiveUdp 0 3 .threeBytes
        { localIp := 2, localPort := 101, txDestIp := 1, txDestPort := 100 }).map Prod.fst =
          some (some (RdmaReliableRQ.ackPacket { nextExpectedSeq := 3 } .threeBytes 3 .ack)) := by
      decide +kernel
    obtain ⟨⟨reply, rq'⟩, hrq, hreply⟩ := Option.map_eq_some_iff.mp hreply
    cases hreply
    exact packets_decode.2.2 _ _ _ _ _ _ (htyped.packet { payloadSize := 3 } 3) hrq

end Roce
