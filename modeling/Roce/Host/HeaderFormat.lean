import Roce.Host.Wire
import Mathlib.Data.Vector.Basic

/-! # `CustomHeader` in all of its forms

`Wire` has the form of `CustomHeader` that the devices use. Here are both directions and every form
of it: any of the three layers, the brief form and the full one, with and without the `IntHeader`,
in every mode of it, and TCP. -/

namespace Roce

open Bytes

/-! ## `Buffer::Iterator` -/

namespace Buffer

def writeU8 (x : UInt8) : List UInt8 := le 1 x.toNat

def writeU16 (x : UInt16) : List UInt8 := le 2 x.toNat

def writeU32 (x : UInt32) : List UInt8 := le 4 x.toNat

def writeU64 (x : UInt64) : List UInt8 := le 8 x.toNat

def writeHtonU16 (x : UInt16) : List UInt8 := be 2 x.toNat

def writeHtonU32 (x : UInt32) : List UInt8 := be 4 x.toNat

def readU8 : Reader UInt8 := UInt8.ofNat <$> readLe 1

def readU16 : Reader UInt16 := UInt16.ofNat <$> readLe 2

def readU32 : Reader UInt32 := UInt32.ofNat <$> readLe 4

def readU64 : Reader UInt64 := UInt64.ofNat <$> readLe 8

def readNtohU16 : Reader UInt16 := UInt16.ofNat <$> readBe 2

def readNtohU32 : Reader UInt32 := UInt32.ofNat <$> readBe 4

@[simp] theorem length_writeU8 : (writeU8 x).length = 1 := length_le

@[simp] theorem length_writeU16 : (writeU16 x).length = 2 := length_le

@[simp] theorem length_writeU32 : (writeU32 x).length = 4 := length_le

@[simp] theorem length_writeU64 : (writeU64 x).length = 8 := length_le

@[simp] theorem length_writeHtonU16 : (writeHtonU16 x).length = 2 := length_be

@[simp] theorem length_writeHtonU32 : (writeHtonU32 x).length = 4 := length_be

section
variable {rest : List UInt8}

theorem readU8_bind (f : UInt8 → Reader β) : (readU8 >>= f) (writeU8 x ++ rest) = f x rest :=
  map_readLe_bind x.toNat_lt UInt8.ofNat_toNat f

theorem readU16_bind (f : UInt16 → Reader β) : (readU16 >>= f) (writeU16 x ++ rest) = f x rest :=
  map_readLe_bind x.toNat_lt UInt16.ofNat_toNat f

theorem readU32_bind (f : UInt32 → Reader β) : (readU32 >>= f) (writeU32 x ++ rest) = f x rest :=
  map_readLe_bind x.toNat_lt UInt32.ofNat_toNat f

theorem readU64_bind (f : UInt64 → Reader β) : (readU64 >>= f) (writeU64 x ++ rest) = f x rest :=
  map_readLe_bind x.toNat_lt UInt64.ofNat_toNat f

theorem readNtohU16_bind (f : UInt16 → Reader β) :
    (readNtohU16 >>= f) (writeHtonU16 x ++ rest) = f x rest :=
  map_readBe_bind x.toNat_lt UInt16.ofNat_toNat f

theorem readNtohU32_bind (f : UInt32 → Reader β) :
    (readNtohU32 >>= f) (writeHtonU32 x ++ rest) = f x rest :=
  map_readBe_bind x.toNat_lt UInt32.ofNat_toNat f

end

end Buffer

open Buffer

/-! ## `IntHeader` -/

/-- `IntHeader::Mode`. -/
inductive IntHeader.Mode where
  | normal
  | ts
  | pint
  | none
  deriving DecidableEq, Repr

/-- The static members of `IntHeader`. -/
structure IntConfig where
  mode : IntHeader.Mode := .none
  pintBytes : Int := 2
  deriving DecidableEq, Repr

/-- `IntHop`, by the two words of its union. -/
structure IntHop where
  buf0 : UInt32 := 0
  buf1 : UInt32 := 0
  deriving DecidableEq, Repr

/-- `IntHeader`, a union of which the mode tells the member in use, for a whole run. -/
inductive IntHeader : IntHeader.Mode → Type
  | normal (hop : List.Vector IntHop 5) (nhop : UInt16) : IntHeader .normal
  | ts (time : UInt64) : IntHeader .ts
  | pint (power : UInt16) : IntHeader .pint
  | none : IntHeader .none

namespace IntHeader

variable {m : Mode}

/-- `GetStaticSize`, where a power takes two bytes whatever `pint_bytes` is. -/
def getStaticSize : Mode → Nat
  | .normal => 5 * 8 + 2
  | .ts => 8
  | .pint => 2
  | .none => 0

/-- The words of the hops. -/
def writeHops (hops : List IntHop) : List UInt8 :=
  hops.flatMap fun hop => writeU32 hop.buf0 ++ writeU32 hop.buf1

def readHops : (n : Nat) → Reader (List.Vector IntHop n)
  | 0 => return .nil
  | n + 1 => do
    let buf0 ← readU32
    let buf1 ← readU32
    let hops ← readHops n
    return .cons { buf0, buf1 } hops

/-- `Serialize`. -/
def serialize (pintBytes : Int) : IntHeader m → List UInt8
  | .normal hop nhop => writeHops hop.toList ++ writeU16 nhop
  | .ts time => writeU64 time
  | .pint power =>
    if pintBytes = 1 then writeU8 (.ofNat power.toNat)
    else if pintBytes = 2 then writeU16 power
    else []
  | .none => []

/-- `power_lo8 = x`. -/
def setPowerLo8 (power : UInt16) (x : UInt8) : UInt16 :=
  .ofNat (power.toNat / 256 * 256 + x.toNat)

/-- `Deserialize`. -/
def deserialize (pintBytes : Int) : IntHeader m → Reader (IntHeader m)
  | .normal .. => do
    let hop ← readHops 5
    let nhop ← readU16
    return .normal hop nhop
  | .ts _ => do
    let time ← readU64
    return .ts time
  | .pint power =>
    if pintBytes = 1 then do
      let x ← readU8
      return .pint (setPowerLo8 power x)
    else if pintBytes = 2 then do
      let power ← readU16
      return .pint power
    else return .pint power
  | .none => return .none

/-- What is on the wire of a power, and the rest of another one. -/
def receivePower (pintBytes : Int) (old power : UInt16) : UInt16 :=
  if pintBytes = 1 then setPowerLo8 old (.ofNat power.toNat)
  else if pintBytes = 2 then power
  else old

/-- `old`, with what is on the wire of `h`. -/
def receive (pintBytes : Int) : (old h : IntHeader m) → IntHeader m
  | .pint old, .pint power => .pint (receivePower pintBytes old power)
  | _, h => h

theorem readHops_bind {hops : List.Vector IntHop n} (f : List.Vector IntHop n → Reader β) :
    (readHops n >>= f) (writeHops hops.toList ++ rest) = f hops rest := by
  induction n with
  | zero =>
    obtain rfl : hops = .nil := hops.eq_nil
    rfl
  | succ n ih =>
    obtain ⟨hop, hops, rfl⟩ := hops.exists_eq_cons
    have hwrite : writeHops (List.Vector.cons hop hops).toList ++ rest =
        writeU32 hop.buf0 ++ (writeU32 hop.buf1 ++ (writeHops hops.toList ++ rest)) := by
      simp [writeHops]
    rw [hwrite, readHops]
    simp only [bind_assoc, readU32_bind, ih, pure_bind]

theorem length_writeHops (hops : List IntHop) : (writeHops hops).length = hops.length * 8 := by
  induction hops with
  | nil => rfl
  | cons hop hops ih =>
    have hcons : writeHops (hop :: hops) =
        writeU32 hop.buf0 ++ writeU32 hop.buf1 ++ writeHops hops := rfl
    rw [hcons, List.length_append, List.length_append, ih, List.length_cons, length_writeU32,
      length_writeU32]
    omega

/-- All bytes of the size are written, but for a power of one byte. -/
theorem length_serialize (hpint : m = .pint → pintBytes = 2) (h : IntHeader m) :
    (h.serialize pintBytes).length = getStaticSize m := by
  cases h with
  | normal hop nhop =>
    show (writeHops hop.toList ++ writeU16 nhop).length = 5 * 8 + 2
    rw [List.length_append, length_writeHops, List.Vector.toList_length, length_writeU16]
  | ts => exact length_writeU64
  | pint power =>
    obtain rfl := hpint rfl
    exact length_writeU16
  | none => rfl

theorem deserialize_serialize (old h : IntHeader m) (rest : List UInt8) :
    old.deserialize pintBytes (h.serialize pintBytes ++ rest) =
      some (old.receive pintBytes h, rest) := by
  cases h with
  | normal hop nhop =>
    cases old
    simp only [serialize, deserialize, List.append_assoc, readHops_bind, readU16_bind]
    rfl
  | ts =>
    cases old
    simp only [serialize, deserialize, readU64_bind]
    rfl
  | pint power =>
    cases old
    unfold serialize deserialize receive receivePower
    by_cases h1 : pintBytes = 1
    · simp only [h1, ↓reduceIte, readU8_bind]
      rfl
    · by_cases h2 : pintBytes = 2
      · simp only [if_neg h1, if_pos h2, readU16_bind]
        rfl
      · simp only [h1, h2, ↓reduceIte]
        rfl
  | none =>
    cases old
    rfl

theorem receive_self (pintBytes : Int) (h : IntHeader m) : h.receive pintBytes h = h := by
  cases h with
  | pint power =>
    have hpower : setPowerLo8 power (.ofNat power.toNat) = power := by
      rw [setPowerLo8, UInt8.toNat_ofNat', Nat.div_add_mod', UInt16.ofNat_toNat]
    rw [receive, receivePower, hpower]
    split
    · rfl
    · rw [ite_self]
  | normal => rfl
  | ts => rfl
  | none => rfl

end IntHeader

/-! ## The layers -/

namespace FullHeader

/-- The fields of IPv4. The enclosing type has `dontFragment` as bit 0 of the flags, and
`moreFragments` as bit 1. -/
structure Ipv4 where
  payloadSize : UInt16 := 0
  ipid : UInt16 := 0
  tos : UInt8 := 0
  ttl : UInt8 := 0
  l3Prot : UInt8 := 0
  ipv4Flags : BitVec 3 := 0
  fragmentOffset : UInt16 := 0
  sip : UInt32
  dip : UInt32
  checksum : UInt16 := 0
  headerSize : UInt16 := 5 * 4
  deriving DecidableEq, Repr

/-- `tcp`. -/
structure Tcp where
  sport : UInt16
  dport : UInt16
  seq : UInt32
  ack : UInt32
  length : UInt8
  tcpFlags : UInt8
  windowSize : UInt16
  urgentPointer : UInt16
  optionBuf : List.Vector UInt8 32
  deriving DecidableEq

/-- `udp`, without the `IntHeader`. -/
structure Udp where
  sport : UInt16
  dport : UInt16
  payloadSize : UInt16
  pg : UInt16
  seq : UInt32
  deriving DecidableEq, Repr

/-- `cnp`. -/
structure Cnp where
  fid : UInt16
  qIndex : UInt8
  qfb : UInt16
  ecnBits : UInt8
  total : UInt16
  deriving DecidableEq, Repr

/-- `ack`, without the `IntHeader`. -/
structure Ack where
  sport : UInt16
  dport : UInt16
  flags : UInt16
  pg : UInt16
  seq : UInt32
  deriving DecidableEq, Repr

/-- `pfc`. -/
structure Pfc where
  time : UInt32
  qlen : UInt32
  qIndex : UInt8
  deriving DecidableEq, Repr

/-- A member of a union that is kept in `σ`: what was assigned to it is read from it, and the last
assignment counts. What becomes of the other members is not said. -/
structure Member (σ α : Type) where
  get : σ → α
  set : α → σ → σ
  get_set : ∀ x s, get (set x s) = x
  set_set : ∀ x y s, set y (set x s) = set y s

/-- To assign again what was assigned changes nothing. -/
theorem Member.set_get_set {σ α : Type} (member : Member σ α) (x : α) (s : σ) :
    member.set (member.get (member.set x s)) (member.set x s) = member.set x s := by
  rw [member.get_set, member.set_set]

/-- The union, of which the protocol tells the member in use. The members `udp` and `ack` have
fields of the same types, so that the `IntHeader` of one is also that of the other. -/
structure L4 (m : IntHeader.Mode) (σ : Type) where
  tcp : Member σ Tcp
  udp : Member σ (Udp × IntHeader m)
  cnp : Member σ Cnp
  ack : Member σ (Ack × IntHeader m)
  pfc : Member σ Pfc
  ih : ∀ s, (udp.get s).2 = (ack.get s).2

end FullHeader

/-- `CustomHeader`, with all of its fields. -/
structure FullHeader (σ : Type) where
  brief : Bool := true
  headerType : UInt32 := 2 ||| 4
  getInt : Bool := true
  pppProto : UInt16 := 0
  ip : FullHeader.Ipv4
  l4 : σ

namespace FullHeader

variable {σ : Type} (c : IntConfig) (u : L4 c.mode σ)

/-! ## `Serialize` -/

namespace Ipv4

/-- The byte of the flags and of the highest bits of the offset. -/
def flagsFrag (h : Ipv4) : Nat :=
  h.fragmentOffset.toNat / 8 / 256 % 32 + (h.ipv4Flags.getLsbD 0).toNat * 64 +
    (h.ipv4Flags.getLsbD 1).toNat * 32

def serialize (h : Ipv4) : List UInt8 :=
  writeU8 0x45 ++ writeU8 h.tos ++ writeHtonU16 (h.payloadSize + 5 * 4) ++ writeHtonU16 h.ipid ++
    writeU8 (.ofNat h.flagsFrag) ++ writeU8 (.ofNat (h.fragmentOffset.toNat / 8)) ++
    writeU8 h.ttl ++ writeU8 h.l3Prot ++ writeHtonU16 0 ++ writeHtonU32 h.sip ++ writeHtonU32 h.dip

end Ipv4

/-- The count of the bytes of TCP options, of the type `uint32_t`. -/
def Tcp.optionLen (h : Tcp) : Nat := (h.length.toNat * 4 + (2 ^ 32 - 20)) % 2 ^ 32

def Tcp.serialize (h : Tcp) : List UInt8 :=
  writeHtonU16 h.sport ++ writeHtonU16 h.dport ++ writeHtonU32 h.seq ++ writeHtonU32 h.ack ++
    writeHtonU16 (.ofNat (h.length.toNat * 4096 + h.tcpFlags.toNat)) ++ writeHtonU16 h.windowSize ++
    writeHtonU16 0 ++ writeHtonU16 h.urgentPointer ++
    if h.optionLen ≤ 32 then h.optionBuf.toList.take h.optionLen else []

/-- UDP and the `RdmaSeqHeader`. -/
def Udp.serialize (h : Udp) : List UInt8 :=
  writeHtonU16 h.sport ++ writeHtonU16 h.dport ++ writeHtonU16 h.payloadSize ++ writeHtonU16 0 ++
    writeHtonU32 h.seq ++ writeHtonU16 h.pg

def Cnp.serialize (h : Cnp) : List UInt8 :=
  writeU8 h.qIndex ++ writeU16 h.fid ++ writeU8 h.ecnBits ++ writeU16 h.qfb ++ writeU16 h.total

def Ack.serialize (h : Ack) : List UInt8 :=
  writeU16 h.sport ++ writeU16 h.dport ++ writeU16 h.flags ++ writeU16 h.pg ++ writeU32 h.seq

def Pfc.serialize (h : Pfc) : List UInt8 :=
  writeU32 h.time ++ writeU32 h.qlen ++ writeU8 h.qIndex

/-- The part of `Serialize` about the union. Also behind an ACK the `IntHeader` of `udp` is
written. -/
def serializeL4 (l3Prot : UInt8) (s : σ) : List UInt8 :=
  if l3Prot = 0x6 then (u.tcp.get s).serialize
  else if l3Prot = 0x11 then (u.udp.get s).1.serialize ++ (u.udp.get s).2.serialize c.pintBytes
  else if l3Prot = 0xFF then (u.cnp.get s).serialize
  else if l3Prot = 0xFC ∨ l3Prot = 0xFD then
    (u.ack.get s).1.serialize ++ (u.udp.get s).2.serialize c.pintBytes
  else if l3Prot = 0xFE then (u.pfc.get s).serialize
  else []

variable (h : FullHeader σ)

/-- `headerType & L2_Header`. -/
def hasL2 : Bool := h.headerType &&& 1 ≠ 0

/-- `headerType & L3_Header`. -/
def hasL3 : Bool := h.headerType &&& 2 ≠ 0

/-- `headerType & L4_Header`. -/
def hasL4 : Bool := h.headerType &&& 4 ≠ 0

/-- `Serialize`. -/
def serialize : List UInt8 :=
  (if h.hasL2 then writeHtonU16 h.pppProto else []) ++
    ((if h.hasL3 then h.ip.serialize else []) ++
      if h.hasL4 then serializeL4 c u h.ip.l3Prot h.l4 else [])

/-- `GetUdpHeaderSize`. -/
def getUdpHeaderSize : Nat := 8 + 2 + 4 + IntHeader.getStaticSize c.mode

/-- `GetAckSerializedSize`. -/
def getAckSerializedSize : Nat := 2 + 2 + 2 + 2 + 4 + IntHeader.getStaticSize c.mode

/-- The part of `GetSerializedSize` about the union. -/
def getSerializedSizeL4 (l3Prot : UInt8) (s : σ) : Nat :=
  if l3Prot = 0x6 then (u.tcp.get s).length.toNat * 4
  else if l3Prot = 0x11 then getUdpHeaderSize c
  else if l3Prot = 0xFC ∨ l3Prot = 0xFD then getAckSerializedSize c
  else if l3Prot = 0xFF then 8
  else if l3Prot = 0xFE then 9
  else 0

/-- `GetSerializedSize`. -/
def getSerializedSize : Nat :=
  (if h.hasL2 then 2 else 0) + (if h.hasL3 then 5 * 4 else 0) +
    if h.hasL4 then getSerializedSizeL4 c u h.ip.l3Prot h.l4 else 0

/-! ## `Deserialize` -/

/-- The flags of two bits. -/
def Ipv4.flagsOf (dontFragment moreFragments : Bool) : BitVec 3 :=
  (if dontFragment then 1 else 0) ||| if moreFragments then 2 else 0

/-- The fields of IPv4 after the first byte. -/
def Ipv4.readFields (brief : Bool) (old : Ipv4) (headerSize : Nat) : Reader Ipv4 :=
  if brief then do
    let tos ← readU8
    skip 2
    let ipid ← readNtohU16
    skip 3
    let l3Prot ← readU8
    skip 2
    let sip ← readNtohU32
    let dip ← readNtohU32
    return { old with tos, ipid, l3Prot, sip, dip }
  else do
    let tos ← readU8
    let size ← readNtohU16
    let ipid ← readNtohU16
    let flags ← readU8
    let frag ← readU8
    let ttl ← readU8
    let l3Prot ← readU8
    let checksum ← readU16
    let sip ← readNtohU32
    let dip ← readNtohU32
    return {
      tos, ipid, ttl, l3Prot, checksum, sip, dip
      payloadSize := size - .ofNat headerSize
      ipv4Flags := flagsOf (flags.toNat / 64 % 2 = 1) (flags.toNat / 32 % 2 = 1)
      fragmentOffset := .ofNat ((flags.toNat % 32 * 256 + frag.toNat) * 8)
      headerSize := .ofNat headerSize }

/-- The part of `Deserialize` about IPv4, and `l3Size`. Nothing but IPv4 is read. -/
def Ipv4.read (brief : Bool) (old : Ipv4) : Reader (Option (Ipv4 × Nat)) := do
  let verIhl ← readU8
  let headerSize := verIhl.toNat % 16 * 4
  if verIhl.toNat / 16 ≠ 4 then return none
  else
    let h ← old.readFields brief headerSize
    return some (h, headerSize)

/-- `Read` into the first bytes of a buffer. -/
def overwrite (buf : List.Vector UInt8 n) (bs : List UInt8) : List.Vector UInt8 n :=
  ⟨(bs ++ buf.toList.drop bs.length).take n, by simp; omega⟩

def Tcp.setOptions (h : Tcp) (options : List UInt8) : Tcp :=
  { h with optionBuf := overwrite h.optionBuf options }

/-- TCP, and the size of it: none when there are too many options. -/
def Tcp.read (brief : Bool) (old : Tcp) : Reader (Tcp × Option Nat) := do
  let sport ← readNtohU16
  let dport ← readNtohU16
  let seq ← readNtohU32
  let ack ← readNtohU32
  let field ← readNtohU16
  let tcp := { old with sport, dport, seq, ack, tcpFlags := .ofNat (field.toNat % 64) }
  if brief then return (tcp, some (tcp.length.toNat * 4))
  else
    let windowSize ← readNtohU16
    skip 2
    let urgentPointer ← readNtohU16
    let tcp := { tcp with windowSize, urgentPointer, length := .ofNat (field.toNat / 4096) }
    if tcp.optionLen > 32 then return (tcp, none)
    else
      let options ← bytes tcp.optionLen
      return (tcp.setOptions options, some (tcp.length.toNat * 4))

def Udp.read (brief : Bool) (old : Udp) : Reader Udp := do
  let sport ← readNtohU16
  let dport ← readNtohU16
  if brief then
    skip 4
    let seq ← readNtohU32
    let pg ← readNtohU16
    return { old with sport, dport, seq, pg }
  else
    let payloadSize ← readNtohU16
    skip 2
    let seq ← readNtohU32
    let pg ← readNtohU16
    return { sport, dport, payloadSize, seq, pg }

def Cnp.read : Reader Cnp := do
  let qIndex ← readU8
  let fid ← readU16
  let ecnBits ← readU8
  let qfb ← readU16
  let total ← readU16
  return { qIndex, fid, ecnBits, qfb, total }

def Ack.read : Reader Ack := do
  let sport ← readU16
  let dport ← readU16
  let flags ← readU16
  let pg ← readU16
  let seq ← readU32
  return { sport, dport, flags, pg, seq }

def Pfc.read : Reader Pfc := do
  let time ← readU32
  let qlen ← readU32
  let qIndex ← readU8
  return { time, qlen, qIndex }

/-- `ih.Deserialize`, if it is asked for. -/
def readInt (getInt : Bool) (old : IntHeader c.mode) : Reader (IntHeader c.mode) :=
  if getInt then old.deserialize c.pintBytes else return old

/-- The part of `Deserialize` about the union, from the place where it is, and `l4Size`. -/
def readUnion (brief getInt : Bool) (l3Prot : UInt8) (old : σ) : Reader (σ × Option Nat) :=
  if l3Prot = 0x6 then do
    let (tcp, size) ← (u.tcp.get old).read brief
    return (u.tcp.set tcp old, size)
  else if l3Prot = 0x11 then do
    let udp ← (u.udp.get old).1.read brief
    let ih ← readInt c getInt (u.udp.get old).2
    return (u.udp.set (udp, ih) old, some (getUdpHeaderSize c))
  else if l3Prot = 0xFF then do
    let cnp ← Cnp.read
    return (u.cnp.set cnp old, some 8)
  else if l3Prot = 0xFC ∨ l3Prot = 0xFD then do
    let ack ← Ack.read
    let ih ← readInt c getInt (u.ack.get old).2
    return (u.ack.set (ack, ih) old, some (getAckSerializedSize c))
  else if l3Prot = 0xFE then do
    let pfc ← Pfc.read
    return (u.pfc.set pfc old, some 9)
  else return (old, some 0)

/-- The part of `Deserialize` about PPP, and `l2Size`. -/
def readL2 : Reader (UInt16 × Nat) :=
  if h.hasL2 then do
    let pppProto ← readNtohU16
    return (pppProto, 2)
  else return (h.pppProto, 0)

/-- The part about IPv4, if there is one. -/
def readL3 : Reader (Option (Ipv4 × Nat)) :=
  if h.hasL3 then h.ip.read h.brief else return some (h.ip, 0)

/-- The part about the union, if there is one, from `i` on. TCP and UDP are read from the place
after IPv4 on. -/
def readL4 (size : Nat) (start i : List UInt8) : Option (FullHeader σ × Nat) :=
  if h.hasL4 then do
    let i := if h.ip.l3Prot = 0x6 ∨ h.ip.l3Prot = 0x11 then start.drop size else i
    let ((l4, l4Size), _) ← readUnion c u h.brief h.getInt h.ip.l3Prot h.l4 i
    return ({ h with l4 }, l4Size.elim 20 (size + ·))
  else some (h, size)

/-- `Deserialize`. -/
def deserialize (start : List UInt8) : Option (FullHeader σ × Nat) := do
  let ((pppProto, l2Size), _) ← h.readL2 start
  let (ip, i) ← h.readL3 (start.drop l2Size)
  match ip with
  | none => return ({ h with pppProto }, 0)
  | some (ip, l3Size) => readL4 c u { h with pppProto, ip } (l2Size + l3Size) start i

/-! ## What is written is read -/

/-- `old`, with what is read of `h`: the checksum is not written, and there are no options of
IPv4. -/
def Ipv4.receive (brief : Bool) (old h : Ipv4) : Ipv4 :=
  if brief then
    { old with tos := h.tos, ipid := h.ipid, l3Prot := h.l3Prot, sip := h.sip, dip := h.dip }
  else { h with checksum := 0, headerSize := 5 * 4 }

def Tcp.receive (brief : Bool) (old h : Tcp) : Tcp :=
  if brief then
    { old with
      sport := h.sport, dport := h.dport, seq := h.seq, ack := h.ack, tcpFlags := h.tcpFlags }
  else { h with optionBuf := old.optionBuf }.setOptions (h.optionBuf.toList.take h.optionLen)

def Udp.receive (brief : Bool) (old h : Udp) : Udp :=
  if brief then { h with payloadSize := old.payloadSize } else h

def receiveInt (getInt : Bool) (old h : IntHeader c.mode) : IntHeader c.mode :=
  if getInt then old.receive c.pintBytes h else old

/-- What is on the wire of the member in use is assigned to this member. -/
def receiveL4 (brief getInt : Bool) (l3Prot : UInt8) (old s : σ) : σ :=
  if l3Prot = 0x6 then u.tcp.set ((u.tcp.get old).receive brief (u.tcp.get s)) old
  else if l3Prot = 0x11 then
    u.udp.set ((u.udp.get old).1.receive brief (u.udp.get s).1,
      receiveInt c getInt (u.udp.get old).2 (u.udp.get s).2) old
  else if l3Prot = 0xFF then u.cnp.set (u.cnp.get s) old
  else if l3Prot = 0xFC ∨ l3Prot = 0xFD then
    u.ack.set ((u.ack.get s).1, receiveInt c getInt (u.ack.get old).2 (u.ack.get s).2) old
  else if l3Prot = 0xFE then u.pfc.set (u.pfc.get s) old
  else old

/-- `old`, with what is on the wire of `h`. -/
def receive (old h : FullHeader σ) : FullHeader σ where
  __ := old
  pppProto := if old.hasL2 then h.pppProto else old.pppProto
  ip := if old.hasL3 then old.ip.receive old.brief h.ip else old.ip
  l4 := if old.hasL4 then receiveL4 c u old.brief old.getInt h.ip.l3Prot old.l4 h.l4 else old.l4

/-- The offset is a count of eight bytes, and of the flags only two have a place. -/
structure Ipv4.Encodable (h : Ipv4) : Prop where
  fragmentOffset : 8 ∣ h.fragmentOffset.toNat
  ipv4Flags : h.ipv4Flags.getLsbD 2 = false

/-- The length counts the five words of the header and at most eight words of options, and the
flags have six bits. -/
structure Tcp.Encodable (h : Tcp) : Prop where
  five_le : 5 ≤ h.length.toNat
  le_thirteen : h.length.toNat ≤ 13
  tcpFlags : h.tcpFlags.toNat < 64

namespace Ipv4

theorem flagsOf_getLsbD : ∀ {flags : BitVec 3}, flags.getLsbD 2 = false →
    flagsOf (flags.getLsbD 0) (flags.getLsbD 1) = flags := by
  decide

theorem flagsFrag_lt (h : Ipv4) : h.flagsFrag < 256 := by
  have hdont := Bool.toNat_le (h.ipv4Flags.getLsbD 0)
  have hmore := Bool.toNat_le (h.ipv4Flags.getLsbD 1)
  unfold flagsFrag
  omega

/-- The byte of the flags holds the flags and the highest bits of the offset. -/
theorem flagsFrag_spec (h : Ipv4) : h.flagsFrag % 32 = h.fragmentOffset.toNat / 8 / 256 % 32 ∧
    decide (h.flagsFrag / 64 % 2 = 1) = h.ipv4Flags.getLsbD 0 ∧
    decide (h.flagsFrag / 32 % 2 = 1) = h.ipv4Flags.getLsbD 1 := by
  unfold flagsFrag
  generalize h.fragmentOffset.toNat / 8 / 256 = high
  cases h.ipv4Flags.getLsbD 0 <;> cases h.ipv4Flags.getLsbD 1 <;> simp only [Bool.toNat, cond] <;>
    refine ⟨by omega, ?_, ?_⟩ <;> simp <;> omega

theorem fragmentOffset_spec {h : Ipv4} (hh : h.Encodable) :
    UInt16.ofNat ((h.flagsFrag % 32 * 256 + h.fragmentOffset.toNat / 8 % 256) * 8) =
      h.fragmentOffset := by
  have hlt : h.fragmentOffset.toNat < 65536 := h.fragmentOffset.toNat_lt
  have hdvd := Nat.div_mul_cancel hh.fragmentOffset
  have hvalue : (h.flagsFrag % 32 * 256 + h.fragmentOffset.toNat / 8 % 256) * 8 =
      h.fragmentOffset.toNat := by
    rw [h.flagsFrag_spec.1]
    omega
  rw [hvalue, UInt16.ofNat_toNat]

theorem read_serialize (brief : Bool) (old : Ipv4) {h : Ipv4} (hh : h.Encodable)
    (rest : List UInt8) :
    read brief old (h.serialize ++ rest) = some (some (old.receive brief h, 20), rest) := by
  obtain ⟨-, hdont, hmore⟩ := h.flagsFrag_spec
  have hflags : (UInt8.ofNat h.flagsFrag).toNat = h.flagsFrag := by
    rw [UInt8.toNat_ofNat', Nat.mod_eq_of_lt h.flagsFrag_lt]
  have hfrag : (UInt8.ofNat (h.fragmentOffset.toNat / 8)).toNat =
    h.fragmentOffset.toNat / 8 % 256 :=
    UInt8.toNat_ofNat'
  have hchecksum : writeHtonU16 0 = writeU16 0 := rfl
  rw [serialize, read, hchecksum]
  simp only [List.append_assoc, readU8_bind]
  rw [if_neg (by decide)]
  refine bind_eq ?_
  unfold readFields receive
  cases brief with
  | true =>
    have hskip : (3 : Nat) = 1 + (1 + 1) := rfl
    simp only [↓reduceIte, hskip, readU8_bind, readNtohU16_bind, readNtohU32_bind,
      skip_bind length_writeHtonU16, skip_bind length_writeU16, skip_bind length_writeU8,
      skip_add_bind length_writeU8]
    rfl
  | false =>
    simp only [Bool.false_eq_true, ↓reduceIte, readU8_bind, readU16_bind, readNtohU16_bind,
      readNtohU32_bind]
    rw [hflags, hfrag, hdont, hmore, flagsOf_getLsbD hh.ipv4Flags, fragmentOffset_spec hh]
    rw [show UInt16.ofNat (UInt8.toNat 69 % 16 * 4) = 5 * 4 from rfl, UInt16.add_sub_cancel]
    rfl

end Ipv4

namespace Tcp

variable {h : Tcp}

/-- The word with the length and the flags. -/
theorem field_spec (hh : h.Encodable) :
    (UInt16.ofNat (h.length.toNat * 4096 + h.tcpFlags.toNat)).toNat =
      h.length.toNat * 4096 + h.tcpFlags.toNat := by
  rw [UInt16.toNat_ofNat']
  have hlength := hh.le_thirteen
  have hflags := hh.tcpFlags
  omega

theorem optionLen_le (hh : h.Encodable) : h.optionLen ≤ 32 := by
  have hfive := hh.five_le
  have hlength := hh.le_thirteen
  unfold optionLen
  omega

theorem length_options (hh : h.Encodable) :
    (h.optionBuf.toList.take h.optionLen).length = h.optionLen := by
  rw [List.length_take, List.Vector.toList_length, Nat.min_eq_left (optionLen_le hh)]

theorem read_serialize (brief : Bool) (old : Tcp) (hh : h.Encodable) (rest : List UInt8) :
    ∃ rest', read brief old (h.serialize ++ rest) =
      some ((old.receive brief h, some ((if brief then old else h).length.toNat * 4)), rest') := by
  have hfield := field_spec hh
  have hflags : UInt8.ofNat ((h.length.toNat * 4096 + h.tcpFlags.toNat) % 64) = h.tcpFlags := by
    have hvalue : (h.length.toNat * 4096 + h.tcpFlags.toNat) % 64 = h.tcpFlags.toNat := by
      have hlt := hh.tcpFlags
      omega
    rw [hvalue, UInt8.ofNat_toNat]
  have hlength : UInt8.ofNat ((h.length.toNat * 4096 + h.tcpFlags.toNat) / 4096) = h.length := by
    have hvalue : (h.length.toNat * 4096 + h.tcpFlags.toNat) / 4096 = h.length.toNat := by
      have hlt := hh.tcpFlags
      omega
    rw [hvalue, UInt8.ofNat_toNat]
  have hoptions := optionLen_le hh
  rw [serialize, if_pos hoptions]
  simp only [List.append_assoc, read, readNtohU16_bind, readNtohU32_bind, hfield, hflags, hlength]
  cases brief with
  | true => exact ⟨_, rfl⟩
  | false =>
    simp only [Bool.false_eq_true, ↓reduceIte, readNtohU16_bind, skip_bind length_writeHtonU16]
    have hle : ¬ optionLen { h with optionBuf := old.optionBuf } > 32 := Nat.not_lt.mpr hoptions
    rw [if_neg hle]
    refine ⟨rest, bind_eq (bytes_append (length_options hh))⟩

end Tcp

theorem Udp.read_serialize (brief : Bool) (old h : Udp) (rest : List UInt8) :
    read brief old (h.serialize ++ rest) = some (old.receive brief h, rest) := by
  simp only [serialize, List.append_assoc, read, readNtohU16_bind]
  cases brief with
  | true =>
    have hskip : (4 : Nat) = 2 + 2 := rfl
    simp only [↓reduceIte, hskip, skip_add_bind length_writeHtonU16, skip_bind length_writeHtonU16,
      readNtohU16_bind, readNtohU32_bind]
    rfl
  | false =>
    simp only [Bool.false_eq_true, ↓reduceIte, readNtohU16_bind, readNtohU32_bind,
      skip_bind length_writeHtonU16]
    rfl

theorem Cnp.read_serialize (h : Cnp) (rest : List UInt8) :
    read (h.serialize ++ rest) = some (h, rest) := by
  simp only [serialize, List.append_assoc, read, readU8_bind, readU16_bind]
  rfl

theorem Ack.read_serialize (h : Ack) (rest : List UInt8) :
    read (h.serialize ++ rest) = some (h, rest) := by
  simp only [serialize, List.append_assoc, read, readU16_bind, readU32_bind]
  rfl

theorem Pfc.read_serialize (h : Pfc) (rest : List UInt8) :
    read (h.serialize ++ rest) = some (h, rest) := by
  simp only [serialize, List.append_assoc, read, readU8_bind, readU32_bind]
  rfl

/-- The `IntHeader` is the last that is read. -/
theorem readInt_serialize (getInt : Bool) (old h : IntHeader c.mode) (rest : List UInt8) : ∃ rest',
    readInt c getInt old (h.serialize c.pintBytes ++ rest) =
      some (receiveInt c getInt old h, rest') := by
  cases getInt with
  | true => exact ⟨rest, IntHeader.deserialize_serialize old h rest⟩
  | false => exact ⟨_, rfl⟩

/-- The headers above IPv4 can be read, those of TCP in the brief form with a length of before. -/
structure EncodableL4 (brief : Bool) (l3Prot : UInt8) (old s : σ) : Prop where
  tcp : l3Prot = 0x6 → (u.tcp.get s).Encodable
  length : brief = true → l3Prot = 0x6 → (u.tcp.get old).length = (u.tcp.get s).length

theorem readUnion_serialize {brief : Bool} (getInt : Bool) {l3Prot : UInt8} {old s : σ}
    (hs : EncodableL4 c u brief l3Prot old s) (rest : List UInt8) : ∃ rest',
    readUnion c u brief getInt l3Prot old (serializeL4 c u l3Prot s ++ rest) =
      some ((receiveL4 c u brief getInt l3Prot old s, some (getSerializedSizeL4 c u l3Prot s)),
        rest') := by
  unfold readUnion serializeL4 receiveL4 getSerializedSizeL4
  by_cases htcp : l3Prot = 0x6
  · have hlength : (if brief then u.tcp.get old else u.tcp.get s).length =
        (u.tcp.get s).length := by
      split
      · exact hs.length ‹_› htcp
      · rfl
    obtain ⟨rest', hread⟩ := Tcp.read_serialize brief (u.tcp.get old) (hs.tcp htcp) rest
    rw [hlength] at hread
    simp only [if_pos htcp]
    exact ⟨rest', bind_eq hread⟩
  by_cases hudp : l3Prot = 0x11
  · obtain ⟨rest', hint⟩ := readInt_serialize c getInt (u.udp.get old).2 (u.udp.get s).2 rest
    simp only [if_neg htcp, if_pos hudp, List.append_assoc]
    exact ⟨rest', (bind_eq (Udp.read_serialize brief (u.udp.get old).1 (u.udp.get s).1 _)).trans
      (bind_eq hint)⟩
  by_cases hcnp : l3Prot = 0xFF
  · have hack : ¬ (l3Prot = 0xFC ∨ l3Prot = 0xFD) := by rw [hcnp]; decide
    simp only [if_neg htcp, if_neg hudp, if_pos hcnp, if_neg hack]
    exact ⟨rest, bind_eq (Cnp.read_serialize (u.cnp.get s) rest)⟩
  by_cases hack : l3Prot = 0xFC ∨ l3Prot = 0xFD
  · obtain ⟨rest', hint⟩ := readInt_serialize c getInt (u.ack.get old).2 (u.ack.get s).2 rest
    simp only [if_neg htcp, if_neg hudp, if_neg hcnp, if_pos hack, List.append_assoc, u.ih s]
    exact ⟨rest', (bind_eq (Ack.read_serialize (u.ack.get s).1 _)).trans (bind_eq hint)⟩
  by_cases hpfc : l3Prot = 0xFE
  · simp only [if_neg htcp, if_neg hudp, if_neg hcnp, if_neg hack, if_pos hpfc]
    exact ⟨rest, bind_eq (Pfc.read_serialize (u.pfc.get s) rest)⟩
  · simp only [if_neg htcp, if_neg hudp, if_neg hcnp, if_neg hack, if_neg hpfc]
    exact ⟨_, rfl⟩

/-- `h` can be written, and read into `old`: a layer that is missing has the protocol from
before. -/
structure Encodable (old h : FullHeader σ) : Prop where
  headerType : old.headerType = h.headerType
  ip : h.hasL3 → h.ip.Encodable
  l3Prot : h.hasL3 = false → h.hasL4 → old.ip.l3Prot = h.ip.l3Prot
  l4 : h.hasL4 → EncodableL4 c u old.brief h.ip.l3Prot old.l4 h.l4

section
variable {c u} {old h : FullHeader σ} {rest : List UInt8}

theorem readL2_serialize (htype : old.headerType = h.headerType) :
    old.readL2 ((if h.hasL2 then writeHtonU16 h.pppProto else []) ++ rest) =
      some ((if old.hasL2 then h.pppProto else old.pppProto, if h.hasL2 then 2 else 0), rest) := by
  have hl2 : old.hasL2 = h.hasL2 := by rw [hasL2, htype, hasL2]
  rw [readL2, hl2]
  cases h.hasL2 with
  | true => exact readNtohU16_bind _
  | false => rfl

theorem drop_l2 :
    ((if h.hasL2 then writeHtonU16 h.pppProto else []) ++ rest).drop (if h.hasL2 then 2 else 0) =
      rest := by
  cases h.hasL2 with
  | true => exact List.drop_left' length_writeHtonU16
  | false => rfl

theorem Ipv4.length_serialize (h : Ipv4) : h.serialize.length = 20 := by
  simp [serialize]

/-- IPv4 after the header was read. -/
def receivedIp (old h : FullHeader σ) : Ipv4 :=
  if old.hasL3 then old.ip.receive old.brief h.ip else old.ip

theorem readL3_serialize (hh : Encodable c u old h) :
    old.readL3 ((if h.hasL3 then h.ip.serialize else []) ++ rest) =
      some (some (old.receivedIp h, if h.hasL3 then 20 else 0), rest) := by
  have hl3 : old.hasL3 = h.hasL3 := by rw [hasL3, hh.headerType, hasL3]
  rw [readL3, receivedIp, hl3]
  cases hip : h.hasL3 with
  | true => exact Ipv4.read_serialize old.brief old.ip (hh.ip hip) rest
  | false => rfl

theorem drop_l3 :
    ((if h.hasL3 then h.ip.serialize else []) ++ rest).drop (if h.hasL3 then 20 else 0) = rest := by
  cases h.hasL3 with
  | true => exact List.drop_left' h.ip.length_serialize
  | false => rfl

/-- The protocol that is read is that of `h`. -/
theorem Encodable.receivedIp_l3Prot (hh : Encodable c u old h) (hl4 : h.hasL4) :
    (old.receivedIp h).l3Prot = h.ip.l3Prot := by
  have hl3 : old.hasL3 = h.hasL3 := by rw [hasL3, hh.headerType, hasL3]
  rw [receivedIp, hl3]
  cases hip : h.hasL3 with
  | true =>
    show (old.ip.receive old.brief h.ip).l3Prot = h.ip.l3Prot
    unfold Ipv4.receive
    split
    · rfl
    · rfl
  | false => exact hh.l3Prot hip hl4

/-- The union is read from the place where it was written, whichever of the two ways leads to it. -/
theorem readL4_serialize {o : FullHeader σ} {start : List UInt8} (hl4 : o.hasL4 = h.hasL4)
    (hprot : h.hasL4 → o.ip.l3Prot = h.ip.l3Prot)
    (hh : h.hasL4 → EncodableL4 c u o.brief h.ip.l3Prot o.l4 h.l4)
    (hdrop : start.drop size = (if h.hasL4 then serializeL4 c u h.ip.l3Prot h.l4 else []) ++ rest) :
    o.readL4 c u size start ((if h.hasL4 then serializeL4 c u h.ip.l3Prot h.l4 else []) ++ rest) =
      some ({ o with
        l4 := if o.hasL4 then receiveL4 c u o.brief o.getInt h.ip.l3Prot o.l4 h.l4 else o.l4 },
        size + if h.hasL4 then getSerializedSizeL4 c u h.ip.l3Prot h.l4 else 0) := by
  rw [readL4, hdrop, ite_self, hl4]
  cases hl4 : h.hasL4 with
  | true =>
    obtain ⟨rest', hread⟩ := readUnion_serialize c u o.getInt (hh hl4) rest
    rw [hprot hl4]
    simp only [↓reduceIte]
    rw [hread]
    rfl
  | false => rfl

end

theorem deserialize_serialize {old h : FullHeader σ} (hh : Encodable c u old h)
    (rest : List UInt8) :
    old.deserialize c u (h.serialize c u ++ rest) =
      some (old.receive c u h, h.getSerializedSize c u) := by
  have hl4 : old.hasL4 = h.hasL4 := by rw [hasL4, hh.headerType, hasL4]
  unfold deserialize serialize getSerializedSize
  rw [List.append_assoc, List.append_assoc, readL2_serialize hh.headerType]
  simp only [Option.bind_eq_bind, Option.bind_some]
  rw [drop_l2, readL3_serialize hh]
  simp only [Option.bind_some]
  refine (readL4_serialize (o := { old with
    pppProto := if old.hasL2 then h.pppProto else old.pppProto, ip := old.receivedIp h })
    hl4 hh.receivedIp_l3Prot hh.l4 ?_).trans rfl
  rw [← List.drop_drop, drop_l2, drop_l3]

theorem Tcp.length_serialize {h : Tcp} (hh : h.Encodable) :
    h.serialize.length = h.length.toNat * 4 := by
  have hfive := hh.five_le
  have hlength := hh.le_thirteen
  have hoptions := length_options hh
  have hle := optionLen_le hh
  rw [serialize, if_pos hle]
  simp only [List.length_append, length_writeHtonU16, length_writeHtonU32, hoptions]
  unfold optionLen
  omega

/-- A union that is known by its last assignment, where `ack` is kept as `udp`. The members that
were not assigned read as 0. -/
inductive LastAssigned (m : IntHeader.Mode) where
  | tcp (x : Tcp)
  | udp (x : Udp × IntHeader m)
  | cnp (x : Cnp)
  | pfc (x : Pfc)

/-- The fields of TCP, all the same. -/
def Tcp.replicate (length byte : UInt8) : Tcp where
  sport := byte.toUInt16
  dport := byte.toUInt16
  seq := byte.toUInt32
  ack := byte.toUInt32
  length := length
  tcpFlags := byte
  windowSize := byte.toUInt16
  urgentPointer := byte.toUInt16
  optionBuf := .replicate 32 byte

def IntHeader.zero : (m : IntHeader.Mode) → IntHeader m
  | .normal => .normal (.replicate 5 {}) 0
  | .ts => .ts 0
  | .pint => .pint 0
  | .none => .none

namespace LastAssigned

variable {m : IntHeader.Mode}

def getUdp : LastAssigned m → Udp × IntHeader m
  | .udp x => x
  | _ => (⟨0, 0, 0, 0, 0⟩, IntHeader.zero m)

/-- `udp` and `ack` have their fields at the same places. -/
def getAck (s : LastAssigned m) : Ack × IntHeader m :=
  (⟨s.getUdp.1.sport, s.getUdp.1.dport, s.getUdp.1.payloadSize, s.getUdp.1.pg, s.getUdp.1.seq⟩,
    s.getUdp.2)

def union (m : IntHeader.Mode) : L4 m (LastAssigned m) where
  tcp := ⟨fun | .tcp x => x | _ => .replicate 0 0, fun x _ => .tcp x, fun _ _ => rfl,
    fun _ _ _ => rfl⟩
  udp := ⟨getUdp, fun x _ => .udp x, fun _ _ => rfl, fun _ _ _ => rfl⟩
  cnp := ⟨fun | .cnp x => x | _ => ⟨0, 0, 0, 0, 0⟩, fun x _ => .cnp x, fun _ _ => rfl,
    fun _ _ _ => rfl⟩
  ack := ⟨getAck, fun x _ => .udp (⟨x.1.sport, x.1.dport, x.1.flags, x.1.pg, x.1.seq⟩, x.2),
    fun _ _ => rfl, fun _ _ _ => rfl⟩
  pfc := ⟨fun | .pfc x => x | _ => ⟨0, 0, 0⟩, fun x _ => .pfc x, fun _ _ => rfl,
    fun _ _ _ => rfl⟩
  ih _ := rfl

end LastAssigned

/-- A header with all layers, and these of TCP. -/
def ofTcp (ip : Ipv4) (tcp : Tcp) : FullHeader (LastAssigned .none) where
  brief := false
  headerType := 1 ||| 2 ||| 4
  pppProto := 0x0021
  ip := ip
  l4 := .tcp tcp

/-- A header to read it into. -/
def emptyHeader : FullHeader (LastAssigned .none) := ofTcp { sip := 0, dip := 0 } (.replicate 0 0)

/-- The fields of UDP are lost where an ACK is read. -/
example : ((LastAssigned.union .none).udp.get ((LastAssigned.union .none).ack.set
    (⟨1, 2, 3, 4, 5⟩, .none) (.udp (⟨6, 7, 8, 9, 10⟩, .none)))).1 = ⟨1, 2, 3, 4, 5⟩ := rfl

/-! ## What is read can be written -/

theorem Ipv4.flagsOf_two : ∀ dontFragment moreFragments,
    (flagsOf dontFragment moreFragments).getLsbD 2 = false := by
  decide

theorem Ipv4.readFields_encodable (old : Ipv4) (headerSize : Nat) :
    Ensures (old.readFields false headerSize) Encodable := by
  unfold readFields
  rw [if_neg (by decide)]
  refine .bind fun tos => .bind fun size => .bind fun ipid => .bind fun flags => .bind fun frag =>
    .bind fun ttl => .bind fun l3Prot => .bind fun checksum => .bind fun sip => .bind fun dip =>
    .pure ⟨?_, flagsOf_two _ _⟩
  show 8 ∣ (UInt16.ofNat _).toNat
  rw [UInt16.toNat_ofNat']
  omega

theorem Ipv4.read_encodable (old : Ipv4) :
    Ensures (read false old) fun r => ∀ h size, r = some (h, size) → h.Encodable := by
  unfold read
  refine .bind fun verIhl => ?_
  dsimp only
  split
  · refine .pure ?_
    intro h size hr
    cases hr
  · refine .bind_of (old.readFields_encodable _) fun h hh => .pure ?_
    intro h' size hr
    cases hr
    exact hh

/-- TCP that is read has flags of six bits, and a length of four. -/
theorem Tcp.read_fits (old : Tcp) : Ensures (read false old) fun r =>
    r.1.tcpFlags.toNat < 64 ∧ r.1.length.toNat ≤ 15 := by
  have hflags (field : UInt16) : (UInt8.ofNat (field.toNat % 64)).toNat < 64 := by
    rw [UInt8.toNat_ofNat']
    omega
  have hlength (field : UInt16) : (UInt8.ofNat (field.toNat / 4096)).toNat ≤ 15 := by
    have hlt : field.toNat < 65536 := field.toNat_lt
    rw [UInt8.toNat_ofNat']
    omega
  unfold read
  refine .bind fun sport => .bind fun dport => .bind fun seq => .bind fun ack =>
    .bind fun field => ?_
  rw [if_neg (by decide)]
  refine .bind fun windowSize => .bind fun _ => .bind fun urgentPointer => ?_
  dsimp only
  split
  · exact .pure ⟨hflags field, hlength field⟩
  · exact .bind fun options => .pure ⟨hflags field, hlength field⟩

/-- It can be written, if its options were not discarded. -/
theorem Tcp.encodable_of_fits {h : Tcp} (hflags : h.tcpFlags.toNat < 64)
    (hlength : h.length.toNat ≤ 15) (hoptions : h.optionLen ≤ 32) : h.Encodable := by
  unfold optionLen at hoptions
  exact ⟨by omega, by omega, hflags⟩

/-- The member in use was assigned. -/
structure InUse (l3Prot : UInt8) (s : σ) : Prop where
  tcp : l3Prot = 0x6 → u.tcp.set (u.tcp.get s) s = s
  udp : l3Prot = 0x11 → u.udp.set (u.udp.get s) s = s
  cnp : l3Prot = 0xFF → u.cnp.set (u.cnp.get s) s = s
  ack : l3Prot = 0xFC ∨ l3Prot = 0xFD → u.ack.set (u.ack.get s) s = s
  pfc : l3Prot = 0xFE → u.pfc.set (u.pfc.get s) s = s

theorem readUnion_fits (getInt : Bool) (l3Prot : UInt8) (old : σ) :
    Ensures (readUnion c u false getInt l3Prot old) fun r => InUse c u l3Prot r.1 ∧
      (l3Prot = 0x6 → (u.tcp.get r.1).tcpFlags.toNat < 64 ∧
        (u.tcp.get r.1).length.toNat ≤ 15) := by
  unfold readUnion
  by_cases htcp : l3Prot = 0x6
  · subst htcp
    rw [if_pos rfl]
    refine .bind_of (u.tcp.get old).read_fits fun r hr => .pure ⟨?_, fun _ => ?_⟩
    · exact ⟨fun _ => u.tcp.set_get_set _ _, nofun, nofun, nofun, nofun⟩
    · rw [u.tcp.get_set]
      exact hr
  rw [if_neg htcp]
  by_cases hudp : l3Prot = 0x11
  · subst hudp
    rw [if_pos rfl]
    refine .bind fun udp => .bind fun ih => .pure ⟨?_, nofun⟩
    exact ⟨nofun, fun _ => u.udp.set_get_set _ _, nofun, nofun, nofun⟩
  rw [if_neg hudp]
  by_cases hcnp : l3Prot = 0xFF
  · subst hcnp
    rw [if_pos rfl]
    refine .bind fun cnp => .pure ⟨?_, nofun⟩
    exact ⟨nofun, nofun, fun _ => u.cnp.set_get_set _ _, nofun, nofun⟩
  rw [if_neg hcnp]
  by_cases hack : l3Prot = 0xFC ∨ l3Prot = 0xFD
  · rw [if_pos hack]
    refine .bind fun ack => .bind fun ih => .pure ⟨?_, fun h => absurd h htcp⟩
    refine ⟨fun h => absurd h htcp, fun h => absurd h hudp, fun h => absurd h hcnp,
      fun _ => u.ack.set_get_set _ _, fun h => ?_⟩
    rcases hack with rfl | rfl <;> cases h
  rw [if_neg hack]
  by_cases hpfc : l3Prot = 0xFE
  · subst hpfc
    rw [if_pos rfl]
    refine .bind fun pfc => .pure ⟨?_, nofun⟩
    exact ⟨nofun, nofun, nofun, nofun, fun _ => u.pfc.set_get_set _ _⟩
  · rw [if_neg hpfc]
    refine .pure ⟨⟨fun h => absurd h htcp, fun h => absurd h hudp, fun h => absurd h hcnp,
      fun h => absurd h hack, fun h => absurd h hpfc⟩, fun h => absurd h htcp⟩

/-- What a header that was read in the full form has, besides the layers it is told to have. -/
structure Fits (old h : FullHeader σ) : Prop where
  brief : h.brief = false
  headerType : h.headerType = old.headerType
  ip : old.hasL3 → h.ip.Encodable
  inUse : old.hasL4 → InUse c u h.ip.l3Prot h.l4
  tcp : old.hasL4 → h.ip.l3Prot = 0x6 →
    (u.tcp.get h.l4).tcpFlags.toNat < 64 ∧ (u.tcp.get h.l4).length.toNat ≤ 15

section
variable {c u} {old h : FullHeader σ} {start : List UInt8}

theorem readL4_fits {o : FullHeader σ} {i : List UInt8} (hbrief : o.brief = false)
    (hip : o.hasL3 → o.ip.Encodable) (hd : o.readL4 c u size start i = some (h, n)) :
    Fits c u o h := by
  unfold readL4 at hd
  cases hl4 : o.hasL4 with
  | true =>
    rw [if_pos hl4] at hd
    obtain ⟨⟨⟨l4, l4Size⟩, i'⟩, hread, hd⟩ := Option.bind_eq_some_iff.mp hd
    cases hd
    rw [hbrief] at hread
    obtain ⟨hinUse, htcp⟩ := readUnion_fits c u _ _ _ hread
    exact ⟨hbrief, rfl, hip, fun _ => hinUse, fun _ => htcp⟩
  | false =>
    rw [if_neg (by rw [hl4]; decide)] at hd
    cases hd
    exact ⟨hbrief, rfl, hip, fun h4 => absurd (hl4.symm.trans h4) (by decide),
      fun h4 => absurd (hl4.symm.trans h4) (by decide)⟩

theorem deserialize_fits (hbrief : old.brief = false)
    (hd : old.deserialize c u start = some (h, n)) (hn : old.hasL3 → n ≠ 0) : Fits c u old h := by
  obtain ⟨⟨⟨pppProto, l2Size⟩, _⟩, -, hd⟩ := Option.bind_eq_some_iff.mp hd
  obtain ⟨⟨ip, i⟩, hread, hd⟩ := Option.bind_eq_some_iff.mp hd
  unfold readL3 at hread
  cases hl3 : old.hasL3 with
  | true =>
    rw [if_pos hl3, hbrief] at hread
    cases ip with
    | none =>
      cases hd
      exact absurd rfl (hn hl3)
    | some ip =>
      have hip := old.ip.read_encodable hread ip.1 ip.2 rfl
      obtain ⟨hb, ht, hi, huse, h4⟩ :=
        readL4_fits (o := { old with pppProto, ip := ip.1 }) hbrief (fun _ => hip) hd
      exact ⟨hb, ht, hi, huse, h4⟩
  | false =>
    rw [if_neg (by rw [hl3]; decide)] at hread
    cases hread
    have hnone : ¬ old.hasL3 := by rw [hl3]; decide
    obtain ⟨hb, ht, hi, huse, h4⟩ :=
      readL4_fits (o := { old with pppProto }) hbrief (fun h3 => absurd h3 hnone) hd
    exact ⟨hb, ht, fun h3 => absurd h3 hnone, huse, h4⟩

theorem overwrite_take {buf : List.Vector UInt8 m} (hk : k ≤ m) :
    overwrite buf (buf.toList.take k) = buf := by
  refine Subtype.ext ?_
  show (buf.toList.take k ++ buf.toList.drop (buf.toList.take k).length).take m = buf.toList
  rw [List.length_take, List.Vector.toList_length, Nat.min_eq_left hk, List.take_append_drop,
    List.take_of_length_le (List.Vector.toList_length _).le]

theorem Tcp.receive_self {h : Tcp} (hoptions : h.optionLen ≤ 32) : h.receive false h = h := by
  show { h with optionBuf := overwrite h.optionBuf (h.optionBuf.toList.take h.optionLen) } = h
  rw [overwrite_take hoptions]

theorem receiveL4_self {getInt : Bool} {l3Prot : UInt8} {s : σ} (h : InUse c u l3Prot s)
    (hoptions : l3Prot = 0x6 → (u.tcp.get s).optionLen ≤ 32) :
    receiveL4 c u false getInt l3Prot s s = s := by
  have hint (ih : IntHeader c.mode) : receiveInt c getInt ih ih = ih := by
    rw [receiveInt, IntHeader.receive_self, ite_self]
  unfold receiveL4
  by_cases htcp : l3Prot = 0x6
  · rw [if_pos htcp, Tcp.receive_self (hoptions htcp)]
    exact h.tcp htcp
  rw [if_neg htcp]
  by_cases hudp : l3Prot = 0x11
  · rw [if_pos hudp, hint]
    exact h.udp hudp
  rw [if_neg hudp]
  by_cases hcnp : l3Prot = 0xFF
  · rw [if_pos hcnp]
    exact h.cnp hcnp
  rw [if_neg hcnp]
  by_cases hack : l3Prot = 0xFC ∨ l3Prot = 0xFD
  · rw [if_pos hack, hint]
    exact h.ack hack
  rw [if_neg hack]
  by_cases hpfc : l3Prot = 0xFE
  · rw [if_pos hpfc]
    exact h.pfc hpfc
  · rw [if_neg hpfc]

/-- **What is read can be written again**, and is then read as it was, but for the checksum and the
options of IPv4: if it was IPv4, and the options of TCP were not discarded. -/
theorem header_read_again (hbrief : old.brief = false)
    (hd : old.deserialize c u start = some (h, n)) (hn : old.hasL3 → n ≠ 0)
    (hoptions : h.hasL4 → h.ip.l3Prot = 0x6 → (u.tcp.get h.l4).optionLen ≤ 32)
    (rest : List UInt8) :
    h.deserialize c u (h.serialize c u ++ rest) =
      some ({ h with
        ip := if h.hasL3 then { h.ip with checksum := 0, headerSize := 5 * 4 } else h.ip },
        h.getSerializedSize c u) := by
  obtain ⟨hb, htype, hip, huse, htcp⟩ := deserialize_fits hbrief hd hn
  have hl3 : old.hasL3 = h.hasL3 := by rw [hasL3, ← htype, hasL3]
  have hl4 : old.hasL4 = h.hasL4 := by rw [hasL4, ← htype, hasL4]
  rw [hl3] at hip
  rw [hl4] at huse htcp
  have hh : Encodable c u h h := {
    headerType := rfl
    ip := hip
    l3Prot := fun _ _ => rfl
    l4 := fun h4 => {
      tcp := fun h6 => Tcp.encodable_of_fits (htcp h4 h6).1 (htcp h4 h6).2 (hoptions h4 h6)
      length := fun _ _ => rfl } }
  have hl4 : (if h.hasL4 then receiveL4 c u h.brief h.getInt h.ip.l3Prot h.l4 h.l4 else h.l4) =
      h.l4 := by
    split
    · rw [hb, receiveL4_self (huse ‹_›) (hoptions ‹_›)]
    · rfl
  have hip : (if h.hasL3 then h.ip.receive h.brief h.ip else h.ip) =
      if h.hasL3 then { h.ip with checksum := 0, headerSize := 5 * 4 } else h.ip := by
    rw [hb]
    rfl
  rw [deserialize_serialize c u hh, receive, hl4, hip, ite_self]

/-- A UDP header behind one word of IPv4 options, with a checksum. -/
def udpOptions : List UInt8 :=
  [0, 0x21] ++ [0x46, 0, 0, 60, 0, 1, 0, 0, 64, 0x11, 7, 0, 0, 0, 0, 1, 0, 0, 0, 2, 1, 1, 1, 1] ++
    [0, 100, 0, 101, 0, 9, 0, 0, 0, 0, 0, 5, 0, 3]

theorem header_read_again_udpOptions : ∃ h,
    emptyHeader.deserialize {} (LastAssigned.union .none) udpOptions = some (h, 40) ∧
      h.ip.checksum = 7 ∧ h.ip.headerSize = 24 ∧ ∀ rest,
      h.deserialize {} (LastAssigned.union .none)
        (h.serialize {} (LastAssigned.union .none) ++ rest) = some ({ h with
          ip := if h.hasL3 then { h.ip with checksum := 0, headerSize := 5 * 4 } else h.ip },
          h.getSerializedSize {} (LastAssigned.union .none)) := by
  have hread : (emptyHeader.deserialize {} (LastAssigned.union .none) udpOptions).map (fun r =>
      (r.1.ip.checksum, r.1.ip.headerSize, r.1.ip.l3Prot, r.2)) = some (7, 24, 0x11, 40) := by
    decide +kernel
  obtain ⟨⟨h, n⟩, hd, hread⟩ := Option.map_eq_some_iff.mp hread
  obtain ⟨hchecksum, hsize, hprot, rfl⟩ : h.ip.checksum = 7 ∧ h.ip.headerSize = 24 ∧
      h.ip.l3Prot = 0x11 ∧ n = 40 := by simpa using hread
  have hudp : h.ip.l3Prot ≠ 0x6 := by rw [hprot]; decide
  exact ⟨h, hd, hchecksum, hsize,
    header_read_again rfl hd (fun _ => by decide) fun _ htcp => absurd htcp hudp⟩

end

end FullHeader

end Roce
