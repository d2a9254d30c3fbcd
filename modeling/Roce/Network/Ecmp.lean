import Mathlib.Tactic.Common

/-! # Headers and the ECMP hash

The header fields that a switch reads, and the hash by which it picks one of several ports. -/

namespace Roce

/-- `CustomHeader`. The ports of the TCP, UDP and ACK headers share their place in a union, and so
do the priority groups of the UDP and ACK headers. -/
structure CustomHeader where
  sip : UInt32 := 0
  dip : UInt32 := 0
  l3Prot : Nat := 0x11
  sport : UInt16 := 0
  dport : UInt16 := 0
  pg : Nat := 0
  deriving DecidableEq, Repr

namespace SwitchNode

/-- One turn of the loop of `EcmpHash` over the words of the key. -/
def ecmpWord (h k : UInt32) : UInt32 :=
  let k := k * 0xcc9e2d51
  let k := (k <<< 15) ||| (k >>> 17)
  let k := k * 0x1b873593
  let h := h ^^^ k
  let h := (h <<< 13) ||| (h >>> 19)
  h + ((h <<< 2) + 0xe6546b64)

/-- `EcmpHash`, of a key of whole words. -/
def ecmpHash (key : List UInt32) (seed : UInt32) : UInt32 :=
  let h := key.foldl ecmpWord seed
  let h := h ^^^ (4 * key.length).toUInt32
  let h := h ^^^ (h >>> 16)
  let h := h * 0x85ebca6b
  let h := h ^^^ (h >>> 13)
  let h := h * 0xc2b2ae35
  h ^^^ (h >>> 16)

/-- The key of a header. For other protocols its last word is not set, and has the value `junk`. -/
def ecmpKey (ch : CustomHeader) (junk : UInt32) : List UInt32 :=
  [ch.sip, ch.dip,
    if ch.l3Prot = 0x6 ∨ ch.l3Prot = 0x11 ∨ ch.l3Prot = 0xFC ∨ ch.l3Prot = 0xFD then
      ch.sport.toUInt32 ||| (ch.dport.toUInt32 <<< 16)
    else junk]

/-- `v[hash % v.size()]`. -/
def hashPick (ports : List Nat) (hash : UInt32) : Option Nat := ports[hash.toNat % ports.length]?

/-- `v[EcmpHash(..) % v.size()]`. -/
def ecmpPick (ports : List Nat) (ch : CustomHeader) (junk seed : UInt32) : Option Nat :=
  hashPick ports (ecmpHash (ecmpKey ch junk) seed)

/-- A hash picks one of the ports, if there are any. -/
theorem hashPick_eq {ports : List Nat} (h : ports ≠ []) (hash : UInt32) :
    ∃ port ∈ ports, hashPick ports hash = some port := by
  have hlt := Nat.mod_lt hash.toNat (List.length_pos_iff.mpr h)
  exact ⟨_, List.getElem_mem hlt, List.getElem?_eq_getElem hlt⟩

theorem ecmpPick_eq {ports : List Nat} (h : ports ≠ []) (ch : CustomHeader) (junk seed : UInt32) :
    ∃ port ∈ ports, ecmpPick ports ch junk seed = some port :=
  hashPick_eq h _

end SwitchNode
end Roce
