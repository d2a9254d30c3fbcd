import Roce.Host.HeaderFormat

/-! # The forms of `CustomHeader` agree

The brief form and the full one read the same of a packet, whatever the header had before: what
`CustomHeader.deserialize` reads, which is the form of the devices. -/

namespace Roce

open Bytes

namespace Buffer

theorem readU8_agrees : Agrees readU8 (readLe 1) fun x n => x.toNat = n :=
  .map_readLe fun _ hn => UInt8.toNat_ofNat_of_lt' hn

theorem readU16_agrees : Agrees readU16 (readLe 2) fun x n => x.toNat = n :=
  .map_readLe fun _ hn => UInt16.toNat_ofNat_of_lt' hn

theorem readU32_agrees : Agrees readU32 (readLe 4) fun x n => x.toNat = n :=
  .map_readLe fun _ hn => UInt32.toNat_ofNat_of_lt' hn

theorem readNtohU16_agrees : Agrees readNtohU16 (readBe 2) fun x n => x.toNat = n :=
  .map_readBe fun _ hn => UInt16.toNat_ofNat_of_lt' hn

theorem readNtohU32_agrees : Agrees readNtohU32 (readBe 4) fun x n => x.toNat = n :=
  .map_readBe fun _ hn => UInt32.toNat_ofNat_of_lt' hn

/-- One byte has no order. -/
theorem readBe_one : readBe 1 = readLe 1 := by
  funext bs
  show (bytes 1 bs >>= fun y => some (value y.1.reverse, y.2)) =
    bytes 1 bs >>= fun y => some (value y.1, y.2)
  unfold bytes
  split
  · match bs with
    | b :: bs => rfl
  · rfl

end Buffer

open Buffer

namespace FullHeader

/-- The fields of IPv4 that the devices read. -/
def Ipv4.parsed (h : Ipv4) : L3Header where
  tos := h.tos.toNat
  ipid := h.ipid.toNat
  l3Prot := h.l3Prot.toNat
  sip := h.sip.toNat
  dip := h.dip.toNat

def Udp.parsed (h : Udp) : L4Header := .udp h.sport.toNat h.dport.toNat h.seq.toNat h.pg.toNat

def Cnp.parsed (h : Cnp) : L4Header :=
  .cnp h.qIndex.toNat h.fid.toNat h.ecnBits.toNat h.qfb.toNat h.total.toNat

def Ack.parsed (h : Ack) : L4Header :=
  .ack h.sport.toNat h.dport.toNat h.flags.toNat h.pg.toNat h.seq.toNat

def Pfc.parsed (h : Pfc) : L4Header := .pfc h.time.toNat h.qlen.toNat h.qIndex.toNat

variable {σ : Type} {c : IntConfig} (u : L4 c.mode σ)

/-- The fields of the member in use that the devices read. -/
def parsedL4 (l3Prot : UInt8) (s : σ) : L4Header :=
  if l3Prot = 0x11 then (u.udp.get s).1.parsed
  else if l3Prot = 0xFF then (u.cnp.get s).parsed
  else if l3Prot = 0xFC ∨ l3Prot = 0xFD then (u.ack.get s).1.parsed
  else if l3Prot = 0xFE then (u.pfc.get s).parsed
  else .other

/-- What the devices read. -/
def parsed (h : FullHeader σ) : ParsedHeader where
  toL3Header := h.ip.parsed
  pppProto := h.pppProto.toNat
  l4 := parsedL4 u h.ip.l3Prot h.l4

/-- What the devices read after the first byte. -/
def readL3Fields : Reader L3Header := do
  let tos ← readBe 1
  skip 2
  let ipid ← readBe 2
  skip 3
  let l3Prot ← readBe 1
  skip 2
  let sip ← readBe 4
  let dip ← readBe 4
  return { tos, ipid, l3Prot, sip, dip }

theorem Ipv4.readFields_agrees (brief : Bool) (old : Ipv4) (headerSize : Nat) :
    Agrees (old.readFields brief headerSize) readL3Fields fun h l3 => h.parsed = l3 := by
  unfold readFields readL3Fields
  rw [readBe_one]
  cases brief with
  | true =>
    rw [if_pos rfl]
    refine readU8_agrees.bind fun tos _ htos => ?_
    refine (Agrees.refl _).bind fun _ _ _ => ?_
    refine readNtohU16_agrees.bind fun ipid _ hipid => ?_
    refine (Agrees.refl _).bind fun _ _ _ => ?_
    refine readU8_agrees.bind fun l3Prot _ hprot => ?_
    refine (Agrees.refl _).bind fun _ _ _ => ?_
    refine readNtohU32_agrees.bind fun sip _ hsip => ?_
    refine readNtohU32_agrees.bind fun dip _ hdip => ?_
    subst htos hipid hprot hsip hdip
    exact .pure rfl
  | false =>
    have hskip : skip 3 = skip 1 >>= fun _ => skip 1 >>= fun _ => skip 1 :=
      (skip_add 1 2).trans (congrArg _ (funext fun _ => skip_add 1 1))
    rw [if_neg (by decide), hskip]
    simp only [bind_assoc]
    refine readU8_agrees.bind fun tos _ htos => ?_
    refine Agrees.skip_be.bind fun size _ _ => ?_
    refine readNtohU16_agrees.bind fun ipid _ hipid => ?_
    refine Agrees.skip_le.bind fun flags _ _ => ?_
    refine Agrees.skip_le.bind fun frag _ _ => ?_
    refine Agrees.skip_le.bind fun ttl _ _ => ?_
    refine readU8_agrees.bind fun l3Prot _ hprot => ?_
    refine Agrees.skip_le.bind fun checksum _ _ => ?_
    refine readNtohU32_agrees.bind fun sip _ hsip => ?_
    refine readNtohU32_agrees.bind fun dip _ hdip => ?_
    subst htos hipid hprot hsip hdip
    exact .pure rfl

/-- IPv4 is read in the same way. -/
theorem Ipv4.read_agrees {brief : Bool} {old h : Ipv4} {bs rest : List UInt8} {l3Size : Nat}
    (hd : read brief old bs = some (some (h, l3Size), rest)) :
    CustomHeader.readL3 bs = some ((l3Size, h.parsed), rest) := by
  obtain ⟨⟨verIhl, mid⟩, hver, hd⟩ := Option.bind_eq_some_iff.mp hd
  obtain ⟨n, hn, rfl⟩ := readU8_agrees hver
  rw [← readBe_one] at hn
  refine (bind_eq hn).trans ?_
  dsimp only at hd ⊢
  by_cases hfour : verIhl.toNat / 16 = 4
  · rw [if_neg (not_not.mpr hfour)] at hd
    rw [if_pos hfour]
    obtain ⟨⟨h', rest'⟩, hfields, hd⟩ := Option.bind_eq_some_iff.mp hd
    cases hd
    obtain ⟨l3, hl3, rfl⟩ := old.readFields_agrees brief _ hfields
    have hbody : (readL3Fields >>= fun l3 => (pure (verIhl.toNat % 16 * 4, l3) : Reader _)) mid =
        some ((verIhl.toNat % 16 * 4, h.parsed), rest) := bind_eq hl3
    simp only [readL3Fields, bind_assoc, pure_bind] at hbody
    exact hbody
  · rw [if_pos hfour] at hd
    cases hd

theorem Udp.read_agrees (brief : Bool) (old : Udp) : Agrees (old.read brief) CustomHeader.readUdp
    fun h l4 => h.parsed = l4 := by
  unfold read CustomHeader.readUdp
  refine readNtohU16_agrees.bind fun sport _ hsport => ?_
  refine readNtohU16_agrees.bind fun dport _ hdport => ?_
  cases brief with
  | true =>
    rw [if_pos rfl]
    refine (Agrees.refl _).bind fun _ _ _ => ?_
    refine readNtohU32_agrees.bind fun seq _ hseq => ?_
    refine readNtohU16_agrees.bind fun pg _ hpg => ?_
    subst hsport hdport hseq hpg
    exact .pure rfl
  | false =>
    rw [if_neg (by decide), skip_add 2 2]
    simp only [bind_assoc]
    refine Agrees.skip_be.bind fun payloadSize _ _ => ?_
    refine (Agrees.refl _).bind fun _ _ _ => ?_
    refine readNtohU32_agrees.bind fun seq _ hseq => ?_
    refine readNtohU16_agrees.bind fun pg _ hpg => ?_
    subst hsport hdport hseq hpg
    exact .pure rfl

theorem Cnp.read_agrees :
    Agrees Cnp.read (CustomHeader.readL4 0xFF) fun h l4 => h.parsed = l4 := by
  unfold read CustomHeader.readL4
  rw [if_pos rfl]
  refine readU8_agrees.bind fun qIndex _ hqIndex => ?_
  refine readU16_agrees.bind fun fid _ hfid => ?_
  refine readU8_agrees.bind fun ecnBits _ hecnBits => ?_
  refine readU16_agrees.bind fun qfb _ hqfb => ?_
  refine readU16_agrees.bind fun total _ htotal => ?_
  subst hqIndex hfid hecnBits hqfb htotal
  exact .pure rfl

theorem Ack.read_agrees (hprot : l3Prot = 0xFC ∨ l3Prot = 0xFD) :
    Agrees Ack.read (CustomHeader.readL4 l3Prot) fun h l4 => h.parsed = l4 := by
  unfold read CustomHeader.readL4
  rw [if_neg (by omega), if_pos hprot]
  refine readU16_agrees.bind fun sport _ hsport => ?_
  refine readU16_agrees.bind fun dport _ hdport => ?_
  refine readU16_agrees.bind fun flags _ hflags => ?_
  refine readU16_agrees.bind fun pg _ hpg => ?_
  refine readU32_agrees.bind fun seq _ hseq => ?_
  subst hsport hdport hflags hpg hseq
  exact .pure rfl

theorem Pfc.read_agrees :
    Agrees Pfc.read (CustomHeader.readL4 0xFE) fun h l4 => h.parsed = l4 := by
  unfold read CustomHeader.readL4
  rw [if_neg (by decide), if_neg (by decide), if_pos rfl]
  refine readU32_agrees.bind fun time _ htime => ?_
  refine readU32_agrees.bind fun qlen _ hqlen => ?_
  refine readU8_agrees.bind fun qIndex _ hqIndex => ?_
  subst htime hqlen hqIndex
  exact .pure rfl

/-- Without an `IntHeader` nothing is read of it. -/
theorem readInt_none (hmode : c.mode = .none) (getInt : Bool) (old : IntHeader c.mode) :
    readInt c getInt old = pure old := by
  have hnone : ∀ {m : IntHeader.Mode} (old : IntHeader m), m = .none →
      old.deserialize c.pintBytes = pure old := by
    intro m old hm
    subst hm
    cases old
    rfl
  rw [readInt, hnone old hmode, ite_self]

/-- The member in use is read in the same way, where an `IntHeader` has no bytes. -/
theorem readUnion_agrees (hmode : c.mode = .none) (brief getInt : Bool) {l3Prot : UInt8} (old : σ)
    (htcp : l3Prot ≠ 0x6) : Agrees (readUnion c u brief getInt l3Prot old)
      (if l3Prot.toNat = 0x11 then CustomHeader.readUdp else CustomHeader.readL4 l3Prot.toNat)
      fun r l4 => parsedL4 u l3Prot r.1 = l4 := by
  unfold readUnion
  simp only [readInt_none hmode, pure_bind]
  rw [if_neg htcp]
  by_cases hudp : l3Prot = 0x11
  · subst hudp
    rw [if_pos rfl, if_pos (show UInt8.toNat 0x11 = 0x11 from rfl)]
    refine .bind_pure ((u.udp.get old).1.read_agrees brief) fun udp l4 h => ?_
    exact (congrArg (·.1.parsed) (u.udp.get_set (udp, _) _)).trans h
  have hne (x : UInt8) (h : l3Prot ≠ x) : l3Prot.toNat ≠ x.toNat :=
    fun e => h (UInt8.toNat_inj.mp e)
  rw [if_neg hudp, if_neg (show l3Prot.toNat ≠ 0x11 from hne _ hudp)]
  by_cases hcnp : l3Prot = 0xFF
  · subst hcnp
    rw [if_pos rfl]
    refine .bind_pure Cnp.read_agrees fun cnp l4 h => ?_
    exact (congrArg Cnp.parsed (u.cnp.get_set _ _)).trans h
  rw [if_neg hcnp]
  by_cases hack : l3Prot = 0xFC ∨ l3Prot = 0xFD
  · have hprot : l3Prot.toNat = 0xFC ∨ l3Prot.toNat = 0xFD :=
      hack.imp (congrArg UInt8.toNat) (congrArg UInt8.toNat)
    rw [if_pos hack]
    refine .bind_pure (Ack.read_agrees hprot) fun ack l4 h => ?_
    unfold parsedL4
    rw [if_neg hudp, if_neg hcnp, if_pos hack, u.ack.get_set]
    exact h
  rw [if_neg hack]
  by_cases hpfc : l3Prot = 0xFE
  · subst hpfc
    rw [if_pos rfl]
    refine .bind_pure Pfc.read_agrees fun pfc l4 h => ?_
    exact (congrArg Pfc.parsed (u.pfc.get_set _ _)).trans h
  · have hother : CustomHeader.readL4 l3Prot.toNat = pure .other := by
      unfold CustomHeader.readL4
      have hcnp : l3Prot.toNat ≠ 0xFF := hne _ hcnp
      have hack1 : l3Prot.toNat ≠ 0xFC := hne _ fun h => hack (.inl h)
      have hack2 : l3Prot.toNat ≠ 0xFD := hne _ fun h => hack (.inr h)
      have hpfc : l3Prot.toNat ≠ 0xFE := hne _ hpfc
      rw [if_neg hcnp, if_neg (not_or.mpr ⟨hack1, hack2⟩), if_neg hpfc]
    rw [if_neg hpfc, hother]
    refine .pure ?_
    unfold parsedL4
    rw [if_neg hudp, if_neg hcnp, if_neg hack, if_neg hpfc]

/-- **The forms agree**: with all layers and no `IntHeader`, the brief form and the full one read of
every packet but TCP what the devices read, whatever the header had before. -/
theorem forms_agree {old h : FullHeader σ} {start : List UInt8}
    (hall : old.headerType = 1 ||| 2 ||| 4) (hmode : c.mode = .none)
    (hd : old.deserialize c u start = some (h, n)) (hn : n ≠ 0) (htcp : h.ip.l3Prot ≠ 0x6) :
    CustomHeader.deserialize start = some (h.parsed u) := by
  have hl2 : old.hasL2 := by rw [hasL2, hall]; rfl
  have hl3 : old.hasL3 := by rw [hasL3, hall]; rfl
  have hl4 : old.hasL4 := by rw [hasL4, hall]; rfl
  obtain ⟨⟨⟨pppProto, l2Size⟩, i2⟩, hppp, hd⟩ := Option.bind_eq_some_iff.mp hd
  obtain ⟨⟨ip, i⟩, hip, hd⟩ := Option.bind_eq_some_iff.mp hd
  rw [readL2, if_pos hl2] at hppp
  rw [readL3, if_pos hl3] at hip
  obtain ⟨⟨pppProto, i2⟩, hppp, hpure⟩ := Option.bind_eq_some_iff.mp hppp
  cases hpure
  obtain ⟨_, hppp, rfl⟩ := readNtohU16_agrees hppp
  cases ip with
  | none =>
    cases hd
    exact absurd rfl hn
  | some ip =>
    have hl3 := Ipv4.read_agrees hip
    have hd : readL4 c u { old with pppProto, ip := ip.1 } (2 + ip.2) start i = some (h, n) := hd
    unfold readL4 at hd
    rw [if_pos (show hasL4 { old with pppProto, ip := ip.1 } from hl4)] at hd
    obtain ⟨⟨⟨l4, l4Size⟩, i'⟩, hread, hd⟩ := Option.bind_eq_some_iff.mp hd
    cases hd
    obtain ⟨_, hl4, rfl⟩ := readUnion_agrees u hmode old.brief old.getInt old.l4 htcp hread
    have hplace : (ip.1.l3Prot = 0x6 ∨ ip.1.l3Prot = 0x11) ↔ ip.1.l3Prot.toNat = 0x11 := by
      rw [or_iff_right htcp]
      exact UInt8.toNat_inj.symm
    simp only [hplace] at hl4
    unfold CustomHeader.deserialize
    rw [hppp]
    simp only [Option.bind_eq_bind, Option.bind_some]
    rw [hl3]
    simp only [Option.bind_some]
    by_cases hudp : ip.1.l3Prot.toNat = 0x11
    · rw [if_pos hudp, if_pos hudp] at hl4
      rw [if_pos (show ip.1.parsed.l3Prot = 0x11 from hudp), hl4]
      rfl
    · rw [if_neg hudp, if_neg hudp] at hl4
      rw [if_neg (show ip.1.parsed.l3Prot ≠ 0x11 from hudp),
        show ip.1.parsed.l3Prot = ip.1.l3Prot.toNat from rfl, hl4]
      rfl

/-- `emptyHeader`, in the brief form. -/
def briefHeader : FullHeader (LastAssigned .none) := { emptyHeader with brief := true }

theorem forms_agree_udpOptions : ∃ h h',
    emptyHeader.deserialize {} (LastAssigned.union .none) udpOptions = some (h, 40) ∧
    briefHeader.deserialize {} (LastAssigned.union .none) udpOptions = some (h', 40) ∧ h ≠ h' ∧
    CustomHeader.deserialize udpOptions = some (h.parsed (c := {}) (LastAssigned.union .none)) ∧
    CustomHeader.deserialize udpOptions =
      some (h'.parsed (c := {}) (LastAssigned.union .none)) := by
  have hfull : (emptyHeader.deserialize {} (LastAssigned.union .none) udpOptions).map (fun r =>
      (r.1.ip.l3Prot, r.1.brief, r.2)) = some (0x11, false, 40) := by decide +kernel
  have hbrief : (briefHeader.deserialize {} (LastAssigned.union .none) udpOptions).map (fun r =>
      (r.1.ip.l3Prot, r.1.brief, r.2)) = some (0x11, true, 40) := by decide +kernel
  obtain ⟨⟨h, n⟩, hd, hfull⟩ := Option.map_eq_some_iff.mp hfull
  obtain ⟨⟨h', n'⟩, hd', hbrief⟩ := Option.map_eq_some_iff.mp hbrief
  obtain ⟨hprot, hb, rfl⟩ : h.ip.l3Prot = 0x11 ∧ h.brief = false ∧ n = 40 := by simpa using hfull
  obtain ⟨hprot', hb', rfl⟩ : h'.ip.l3Prot = 0x11 ∧ h'.brief = true ∧ n' = 40 := by
    simpa using hbrief
  refine ⟨h, h', hd, hd', ?_, ?_, ?_⟩
  · intro heq
    rw [heq, hb'] at hb
    cases hb
  · exact forms_agree _ rfl rfl hd (by decide) (by rw [hprot]; decide)
  · exact forms_agree _ rfl rfl hd' (by decide) (by rw [hprot']; decide)

end FullHeader

end Roce
