import Roce.QueuePair.UnreliableService

/-! # The packets of a multicast flow

`RdmaFlowMulticast` posts a single request of the size of all its packets, and leaves it to the send
queue to cut it into packets whose immediate values are their numbers. -/

namespace Roce

open RdmaUnreliableSQ (posts silent)

/-- What `RdmaFlowMulticast::OnFlowStarted` needs for the source: its MTU, the attributes of the
flow, the address of the source and the port that was drawn. -/
structure RdmaFlowMulticast where
  mtuBytes : UInt32
  numPktsToWrite : UInt32
  group : Nat := 0
  srcIp : Nat := 0
  port : Nat := 5000
  priority : Nat := 0
  throughput : Option Nat := none
  deriving DecidableEq, Repr

namespace RdmaFlowMulticast

section
variable (f : RdmaFlowMulticast)

/-- The request. Its size is a product of 32 bits. -/
def sendRequest : SendRequest where
  payloadSize := f.mtuBytes * f.numPktsToWrite
  multicast := true
  dip := f.group
  dport := f.port

/-- The send queue of the source, as `OnFlowStarted` leaves it. -/
def onFlowStarted : RdmaUnreliableSQ :=
  RdmaUnreliableSQ.postSend
    { mtu := f.mtuBytes.toNat, sip := f.srcIp, sport := f.port, pg := f.priority
      maxRate := f.throughput.getD 0 }
    f.sendRequest .fragmentAsImmediate

end

/-- The device takes packets from the queue until it is empty. `NotifyComplete` posts nothing to
it. -/
def sendAll : Nat → RdmaUnreliableSQ → Option RdmaUnreliableSQ
  | 0, _ => none
  | fuel + 1, s =>
    if s.hasDataToSend then do
      let (_, s) ← s.getNextPacket silent
      sendAll fuel s
    else some s

/-- The size and the immediate value of a packet, and whether `NotifyComplete` is called with it. -/
def fields (e : Emission) : Nat × UInt32 × Bool := (e.packet.size, e.packet.bth.imm, e.called)

/-- The source sends the packets that it was asked for, and completes with the last of them. -/
def EmitsAsAsked (f : RdmaFlowMulticast) : Prop :=
  ∃ fuel s, sendAll fuel f.onFlowStarted = some s ∧
    s.sent.map fields = (List.range f.numPktsToWrite.toNat).map fun i =>
      (f.mtuBytes.toNat, UInt32.ofNat i, decide (i + 1 = f.numPktsToWrite.toNat))

/-! ## What the source sends -/

section
variable {s s' : RdmaUnreliableSQ}

theorem sendAll_unique (h : sendAll fuel s = some t) (h' : sendAll fuel' s = some t') : t = t' := by
  induction fuel generalizing s fuel' with
  | zero => cases h
  | succ fuel ih =>
    cases fuel' with
    | zero => cases h'
    | succ fuel' =>
      unfold sendAll at h h'
      split at h
      · rw [if_pos ‹_›] at h'
        obtain ⟨x, hx, h⟩ := Option.bind_eq_some_iff.mp h
        rw [hx] at h'
        exact ih h h'
      · rw [if_neg ‹_›] at h'
        exact (Option.some.inj h).symm.trans (Option.some.inj h')

/-- The work element of a request after `k` fragments. -/
def workAt (sr : SendRequest) (mtu k : Nat) : WorkElement where
  sr := sr
  fragmentAsImmediate := true
  sentFragments := UInt32.ofNat k
  bytesSent := UInt32.ofNat (k * mtu)

theorem remBytes_workAt (sr : SendRequest) (h : k * mtu ≤ sr.payloadSize.toNat) :
    (sr.payloadSize - (workAt sr mtu k).bytesSent).toNat = sr.payloadSize.toNat - k * mtu := by
  have hlt := sr.payloadSize.toNat_lt
  simp only [workAt, UInt32.toNat_sub, UInt32.toNat_ofNat']
  omega

/-- A fragment that is not the last one. -/
theorem getNextPacket_fragment (h : s.toSend = [workAt sr s.mtu k])
    (hgt : (k + 1) * s.mtu < sr.payloadSize.toNat) :
    ∃ p s', s.getNextPacket silent = some (p, s') ∧ s'.mtu = s.mtu ∧
      s'.toSend = [workAt sr s.mtu (k + 1)] ∧
      s'.sent.map fields = s.sent.map fields ++ [(s.mtu, UInt32.ofNat k, false)] := by
  have hk : (k + 1) * s.mtu = k * s.mtu + s.mtu := Nat.succ_mul ..
  have hle : k * s.mtu ≤ sr.payloadSize.toNat := by omega
  have hrem := remBytes_workAt sr hle
  have hmore : s.mtu < (sr.payloadSize - (workAt sr s.mtu k).bytesSent).toNat := by omega
  have hwork : (workAt sr s.mtu k).sr = sr := rfl
  simp only [RdmaUnreliableSQ.getNextPacket, h, hwork, hmore, ↓reduceIte]
  refine ⟨_, _, rfl, rfl, ?_, ?_⟩
  · simp [RdmaUnreliableSQ.advance, workAt, hk, UInt32.ofNat_add]
  · simp [RdmaUnreliableSQ.advance, fields, RdmaUnreliableSQ.packetAt, workAt]

/-- The last packet has the size of the request. -/
theorem getNextPacket_final (h : s.toSend = [workAt sr s.mtu k])
    (hle : sr.payloadSize.toNat - k * s.mtu ≤ s.mtu) (hk : k * s.mtu ≤ sr.payloadSize.toNat) :
    ∃ p s', s.getNextPacket silent = some (p, s') ∧ s'.toSend = [] ∧
      s'.sent.map fields =
        s.sent.map fields ++ [(sr.payloadSize.toNat, UInt32.ofNat k, sr.onSend)] := by
  obtain ⟨s', hs', -, hts, -, hsent⟩ := RdmaUnreliableSQ.getNextPacket_last silent h
    (by rw [show (workAt sr s.mtu k).sr = sr from rfl, remBytes_workAt sr hk]; exact hle)
  have hnil : posts silent (workAt sr s.mtu k).sr = [] := by
    unfold posts
    split <;> rfl
  rw [hnil] at hts
  refine ⟨_, s', hs', hts, ?_⟩
  rw [hsent, List.map_append]
  rfl

/-- From `k` fragments on there are `c` more, and then the last packet. -/
theorem sendAll_workAt (h : s.toSend = [workAt sr s.mtu k]) (hcall : sr.onSend = true)
    (hk : k * s.mtu ≤ sr.payloadSize.toNat) (hlt : 0 < c → (k + c) * s.mtu < sr.payloadSize.toNat)
    (hle : sr.payloadSize.toNat ≤ (k + c + 1) * s.mtu) :
    ∃ fuel s', sendAll fuel s = some s' ∧ s'.sent.map fields = s.sent.map fields ++
      (List.range (c + 1)).map fun i =>
        (if i = c then sr.payloadSize.toNat else s.mtu, UInt32.ofNat (k + i), decide (i = c)) := by
  have hdata : s.hasDataToSend = true := by simp [RdmaUnreliableSQ.hasDataToSend, h]
  induction c generalizing s k with
  | zero =>
    have hk' : (k + 0 + 1) * s.mtu = k * s.mtu + s.mtu := Nat.succ_mul ..
    obtain ⟨p, s', hs', hts, hsent⟩ := getNextPacket_final h (by omega) hk
    have hend : s'.hasDataToSend = false := by simp [RdmaUnreliableSQ.hasDataToSend, hts]
    refine ⟨2, s', ?_, ?_⟩
    · simp [sendAll, hdata, hs', hend]
    · simp [hsent, hcall]
  | succ c ih =>
    have hmore := hlt c.succ_pos
    have hkc : k + (c + 1) = k + 1 + c := by omega
    have hstep : (k + 1) * s.mtu ≤ (k + (c + 1)) * s.mtu := Nat.mul_le_mul_right _ (by omega)
    obtain ⟨p, t, ht, hmtu, hts, hsent⟩ := getNextPacket_fragment h (by omega)
    obtain ⟨fuel, s', hs', hsent'⟩ := ih (s := t) (k := k + 1) (by rw [hmtu]; exact hts)
      (by rw [hmtu]; omega) (fun _ => by rw [hmtu, ← hkc]; exact hmore)
      (by rw [hmtu, ← hkc]; exact hle) (by simp [RdmaUnreliableSQ.hasDataToSend, hts])
    refine ⟨fuel + 1, s', ?_, ?_⟩
    · simp [sendAll, hdata, ht, hs']
    · rw [hsent', hsent, hmtu, List.append_assoc, List.range_succ_eq_map (n := c + 1)]
      simp [Function.comp_def, Nat.add_assoc, Nat.add_comm 1]

end

/-- What the source sends: fragments of one MTU, and a last packet of the size of the request. -/
theorem sendAll_onFlowStarted (f : RdmaFlowMulticast) (hmtu : 0 < f.mtuBytes) :
    ∃ fuel s, sendAll fuel f.onFlowStarted = some s ∧ s.sent.map fields =
      (List.range ((f.sendRequest.payloadSize.toNat - 1) / f.mtuBytes.toNat + 1)).map fun i =>
        (if i = (f.sendRequest.payloadSize.toNat - 1) / f.mtuBytes.toNat then
          f.sendRequest.payloadSize.toNat else f.mtuBytes.toNat, UInt32.ofNat i,
          decide (i = (f.sendRequest.payloadSize.toNat - 1) / f.mtuBytes.toNat)) := by
  have hpos : 0 < f.mtuBytes.toNat := by simpa using UInt32.lt_iff_toNat_lt.mp hmtu
  generalize hc : (f.sendRequest.payloadSize.toNat - 1) / f.mtuBytes.toNat = c
  have hdiv := Nat.div_add_mod (f.sendRequest.payloadSize.toNat - 1) f.mtuBytes.toNat
  have hmod := Nat.mod_lt (f.sendRequest.payloadSize.toNat - 1) hpos
  have hcomm : f.mtuBytes.toNat * c = c * f.mtuBytes.toNat := Nat.mul_comm ..
  have hsucc : (c + 1) * f.mtuBytes.toNat = c * f.mtuBytes.toNat + f.mtuBytes.toNat :=
    Nat.succ_mul ..
  have hcpos : 0 < c → 0 < c * f.mtuBytes.toNat := fun h => Nat.mul_pos h hpos
  rw [hc] at hdiv
  have hlt : 0 < c → (0 + c) * f.mtuBytes.toNat < f.sendRequest.payloadSize.toNat := by
    intro h
    have := hcpos h
    rw [Nat.zero_add]
    omega
  have hle : f.sendRequest.payloadSize.toNat ≤ (0 + c + 1) * f.mtuBytes.toNat := by
    rw [Nat.zero_add]
    omega
  obtain ⟨fuel, s, hs, hsent⟩ := sendAll_workAt (s := f.onFlowStarted) (k := 0)
    (by simp [onFlowStarted, RdmaUnreliableSQ.postSend_toSend, workAt]) rfl (by simp) hlt hle
  exact ⟨fuel, s, hs, by simpa [onFlowStarted, RdmaUnreliableSQ.postSend] using hsent⟩

/-- **The source sends what it was asked for exactly if this is one packet.** -/
theorem emitsAsAsked_iff (f : RdmaFlowMulticast) (hmtu : 0 < f.mtuBytes) :
    EmitsAsAsked f ↔ f.numPktsToWrite = 1 := by
  have hpos : 0 < f.mtuBytes.toNat := by simpa using UInt32.lt_iff_toNat_lt.mp hmtu
  obtain ⟨fuel, s, hs, hsent⟩ := sendAll_onFlowStarted f hmtu
  constructor
  · rintro ⟨fuel', s', hs', hsent'⟩
    obtain rfl := sendAll_unique hs hs'
    rw [hsent] at hsent'
    have hlen := congrArg List.length hsent'
    rw [List.length_map, List.length_map, List.length_range, List.length_range] at hlen
    -- the last packet has one MTU, and then it is the first
    have hlast := congrArg (·[(f.sendRequest.payloadSize.toNat - 1) / f.mtuBytes.toNat]?) hsent'
    simp only [List.getElem?_map] at hlast
    rw [List.getElem?_range (by omega), List.getElem?_range (by omega)] at hlast
    simp only [Option.map_some, ↓reduceIte, Option.some.injEq, Prod.mk.injEq] at hlast
    rw [hlast.1, Nat.div_eq_of_lt (Nat.sub_lt hpos Nat.one_pos)] at hlen
    exact UInt32.toNat_inj.mp hlen.symm
  · intro hone
    refine ⟨fuel, s, hs, ?_⟩
    have hsize : f.sendRequest.payloadSize = f.mtuBytes := by simp [sendRequest, hone]
    rw [hsent, hsize, Nat.div_eq_of_lt (Nat.sub_lt hpos Nat.one_pos), hone]
    rfl

theorem emitsAsAsked_iff_one : EmitsAsAsked { mtuBytes := 1000, numPktsToWrite := 1 } ↔
    (1 : UInt32) = 1 :=
  emitsAsAsked_iff { mtuBytes := 1000, numPktsToWrite := 1 } (by decide)

theorem not_emitsAsAsked_two : ¬∀ f : RdmaFlowMulticast, 0 < f.mtuBytes → 1 ≤ f.numPktsToWrite →
    EmitsAsAsked f := by
  intro h
  obtain ⟨fuel, s, hs, hsent⟩ := h { mtuBytes := 1000, numPktsToWrite := 2 } (by decide) (by decide)
  have hrun : ∃ t, sendAll 3 (onFlowStarted { mtuBytes := 1000, numPktsToWrite := 2 }) = some t ∧
      t.sent.map fields = [(1000, 0, false), (2000, 1, true)] := ⟨_, rfl, by decide⟩
  obtain ⟨t, ht, hfields⟩ := hrun
  obtain rfl := sendAll_unique hs ht
  rw [hfields] at hsent
  exact absurd hsent (by decide)

end RdmaFlowMulticast
end Roce
