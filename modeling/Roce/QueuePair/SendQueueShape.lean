import Roce.QueuePair.ReliablePair

/-! # The shape of the send queue

The send queue on its own, with ACKs and NACKs that carry the end of a packet that was sent, however
old. Whatever the order of the calls, the requests in the map are those that are not completed, the
window starts in the first of them, and a packet that is sent again is cut as before. -/

namespace Roce
namespace RdmaReliableSQ

/-- A queue as constructed and registered, with any window. -/
def Registered (s : RdmaReliableSQ) : Prop := Fresh { s with win := 0 }

/-- An ACK or a NACK carries the end of a packet that was sent. -/
def AcksSent (s : RdmaReliableSQ) : Event → Prop
  | .ack n _ | .nack n _ => ∃ p ∈ s.log.sent, n = p.seqTs.seq + p.size
  | _ => True

/-- The send queue with such ACKs and NACKs. -/
def sender : Machine RdmaReliableSQ Event :=
  (⟨Registered, Step⟩ : Machine RdmaReliableSQ Event).restrict AcksSent

/-- The representation invariant. -/
structure Represented (s : RdmaReliableSQ) : Prop where
  una_le : s.sndUna ≤ s.sndNxt
  nxt_le : s.sndNxt ≤ s.nextOpFirstPsn
  keyed : ∀ e ∈ s.toSend.entries, e.1 = e.2.firstPsn
  tiles : ∃ a, Tiles SendRequest.firstPsn SendRequest.endPsn a s.toSend.values s.nextOpFirstPsn
  first : ∀ r ∈ s.toSend.values.head?, r.firstPsn ≤ s.sndUna ∧ s.sndUna < r.endPsn
  empty : s.toSend.isEmpty ↔ s.sndUna = s.nextOpFirstPsn
  inside : ∀ p ∈ s.log.sent, (∃! r, r ∈ s.log.posted ∧ r.firstPsn ≤ p.seqTs.seq ∧
    p.seqTs.seq + p.size ≤ r.endPsn) ∧ 1 ≤ p.size ∧ p.size ≤ s.mtu
  stable : ∀ p ∈ s.log.sent, ∀ q ∈ s.log.sent, p.seqTs.seq = q.seqTs.seq → p.size = q.size ∧
    p.bth.notif = q.bth.notif ∧ p.bth.imm = q.bth.imm ∧ p.bth.ackReq = q.bth.ackReq

/-- What holds between two calls: the window lies between boundaries of the posted requests, and the
packets are the pieces of these requests. -/
structure Shaped (s : RdmaReliableSQ) : Prop where
  live : Live s
  pending : HeadPending s
  nxt_le : s.sndNxt ≤ s.nextOpFirstPsn
  una_bd : Boundary s.mtu s.log.posted s.sndUna
  nxt_bd : Boundary s.mtu s.log.posted s.sndNxt
  sent : ∀ p ∈ s.log.sent, ∃ r ∈ s.log.posted, PieceOf s.mtu r p ∧
    p.bth = s.bthAt r p.seqTs.seq p.size

theorem Registered.shaped {s : RdmaReliableSQ} (h : Registered s) : Shaped s where
  live :=
    have hl := Fresh.live h
    ⟨hl.mtu_pos, ⟨hl.laid.tiles, hl.laid.split, hl.laid.keyed⟩, hl.una_le, hl.high_le, hl.nxt_le,
      hl.armed, hl.top⟩
  pending := by
    have htoSend : s.toSend = .empty := h.toSend
    intro e he
    rw [htoSend] at he
    cases he
  nxt_le := by
    have hnxt : s.sndNxt = 0 := h.nxt
    rw [hnxt]
    exact Nat.zero_le _
  una_bd := by
    have huna : s.sndUna = 0 := h.una
    rw [huna]
    exact .zero _
  nxt_bd := by
    have hnxt : s.sndNxt = 0 := h.nxt
    rw [hnxt]
    exact .zero _
  sent := by
    have hlog : s.log = {} := h.log
    rw [hlog]
    exact fun _ hp => nomatch hp

namespace Shaped

variable {s s' : RdmaReliableSQ}

/-! ## The steps -/

/-- The window moves between boundaries, and requests are posted and completed. -/
theorem window (h : Shaped s) (hl : Live s') (hpend : HeadPending s')
    (hpost : s.log.posted <+: s'.log.posted) (hmtu : s'.mtu = s.mtu)
    (hbth : s'.bthAt = s.bthAt) (hsent : s'.log.sent = s.log.sent)
    (huna : Boundary s.mtu s.log.posted s'.sndUna) (hnxt : s'.sndNxt ≤ s.nextOpFirstPsn)
    (hbd : Boundary s.mtu s.log.posted s'.sndNxt) : Shaped s' := by
  have ht := h.live.laid.tiles
  have ht' := hl.laid.tiles
  have hle : s.nextOpFirstPsn ≤ s'.nextOpFirstPsn := by
    rw [hl.laid.nextOp_eq, h.live.laid.nextOp_eq]
    exact totalBytes_mono hpost
  have hun := hl.una_le
  refine ⟨hl, hpend, Nat.le_trans hnxt hle, ?_, ?_, ?_⟩
  · rw [hmtu]
    exact huna.mono hpost ht (Nat.le_trans hun hnxt) ht'
  · rw [hmtu]
    exact hbd.mono hpost ht hnxt ht'
  · rw [hsent, hmtu, hbth]
    intro p hp
    obtain ⟨r, hr, hpiece⟩ := h.sent p hp
    exact ⟨r, hpost.subset hr, hpiece⟩

theorem post (h : Shaped s) (hb : totalBytes (s.postSend sr).log.posted < 2 ^ 32) :
    Shaped (s.postSend sr) := by
  have hl := h.live.postSend (Nat.lt_trans hb (by decide))
  refine h.window hl ?_ (List.prefix_append ..) rfl rfl rfl h.una_bd h.nxt_le h.nxt_bd
  -- the new request is the head only if the map was empty
  intro e he
  have hun := h.live.una_le
  have hnxt := h.nxt_le
  have hhead : (s.postSend sr).toSend.begin? =
      (s.toSend.entries ++ [(s.nextOpFirstPsn, s.stored sr)]).head? :=
    congrArg List.head? (h.live.laid.postSend_entries sr)
  rw [hhead, List.head?_append] at he
  cases hbegin : s.toSend.entries.head? with
  | some e' =>
    rw [hbegin] at he
    exact h.pending e (hbegin.trans he)
  | none =>
    rw [hbegin] at he
    cases he
    have hpos := s.stored_size_pos sr
    have hend : (s.stored sr).endPsn = s.nextOpFirstPsn + (s.stored sr).payloadSize.toNat := rfl
    change s.sndUna < (s.stored sr).endPsn
    omega

/-- The end of a packet that was sent is a boundary. -/
theorem sent_end (h : Shaped s) (hp : p ∈ s.log.sent) :
    p.seqTs.seq + p.size ≤ s.nextOpFirstPsn ∧
      Boundary s.mtu s.log.posted (p.seqTs.seq + p.size) := by
  obtain ⟨r, hr, hpiece, -⟩ := h.sent p hp
  have hsize := hpiece.size_eq
  have hlt := hpiece.lt_end
  have hend := h.live.laid.endPsn_le hr
  exact ⟨by omega, hpiece.boundary h.live.laid.tiles hr⟩

theorem acknowledge (h : Shaped s) (ha : s.acknowledge cb fuel n = some s')
    (hn : n ≤ s.nextOpFirstPsn) (hbd : Boundary s.mtu s.log.posted n)
    (hb : totalBytes s'.log.posted < 2 ^ 32) : Shaped s' := by
  have hb' := Nat.lt_trans hb (by decide : 2 ^ 32 < 2 ^ 64)
  have heq := acknowledge_eq ha h.live.una_le
  have huna : s'.sndUna = max s.sndUna n := by rw [heq]
  have hnxt : s'.sndNxt = max s.sndNxt n := by rw [heq]
  have hpend := (acknowledge_laid ha h.live.laid hb').2 (.inl h.pending)
  have hle := h.nxt_le
  refine h.window (h.live.acknowledge ha hb') hpend (acknowledge_posted ha) (by rw [heq])
    (by rw [heq]; rfl) (by rw [heq]) ?_ (by omega) ?_
  · rw [huna]
    exact h.una_bd.max hbd
  · rw [hnxt]
    exact h.nxt_bd.max hbd

/-- `Rollback` moves the window back to its lower end. -/
theorem rollback (h : Shaped s) (hl : Live { s with
      sndNxt := s.sndUna, highestAckPsn := s.sndUna, retrTo := false }) :
    Shaped { s with sndNxt := s.sndUna, highestAckPsn := s.sndUna, retrTo := false } :=
  h.window hl h.pending List.prefix_rfl rfl rfl rfl h.una_bd
    (Nat.le_trans h.live.una_le h.nxt_le) h.una_bd

theorem recoverNack (h : Shaped s) (ha : s.recoverNack cb fuel n = some s')
    (hn : n ≤ s.nextOpFirstPsn) (hbd : Boundary s.mtu s.log.posted n)
    (hb : totalBytes s'.log.posted < 2 ^ 32) : Shaped s' := by
  have hl := h.live.recoverNack ha (Nat.lt_trans hb (by decide))
  obtain ⟨t, ht, rfl⟩ := recoverNack_eq ha
  exact (h.acknowledge ht hn hbd hb).rollback hl

theorem timeout (h : Shaped s) (ha : s.onRetrTimeout cb fuel = some s')
    (hb : totalBytes s'.log.posted < 2 ^ 32) : Shaped s' := by
  have hb' := Nat.lt_trans hb (by decide : 2 ^ 32 < 2 ^ 64)
  have hl := h.live.timeout ha hb'
  obtain ⟨t, ht, rfl⟩ := recoverNack_eq ha
  have heq := acknowledge_eq ht h.live.una_le
  have huna : t.sndUna = s.sndUna := by
    rw [heq]
    exact Nat.max_self _
  have hpend := (acknowledge_laid ht
    ⟨h.live.laid.tiles, h.live.laid.split, h.live.laid.keyed⟩ hb').2 (.inl h.pending)
  have hnxt := Nat.le_trans h.live.una_le h.nxt_le
  have hpost := acknowledge_posted ht
  refine h.window hl hpend hpost (by rw [heq]) (by rw [heq]; rfl) (by rw [heq]) ?_ ?_ ?_
  · exact huna ▸ h.una_bd
  · exact huna ▸ hnxt
  · exact huna ▸ h.una_bd

theorem emit (h : Shaped s) (hd : s.hasDataToSend) (hp : s.getNextPacket = some (p, s'))
    (hb : totalBytes s'.log.posted < 2 ^ 32) : Shaped s' := by
  rw [getNextPacket_posted hp] at hb
  have hb' := Nat.lt_trans hb (by decide : 2 ^ 32 < 2 ^ 64)
  have hl := h.live.getNextPacket hb' hd hp
  have hlt : s.sndNxt < s.nextOpFirstPsn := by
    simp only [hasDataToSend, Bool.and_eq_true, decide_eq_true_eq] at hd
    exact hd.1
  obtain ⟨r, hr, hlo, hhi, heq⟩ := getNextPacket_eq h.live.laid hb' h.live.mtu_pos h.live.una_le
    hlt h.live.high_le
  obtain ⟨rfl, rfl⟩ : p = _ ∧ s' = _ := by
    rw [heq, Option.some.injEq, Prod.mk.injEq] at hp
    exact ⟨hp.1.symm, hp.2.symm⟩
  have hr' := h.live.laid.mem_posted hr
  have hpiece := h.live.pieceOf h.nxt_bd hb hr' hlo hhi
  have hend := h.live.laid.endPsn_le hr'
  have hN := h.live.laid.nextOp_eq
  have hseq : u32 s.sndNxt = s.sndNxt := u32_of_lt (by omega)
  refine ⟨hl, h.pending, ?_, h.una_bd, ?_, ?_⟩
  · change s.sndNxt + min s.mtu (r.endPsn - s.sndNxt) ≤ s.nextOpFirstPsn
    omega
  · have hbd := hpiece.boundary h.live.laid.tiles hr'
    simp only [packetAt, hseq] at hbd
    exact hbd
  · intro q hq
    rcases List.mem_append.mp hq with hq | hq
    · exact h.sent q hq
    · obtain rfl := List.mem_singleton.mp hq
      refine ⟨r, hr', hpiece, ?_⟩
      simp only [packetAt, hseq]
      rfl

/-- **The step lemma.** -/
theorem step (h : Shaped s) (hack : AcksSent s e) (hst : Step s e s')
    (hb : totalBytes s'.log.posted < 2 ^ 32) : Shaped s' := by
  cases hst with
  | post => exact h.post hb
  | emit hd hp => exact h.emit hd hp hb
  | ack ha =>
    obtain ⟨p, hp, rfl⟩ := hack
    obtain ⟨hn, hbd⟩ := h.sent_end hp
    exact h.acknowledge ha hn hbd hb
  | nack ha =>
    obtain ⟨p, hp, rfl⟩ := hack
    obtain ⟨hn, hbd⟩ := h.sent_end hp
    exact h.recoverNack ha hn hbd hb
  | timeout _ ha => exact h.timeout ha hb

/-! ## What the shape says -/

theorem tiles_values (h : Shaped s) :
    ∃ a, Tiles SendRequest.firstPsn SendRequest.endPsn a s.toSend.values s.nextOpFirstPsn := by
  obtain ⟨d, hd, -, -⟩ := h.live.laid.split
  have ht := h.live.laid.tiles
  rw [hd] at ht
  obtain ⟨a, -, ht⟩ := ht.split
  exact ⟨a, ht⟩

/-- The first request of the map is the one that `m_snd_una` lies in. -/
theorem first (h : Shaped s) (hr : r ∈ s.toSend.values.head?) :
    r.firstPsn ≤ s.sndUna ∧ s.sndUna < r.endPsn := by
  obtain ⟨a, ht⟩ := h.tiles_values
  obtain ⟨e, he, rfl⟩ : ∃ e, s.toSend.begin? = some e ∧ e.2 = r := by
    rw [OrdMap.values, List.head?_map] at hr
    exact Option.map_eq_some_iff.mp hr
  have hlt := h.pending e he
  refine ⟨?_, hlt⟩
  obtain ⟨l, hl⟩ := OrdMap.begin?_eq_some.mp he
  have hvalues : s.toSend.values = e.2 :: l.map (·.2) := by rw [OrdMap.values, hl, List.map_cons]
  have hmem : e.2 ∈ s.toSend.values := hvalues ▸ List.mem_cons_self
  have hend := h.live.laid.endPsn_le (h.live.laid.mem_posted hmem)
  obtain ⟨r', hr', hlo, -⟩ := h.live.laid.exists_cover (Nat.le_refl _) (Nat.lt_of_lt_of_le hlt hend)
  rw [hvalues] at ht hr'
  have hfirst := (ht.mem_bounds hr').1
  rw [← ht.1] at hfirst
  exact Nat.le_trans hfirst hlo

theorem isEmpty_iff (h : Shaped s) : s.toSend.isEmpty ↔ s.sndUna = s.nextOpFirstPsn := by
  have hle := Nat.le_trans h.live.una_le h.nxt_le
  constructor
  · intro hempty
    by_contra hne
    rw [h.live.toSend_ne (by omega)] at hempty
    cases hempty
  · intro heq
    rw [OrdMap.isEmpty, List.isEmpty_iff, ← OrdMap.begin?_eq_none]
    by_contra hne
    obtain ⟨e, he⟩ := Option.ne_none_iff_exists'.mp hne
    obtain ⟨l, hl⟩ := OrdMap.begin?_eq_some.mp he
    have hmem : e.2 ∈ s.toSend.values := List.mem_map_of_mem (hl ▸ List.mem_cons_self)
    have hend := h.live.laid.endPsn_le (h.live.laid.mem_posted hmem)
    have hlt := h.pending e he
    omega

/-- A piece lies in one request only. -/
theorem existsUnique_request (h : Shaped s) (hp : p ∈ s.log.sent) :
    (∃! r, r ∈ s.log.posted ∧ r.firstPsn ≤ p.seqTs.seq ∧ p.seqTs.seq + p.size ≤ r.endPsn) ∧
      1 ≤ p.size ∧ p.size ≤ s.mtu := by
  obtain ⟨r, hr, hpiece, -⟩ := h.sent p hp
  have hsize := hpiece.size_eq
  have hlo := hpiece.first_le
  have hlt := hpiece.lt_end
  have hmtu := h.live.mtu_pos
  refine ⟨⟨r, ⟨hr, hlo, by omega⟩, fun r' hr' => ?_⟩, by omega, by omega⟩
  exact h.live.laid.tiles.cover_unique hr'.1 hr ⟨hr'.2.1, by omega⟩ ⟨hlo, hlt⟩

/-- A packet that is sent again is cut as before. -/
theorem sent_stable (h : Shaped s) (hp : p ∈ s.log.sent) (hq : q ∈ s.log.sent)
    (hseq : p.seqTs.seq = q.seqTs.seq) : p.size = q.size ∧ p.bth = q.bth := by
  obtain ⟨r, hr, hpiece, hbth⟩ := h.sent p hp
  obtain ⟨r', hr', hpiece', hbth'⟩ := h.sent q hq
  obtain rfl := h.live.laid.tiles.cover_unique hr hr' ⟨hpiece.first_le, hpiece.lt_end⟩
    ⟨hseq ▸ hpiece'.first_le, hseq ▸ hpiece'.lt_end⟩
  have hsize : p.size = q.size := by rw [hpiece.size_eq, hpiece'.size_eq, hseq]
  refine ⟨hsize, ?_⟩
  rw [hbth, hbth', hseq, hsize]

theorem represented (h : Shaped s) : Represented s where
  una_le := h.live.una_le
  nxt_le := h.nxt_le
  keyed := h.live.laid.keyed
  tiles := h.tiles_values
  first _ hr := h.first hr
  empty := h.isEmpty_iff
  inside _ hp := h.existsUnique_request hp
  stable p hp q hq hseq := by
    obtain ⟨hsize, hbth⟩ := h.sent_stable hp hq hseq
    exact ⟨hsize, by rw [hbth], by rw [hbth], by rw [hbth]⟩

end Shaped

/-- **The run lemma.** -/
theorem sender_shaped (h : sender.Reachable s) (hb : totalBytes s.log.posted < 2 ^ 32) :
    Shaped s :=
  h.invariant_of_bound (M := sender) (B := fun s => totalBytes s.log.posted < 2 ^ 32) (I := Shaped)
    (fun h0 => Registered.shaped h0)
    (fun hst hb => Nat.lt_of_le_of_lt (totalBytes_mono (Step.posted hst.2)) hb)
    (fun _ hi hst hb => hi.step hst.1 hst.2 hb) hb

/-- **The representation invariant** of a send queue with fewer than 2^32 posted bytes. -/
theorem sender_represented (h : sender.Reachable s) (hb : totalBytes s.log.posted < 2 ^ 32) :
    Represented s :=
  (sender_shaped h hb).represented

/-- Every call returns, if the requests that the callbacks post stay below the bound. -/
theorem sender_returns (h : sender.Reachable s) (cb : Callbacks)
    (hb : totalBytes s.log.posted + promised cb s.toSend.values < 2 ^ 32) :
    (s.hasDataToSend → s.getNextPacket.isSome) ∧ (∀ fuel, (s.onRetrTimeout cb fuel).isSome) ∧
      ∀ p ∈ s.log.sent, ∃ fuel, (s.acknowledge cb fuel (p.seqTs.seq + p.size)).isSome ∧
        (s.recoverNack cb fuel (p.seqTs.seq + p.size)).isSome := by
  have hs := sender_shaped h (by omega)
  refine ⟨hs.live.getNextPacket_isSome (by omega), hs.live.onRetrTimeout_isSome cb, ?_⟩
  intro p hp
  have hack := acknowledge_terminates hs.live.laid (hs.sent_end hp).1
    (Nat.lt_trans hb (by decide))
  exact ⟨_, hack, hs.live.recoverNack_isSome hack⟩

theorem Reachable.get_emit (h : sender.Reachable s) (hd : s.hasDataToSend)
    (hp : s.getNextPacket.isSome) : sender.Reachable (s.getNextPacket.get hp).2 :=
  h.step (show AcksSent s .emit ∧ Step s .emit _ from ⟨trivial, .emit hd (Option.some_get hp).symm⟩)

theorem Reachable.get_timeout (cb : Callbacks) (fuel : Nat) (h : sender.Reachable s)
    (hto : s.retrTo) (hp : (s.onRetrTimeout cb fuel).isSome) :
    sender.Reachable ((s.onRetrTimeout cb fuel).get hp) :=
  h.step (show AcksSent s (.timeout cb) ∧ Step s (.timeout cb) _ from
    ⟨trivial, .timeout hto (Option.some_get hp).symm⟩)

/-- A request of two packets, which are sent; the timer fires and the first one is sent again. -/
theorem sender_represented_again : ∃ s, sender.Reachable s ∧
    s.log.sent.map (fun p => (p.seqTs.seq, p.size)) = [(0, 2), (2, 1), (0, 2)] ∧
    Represented s := by
  obtain ⟨s, h, hsent, hposted⟩ : ∃ s, sender.Reachable s ∧
      s.log.sent.map (fun p => (p.seqTs.seq, p.size)) = [(0, 2), (2, 1), (0, 2)] ∧
      totalBytes s.log.posted = 3 := by
    have hpost : sender.Reachable
        (({ mtu := 2 } : RdmaReliableSQ).postSend { payloadSize := 3 }) :=
      Machine.Reachable.step (.init (show sender.init { mtu := 2 } from Fresh.new (by decide)))
        (show AcksSent _ (.post { payloadSize := 3 }) ∧ Step _ _ _ from ⟨trivial, .post⟩)
    have h1 := Reachable.get_emit hpost (by decide) (by decide)
    have h2 := Reachable.get_emit h1 (by decide) (by decide)
    have h3 := Reachable.get_timeout (fun _ => []) 0 h2 (by decide) (by decide)
    exact ⟨_, Reachable.get_emit h3 (by decide) (by decide), by decide, by decide⟩
  exact ⟨s, h, hsent, sender_represented h (hposted ▸ by decide)⟩

end RdmaReliableSQ
end Roce
