import Roce.QueuePair.ReliablePair

/-! # Exactly-once delivery in order

The invariant of a reliable queue pair below 2^32 posted bytes, its step lemma with one case for
each event, and what it says about the receiver and the callbacks. -/

namespace Roce
namespace ReliablePair

/-- What holds between two events. -/
structure Inv (t : ReliablePair) : Prop where
  live : t.sq.Live
  conn : Connected t.sq t.rq
  backto0 : t.rq.backto0 = false
  una_le : t.sq.sndUna ≤ t.rq.nextExpectedSeq
  exp_le : t.rq.nextExpectedSeq ≤ t.sq.nextOpFirstPsn
  una_bd : Boundary t.sq.mtu t.sq.log.posted t.sq.sndUna
  nxt_bd : Boundary t.sq.mtu t.sq.log.posted t.sq.sndNxt
  exp_bd : Boundary t.sq.mtu t.sq.log.posted t.rq.nextExpectedSeq
  acks : ∀ a ∈ t.acks, a.seq ≤ t.rq.nextExpectedSeq ∧
    Boundary t.sq.mtu t.sq.log.posted a.seq
  sent : ∀ p ∈ t.sq.log.sent, t.rq.ReceiveAssert p ∧
    ∃ r ∈ t.sq.log.posted, PieceOf t.sq.mtu r p
  accepted : Tiles Prod.fst Prod.snd 0 t.rq.log.accepted t.rq.nextExpectedSeq
  notified : t.rq.log.notified = if t.rq.onRecv then
    (t.sq.log.posted.takeWhile (·.endPsn ≤ t.rq.nextExpectedSeq)).map (·.imm) else []

theorem Fresh.inv {t : ReliablePair} (h : t.Fresh) : t.Inv where
  live := h.sq.live
  conn := h.conn
  backto0 := h.backto0
  una_le := by rw [h.sq.una]; exact Nat.zero_le _
  exp_le := by rw [h.nextExpectedSeq]; exact Nat.zero_le _
  una_bd := by rw [h.sq.una]; exact .zero _
  nxt_bd := by rw [h.sq.nxt]; exact .zero _
  exp_bd := by rw [h.nextExpectedSeq]; exact .zero _
  acks := by rw [h.acks]; exact fun _ h => nomatch h
  sent := by rw [h.sq.log]; exact fun _ h => nomatch h
  accepted := by rw [h.log, h.nextExpectedSeq]; exact rfl
  notified := by rw [h.log, h.sq.log]; simp

namespace Inv

variable {t : ReliablePair} {s : RdmaReliableSQ} {rq : RdmaReliableRQ} {reply : Option AckPacket}

theorem sndNxt_le (h : Inv t) : t.sq.sndNxt ≤ t.sq.nextOpFirstPsn := by
  have h1 := h.live.una_le
  have h2 := h.una_le
  have h3 := h.exp_le
  rcases Nat.lt_or_ge t.sq.sndUna t.sq.sndNxt with hlt | hge
  · exact h.live.nxt_le hlt
  · omega

/-- The send queue may move its window between boundaries up to the expected PSN and let requests
be posted; the rest of the pair is not touched. -/
theorem withSq (h : Inv t) (hl : s.Live) (hpost : t.sq.log.posted <+: s.log.posted)
    (hmtu : s.mtu = t.sq.mtu) (hconn : Connected s t.rq) (hsent : s.log.sent = t.sq.log.sent)
    (huna : s.sndUna ≤ t.rq.nextExpectedSeq)
    (hunab : Boundary t.sq.mtu t.sq.log.posted s.sndUna)
    (hnxt : s.sndNxt ≤ t.sq.nextOpFirstPsn)
    (hnxtb : Boundary t.sq.mtu t.sq.log.posted s.sndNxt) : Inv { t with sq := s } := by
  have ht := h.live.laid.tiles
  have ht' := hl.laid.tiles
  have hexp := h.exp_le
  have hle : t.sq.nextOpFirstPsn ≤ s.nextOpFirstPsn := by
    rw [hl.laid.nextOp_eq, h.live.laid.nextOp_eq]
    exact totalBytes_mono hpost
  refine ⟨hl, hconn, h.backto0, huna, Nat.le_trans hexp hle, ?_, ?_, ?_, ?_, ?_, h.accepted, ?_⟩
  · change Boundary s.mtu _ _
    rw [hmtu]
    exact hunab.mono hpost ht (Nat.le_trans huna hexp) ht'
  · change Boundary s.mtu _ _
    rw [hmtu]
    exact hnxtb.mono hpost ht hnxt ht'
  · change Boundary s.mtu _ _
    rw [hmtu]
    exact h.exp_bd.mono hpost ht hexp ht'
  · intro a ha
    obtain ⟨h1, h2⟩ := h.acks a ha
    refine ⟨h1, ?_⟩
    change Boundary s.mtu _ _
    rw [hmtu]
    exact h2.mono hpost ht (Nat.le_trans h1 hexp) ht'
  · intro p hp
    obtain ⟨h1, r, hr, hpiece⟩ := h.sent p (hsent ▸ hp)
    exact ⟨h1, r, hpost.subset hr, hmtu ▸ hpiece⟩
  · obtain ⟨l, hl'⟩ := hpost
    change t.rq.log.notified = if _ then (s.log.posted.takeWhile _).map _ else _
    rw [← hl'] at ht' ⊢
    rw [ht.takeWhile_append ht' hexp]
    exact h.notified

theorem post (h : Inv t) (hb : totalBytes (t.sq.postSend sr).log.posted < 2 ^ 32) :
    Inv { t with sq := t.sq.postSend sr } :=
  h.withSq (h.live.postSend (Nat.lt_trans hb (by decide))) (List.prefix_append ..) rfl
    ⟨h.conn.1, h.conn.2, h.conn.3, h.conn.4⟩ rfl h.una_le h.una_bd h.sndNxt_le h.nxt_bd

theorem acknowledge (h : Inv t) (ha : t.sq.acknowledge cb fuel n = some s)
    (hn : n ≤ t.rq.nextExpectedSeq) (hbd : Boundary t.sq.mtu t.sq.log.posted n)
    (hb : totalBytes s.log.posted < 2 ^ 32) : Inv { t with sq := s } := by
  have heq := RdmaReliableSQ.acknowledge_eq ha h.live.una_le
  have huna : s.sndUna = max t.sq.sndUna n := by rw [heq]
  have hnxt : s.sndNxt = max t.sq.sndNxt n := by rw [heq]
  have h1 := h.una_le
  have h2 := h.exp_le
  have h3 := h.sndNxt_le
  refine h.withSq (h.live.acknowledge ha (Nat.lt_trans hb (by decide)))
    (RdmaReliableSQ.acknowledge_posted ha) (by rw [heq]) ?_ (by rw [heq]) (by omega) ?_
    (by omega) ?_
  · rw [heq]
    exact ⟨h.conn.1, h.conn.2, h.conn.3, h.conn.4⟩
  · rw [huna]
    exact h.una_bd.max hbd
  · rw [hnxt]
    exact h.nxt_bd.max hbd

theorem recoverNack (h : Inv t) (ha : t.sq.recoverNack cb fuel n = some s)
    (hn : n ≤ t.rq.nextExpectedSeq) (hbd : Boundary t.sq.mtu t.sq.log.posted n)
    (hb : totalBytes s.log.posted < 2 ^ 32) : Inv { t with sq := s } := by
  have hl := h.live.recoverNack ha (Nat.lt_trans hb (by decide))
  obtain ⟨u, hu, rfl⟩ := RdmaReliableSQ.recoverNack_eq ha
  have hi := h.acknowledge hu hn hbd hb
  have hle := Nat.le_trans hi.una_le hi.exp_le
  exact hi.withSq hl List.prefix_rfl rfl ⟨hi.conn.1, hi.conn.2, hi.conn.3, hi.conn.4⟩ rfl
    hi.una_le hi.una_bd hle hi.una_bd

/-- A NACK runs `Acknowledge` twice, the second time through `RecoverNack`. -/
theorem receiveAck (h : Inv t) (hmem : a ∈ t.acks)
    (ha : RdmaReliableRQ.receiveAck false cb fuel a t.sq = some s)
    (hb : totalBytes s.log.posted < 2 ^ 32) : Inv { t with sq := s } := by
  obtain ⟨hle, hbd⟩ := h.acks a hmem
  obtain ⟨u, hu, hs⟩ := Option.bind_eq_some_iff.mp ha
  split at hs
  next =>
    have hbu := Nat.lt_of_le_of_lt (totalBytes_mono (RdmaReliableSQ.recoverNack_posted hs)) hb
    have hi := h.acknowledge hu hle hbd hbu
    obtain ⟨-, hbd'⟩ := hi.acks a hmem
    exact hi.recoverNack hs hle hbd' hb
  next =>
    cases hs
    exact h.acknowledge hu hle hbd hb

theorem timeout (h : Inv t) (ha : t.sq.onRetrTimeout cb fuel = some s)
    (hb : totalBytes s.log.posted < 2 ^ 32) : Inv { t with sq := s } := by
  have hl := h.live.timeout ha (Nat.lt_trans hb (by decide))
  have hle := Nat.le_trans h.una_le h.exp_le
  obtain ⟨u, hu, rfl⟩ := RdmaReliableSQ.recoverNack_eq ha
  have hpost := RdmaReliableSQ.acknowledge_posted hu
  have heq := RdmaReliableSQ.acknowledge_eq hu h.live.una_le
  have huna : u.sndUna = t.sq.sndUna := by
    rw [heq]
    exact Nat.max_self _
  refine h.withSq hl hpost (by rw [heq]) ?_ (by rw [heq]) ?_ ?_ ?_ ?_
  · rw [heq]
    exact ⟨h.conn.1, h.conn.2, h.conn.3, h.conn.4⟩
  · exact huna ▸ h.una_le
  · exact huna ▸ h.una_bd
  · exact huna ▸ hle
  · exact huna ▸ h.una_bd

theorem emit (h : Inv t) (hd : t.sq.hasDataToSend) (hp : t.sq.getNextPacket = some (p, s))
    (hb : totalBytes s.log.posted < 2 ^ 32) : Inv { t with sq := s } := by
  have hpost := RdmaReliableSQ.getNextPacket_posted hp
  rw [hpost] at hb
  have hb' : totalBytes t.sq.log.posted < 2 ^ 64 := Nat.lt_trans hb (by decide)
  have hl := h.live.getNextPacket hb' hd hp
  have hlt : t.sq.sndNxt < t.sq.nextOpFirstPsn := by
    simp only [RdmaReliableSQ.hasDataToSend, Bool.and_eq_true, decide_eq_true_eq] at hd
    exact hd.1
  obtain ⟨r, hr, hlo, hhi, heq⟩ := RdmaReliableSQ.getNextPacket_eq h.live.laid hb'
    h.live.mtu_pos h.live.una_le hlt h.live.high_le
  obtain ⟨rfl, rfl⟩ : p = _ ∧ s = _ := by
    rw [heq, Option.some.injEq, Prod.mk.injEq] at hp
    exact ⟨hp.1.symm, hp.2.symm⟩
  have hr' := h.live.laid.mem_posted hr
  have hpiece := h.live.pieceOf h.nxt_bd hb hr' hlo hhi
  have hseq : u32 t.sq.sndNxt = t.sq.sndNxt :=
    u32_of_lt (by have := h.live.laid.nextOp_eq; omega)
  refine ⟨hl, ⟨h.conn.1, h.conn.2, h.conn.3, h.conn.4⟩, h.backto0, h.una_le, h.exp_le, h.una_bd,
    ?_, h.exp_bd, h.acks, ?_, h.accepted, h.notified⟩
  · have hbd := hpiece.boundary h.live.laid.tiles hr'
    simp only [RdmaReliableSQ.packetAt, hseq] at hbd
    exact hbd
  · intro q hq
    rcases List.mem_append.mp hq with hq | hq
    · exact h.sent q hq
    · obtain rfl := List.mem_singleton.mp hq
      refine ⟨⟨?_, h.conn.1.symm, h.conn.3.symm, h.conn.4.symm, h.conn.2.symm⟩, r, hr', hpiece⟩
      simp only [RdmaReliableSQ.packetAt, RdmaReliableSQ.bthAt]
      split <;> rfl

/-- The expected packet is accepted: it is a piece of the request the expected PSN lies in. -/
theorem accept (h : Inv t) (hp : p ∈ t.sq.log.sent) (hseq : p.seqTs.seq = t.rq.nextExpectedSeq)
    (hrq : rq = { t.rq with
      nextExpectedSeq := u32 (t.rq.nextExpectedSeq + p.size)
      ipid := rq.ipid
      log := t.rq.accept p })
    (hreply : ∀ a ∈ reply, a.seq = u32 (t.rq.nextExpectedSeq + p.size))
    (hb : totalBytes t.sq.log.posted < 2 ^ 32) :
    Inv { t with rq := rq, acks := t.acks ++ reply.toList } := by
  obtain ⟨-, r, hr, hpiece⟩ := h.sent p hp
  have ht := h.live.laid.tiles
  have hN := h.live.laid.nextOp_eq
  have hlo := hpiece.first_le
  have hhi := hpiece.lt_end
  have hsz := hpiece.size_eq
  have hbd := hpiece.boundary ht hr
  have hend := h.live.laid.endPsn_le hr
  have hmtu := h.live.mtu_pos
  have huna := h.una_le
  rw [hseq] at hlo hhi hsz hbd
  have hexp : u32 (t.rq.nextExpectedSeq + p.size) = t.rq.nextExpectedSeq + p.size :=
    u32_of_lt (by omega)
  rw [hexp] at hrq hreply
  have hnext : rq.nextExpectedSeq = t.rq.nextExpectedSeq + p.size := by rw [hrq]
  constructor
  case live => exact h.live
  case conn => rw [hrq]; exact ⟨h.conn.1, h.conn.2, h.conn.3, h.conn.4⟩
  case backto0 => rw [hrq]; exact h.backto0
  case una_le => rw [hnext]; exact Nat.le_trans huna (Nat.le_add_right ..)
  case exp_le => simp only [hnext]; omega
  case una_bd => exact h.una_bd
  case nxt_bd => exact h.nxt_bd
  case exp_bd => simpa only [hnext]
  case acks =>
    intro a ha
    simp only [hnext]
    rcases List.mem_append.mp ha with ha | ha
    · obtain ⟨h1, h2⟩ := h.acks a ha
      exact ⟨Nat.le_trans h1 (Nat.le_add_right ..), h2⟩
    · rw [hreply a (Option.mem_toList.mp ha)]
      exact ⟨Nat.le_refl _, hbd⟩
  case sent =>
    rw [hrq]
    exact fun q hq => h.sent q hq
  case accepted =>
    simp only [hnext]
    rw [hrq]
    exact h.accepted.snoc rfl (by simp only; omega)
  case notified =>
    simp only [hnext]
    rw [hrq, RdmaReliableRQ.accept, h.notified]
    cases t.rq.onRecv
    · rfl
    · cases hno : p.bth.notif
      · -- a piece that is not the last one finishes no request
        have hne := hpiece.notif
        rw [hno, hseq, eq_comm, decide_eq_false_iff_not] at hne
        rw [ht.takeWhile_stay hr hlo (Nat.le_add_right ..) (by omega)]
        simp
      · have he := hpiece.notif
        rw [hno, hseq, eq_comm, decide_eq_true_eq] at he
        rw [he, ht.takeWhile_step hr hlo hhi]
        simp [hpiece.imm hno]

/-- Any other packet leaves the receiver where it is. -/
theorem ignore (h : Inv t)
    (hrq : rq = { t.rq with
      nackTimer := rq.nackTimer, lastNack := rq.lastNack, ipid := rq.ipid })
    (hreply : ∀ a ∈ reply, a.seq = t.rq.nextExpectedSeq) :
    Inv { t with rq := rq, acks := t.acks ++ reply.toList } := by
  have hnext : rq.nextExpectedSeq = t.rq.nextExpectedSeq := by rw [hrq]
  constructor
  case live => exact h.live
  case conn => rw [hrq]; exact ⟨h.conn.1, h.conn.2, h.conn.3, h.conn.4⟩
  case backto0 => rw [hrq]; exact h.backto0
  case una_le => rw [hnext]; exact h.una_le
  case exp_le => rw [hnext]; exact h.exp_le
  case una_bd => exact h.una_bd
  case nxt_bd => exact h.nxt_bd
  case exp_bd => rw [hnext]; exact h.exp_bd
  case acks =>
    intro a ha
    simp only [hnext]
    rcases List.mem_append.mp ha with ha | ha
    · exact h.acks a ha
    · rw [hreply a (Option.mem_toList.mp ha)]
      exact ⟨Nat.le_refl _, h.exp_bd⟩
  case sent =>
    rw [hrq]
    exact fun q hq => h.sent q hq
  case accepted => rw [hrq]; exact h.accepted
  case notified => rw [hrq]; exact h.notified

theorem data (h : Inv t) (hp : p ∈ t.sq.log.sent)
    (hrecv : t.rq.receiveUdp now ecnbits p = some (reply, rq))
    (hb : totalBytes t.sq.log.posted < 2 ^ 32) :
    Inv { t with rq := rq, acks := t.acks ++ reply.toList } := by
  rcases RdmaReliableRQ.receiveUdp_cases hrecv h.backto0 with
    ⟨hseq, hrq, -, hreply⟩ | ⟨-, hrq, hreply⟩
  · exact h.accept hp hseq hrq (fun a ha => (hreply a ha).1) hb
  · exact h.ignore hrq hreply

/-- **The step lemma.** -/
theorem step {t t' : ReliablePair} (h : Inv t) (hst : Step t e t')
    (hb : totalBytes t'.sq.log.posted < 2 ^ 32) : Inv t' := by
  cases hst with
  | post => exact h.post hb
  | emit hd hp => exact h.emit hd hp hb
  | data hp hrecv => exact h.data hp hrecv hb
  | ack hmem ha => exact h.receiveAck hmem ha hb
  | timeout _ ha => exact h.timeout ha hb

end Inv

theorem receiveAck_posted {sq s : RdmaReliableSQ} {cb : Callbacks} {fuel : Nat} {a : AckPacket}
    (h : RdmaReliableRQ.receiveAck false cb fuel a sq = some s) :
    sq.log.posted <+: s.log.posted := by
  obtain ⟨u, hu, hs⟩ := Option.bind_eq_some_iff.mp h
  split at hs
  · exact (RdmaReliableSQ.acknowledge_posted hu).trans (RdmaReliableSQ.recoverNack_posted hs)
  · cases hs
    exact RdmaReliableSQ.acknowledge_posted hu

theorem Step.posted {t t' : ReliablePair} (h : Step t e t') :
    t.sq.log.posted <+: t'.sq.log.posted := by
  cases h with
  | post => exact List.prefix_append ..
  | emit _ h => rw [RdmaReliableSQ.getNextPacket_posted h]
  | data => exact List.prefix_rfl
  | ack _ h => exact receiveAck_posted h
  | timeout _ h =>
    have hpost := RdmaReliableSQ.recoverNack_posted h
    exact hpost

/-- **The run lemma.** -/
theorem pair_inv {t : ReliablePair} (h : pair.Reachable t)
    (hb : totalBytes t.sq.log.posted < 2 ^ 32) : t.Inv :=
  h.invariant_of_bound (B := fun t => totalBytes t.sq.log.posted < 2 ^ 32) (I := Inv)
    (fun h0 => Fresh.inv h0)
    (fun hst hb => Nat.lt_of_le_of_lt (totalBytes_mono (Step.posted hst)) hb)
    (fun _ hi hst hb => hi.step hst hb) hb

/-- Once the loop of `Acknowledge` has ended, an ACK or NACK and the timer are processed to the
end: the assertion of `Rollback` holds. -/
theorem Inv.returns {t : ReliablePair} (h : t.Inv) (cb : Callbacks) (fuel : Nat) :
    (t.sq.onRetrTimeout cb fuel).isSome ∧ ∀ a ∈ t.acks,
      (t.sq.acknowledge cb fuel a.seq).isSome →
        (RdmaReliableRQ.receiveAck false cb fuel a t.sq).isSome := by
  have hle := h.live.una_le
  constructor
  · exact h.live.onRetrTimeout_isSome cb fuel
  · intro a _ hsome
    obtain ⟨u, hu⟩ := Option.isSome_iff_exists.mp hsome
    have heq := RdmaReliableSQ.acknowledge_eq hu hle
    have huna : u.sndUna = max t.sq.sndUna a.seq := by rw [heq]
    have hnxt : u.sndNxt = max t.sq.sndNxt a.seq := by rw [heq]
    have hnot : ¬a.seq > u.sndUna := by omega
    have hasrt : u.sndUna ≤ u.sndNxt := by omega
    simp only [RdmaReliableRQ.receiveAck, Bool.not_false, ↓reduceIte, hu, Option.bind_eq_bind,
      Option.bind_some]
    split
    · simp [RdmaReliableSQ.recoverNack, RdmaReliableSQ.acknowledge, hnot,
        RdmaReliableSQ.rollback, RdmaReliableSQ.RollbackAssert,
        RdmaReliableSQ.scheduleRetrTimeout, hasrt]
    · rfl

/-- The loop of `Acknowledge` ends, whatever the callbacks post within the bound. -/
theorem Inv.acknowledge_terminates {t : ReliablePair} (h : t.Inv) (hmem : a ∈ t.acks)
    (hb : totalBytes t.sq.log.posted + RdmaReliableSQ.promised cb t.sq.toSend.values < 2 ^ 32) :
    ∃ fuel, (t.sq.acknowledge cb fuel a.seq).isSome :=
  ⟨_, RdmaReliableSQ.acknowledge_terminates h.live.laid
    (Nat.le_trans (h.acks a hmem).1 h.exp_le) (Nat.lt_trans hb (by decide))⟩

/-- **Exactly-once delivery in order.** While fewer than 2^32 bytes were posted: the accepted
ranges tile a prefix of the posted bytes; `m_onRecv` was called for the requests of a prefix of the
posted ones that was accepted whole, with their immediate values; so was `on_send`; and
`GetNextPacket`, `Rollback` and the loop of `Acknowledge` return whenever they are called, the loop
as long as the callbacks post within the bound. -/
theorem delivery {t : ReliablePair} (h : pair.Reachable t)
    (hb : totalBytes t.sq.log.posted < 2 ^ 32) :
    (Tiles Prod.fst Prod.snd 0 t.rq.log.accepted t.rq.nextExpectedSeq ∧
      t.rq.nextExpectedSeq ≤ totalBytes t.sq.log.posted) ∧
    (∃ d, d <+: t.sq.log.posted ∧ (∀ r ∈ d, r.endPsn ≤ t.rq.nextExpectedSeq) ∧
      t.rq.log.notified = if t.rq.onRecv then d.map (·.imm) else []) ∧
    (∃ d, d <+: t.sq.log.posted ∧ (∀ r ∈ d, r.endPsn ≤ t.rq.nextExpectedSeq) ∧
      t.sq.log.called = d.filter (·.onSend)) ∧
    (t.sq.hasDataToSend → t.sq.getNextPacket.isSome) ∧
    (∀ cb fuel, (t.sq.onRetrTimeout cb fuel).isSome) ∧
    (∀ a ∈ t.acks, ∀ cb fuel, (t.sq.acknowledge cb fuel a.seq).isSome →
      (RdmaReliableRQ.receiveAck false cb fuel a t.sq).isSome) ∧
    (∀ a ∈ t.acks, ∀ cb,
      totalBytes t.sq.log.posted + RdmaReliableSQ.promised cb t.sq.toSend.values < 2 ^ 32 →
        ∃ fuel, (t.sq.acknowledge cb fuel a.seq).isSome) ∧
    ∀ p ∈ t.sq.log.sent, t.rq.ReceiveAssert p := by
  have hi := pair_inv h hb
  refine ⟨⟨hi.accepted, hi.live.laid.nextOp_eq ▸ hi.exp_le⟩, ?_, ?_, fun hd => ?_,
    fun cb fuel => (hi.returns cb fuel).1, fun a ha cb fuel => (hi.returns cb fuel).2 a ha,
    fun a ha cb hcb => hi.acknowledge_terminates ha hcb, fun p hp => (hi.sent p hp).1⟩
  · refine ⟨_, List.takeWhile_prefix _, fun r hr => ?_, hi.notified⟩
    exact (hi.live.laid.tiles.mem_takeWhile.mp hr).2
  · obtain ⟨d, hd, hc, hle⟩ := hi.live.laid.split
    exact ⟨d, ⟨_, hd.symm⟩, fun r hr => Nat.le_trans (hle r hr) hi.una_le, hc⟩
  · exact hi.live.getNextPacket_isSome (Nat.lt_trans hb (by decide)) hd

theorem Fresh.new (h : 0 < mtu) : Fresh { sq := { mtu }, rq := { onRecv } } :=
  ⟨.new h, ⟨rfl, rfl, rfl, rfl⟩, rfl, rfl, rfl, rfl⟩

/-- The step of an event, computed. -/
def handle (fuel : Nat) (t : ReliablePair) : Event → Option ReliablePair
  | .post sr => some { t with sq := t.sq.postSend sr }
  | .emit =>
    if t.sq.hasDataToSend then t.sq.getNextPacket.map fun (_, s) => { t with sq := s } else none
  | .data p now ecnbits =>
    if p ∈ t.sq.log.sent then
      (t.rq.receiveUdp now ecnbits p).map fun (reply, r) =>
        { t with rq := r, acks := t.acks ++ reply.toList }
    else none
  | .ack a cb =>
    if a ∈ t.acks then
      (RdmaReliableRQ.receiveAck false cb fuel a t.sq).map fun s => { t with sq := s }
    else none
  | .timeout cb =>
    if t.sq.retrTo then (t.sq.onRetrTimeout cb fuel).map fun s => { t with sq := s } else none

theorem step_of_handle {t t' : ReliablePair} (h : t.handle fuel e = some t') : Step t e t' := by
  cases e with
  | post sr =>
    cases h
    exact .post
  | emit =>
    obtain ⟨hd, h⟩ := Option.ite_none_right_eq_some.mp h
    obtain ⟨x, hx, rfl⟩ := Option.map_eq_some_iff.mp h
    exact .emit hd hx
  | data p now ecnbits =>
    obtain ⟨hp, h⟩ := Option.ite_none_right_eq_some.mp h
    obtain ⟨x, hx, rfl⟩ := Option.map_eq_some_iff.mp h
    exact .data hp hx
  | ack a cb =>
    obtain ⟨ha, h⟩ := Option.ite_none_right_eq_some.mp h
    obtain ⟨s, hs, rfl⟩ := Option.map_eq_some_iff.mp h
    exact .ack ha hs
  | timeout cb =>
    obtain ⟨hto, h⟩ := Option.ite_none_right_eq_some.mp h
    obtain ⟨s, hs, rfl⟩ := Option.map_eq_some_iff.mp h
    exact .timeout hto hs

/-- A packet, or an answer, is delivered: it is named by its place among those that were sent. -/
def deliver (fuel : Nat) (t : ReliablePair) : Nat ⊕ Nat → Option ReliablePair
  | .inl i => t.sq.log.sent[i]?.bind fun p => t.handle fuel (.data p 0 0)
  | .inr i => t.acks[i]?.bind fun a => t.handle fuel (.ack a fun _ => [])

theorem step_of_deliver {t t' : ReliablePair} (h : t.deliver fuel x = some t') :
    ∃ e, Step t e t' := by
  cases x with
  | inl i =>
    obtain ⟨p, -, h⟩ := Option.bind_eq_some_iff.mp h
    exact ⟨_, step_of_handle h⟩
  | inr i =>
    obtain ⟨a, -, h⟩ := Option.bind_eq_some_iff.mp h
    exact ⟨_, step_of_handle h⟩

/-- One request in three packets. The first one arrives twice, the third one before the second one;
then the NACK arrives, and the last two packets are sent again. -/
def lossyTransfer : Option ReliablePair := do
  let t ← [Event.post { payloadSize := 3000, imm := 7, onSend := true }, .emit, .emit,
    .emit].foldlM (handle 5) { sq := { mtu := 1000 }, rq := { onRecv := true } }
  let t ← [.inl 0, .inl 0, .inl 2, .inl 1, .inr 0].foldlM (deliver 5) t
  let t ← [Event.emit, .emit].foldlM (handle 5) t
  [.inl 3, .inl 4, .inr 1].foldlM (deliver 5) t

theorem reachable_lossyTransfer (h : lossyTransfer = some t) : pair.Reachable t := by
  simp only [lossyTransfer, Option.bind_eq_bind, Option.bind_eq_some_iff] at h
  obtain ⟨t₁, h₁, t₂, h₂, t₃, h₃, h⟩ := h
  have hr := (show pair.Reachable _ from .init (Fresh.new (by decide))).of_foldlM
    (fun h => ⟨_, step_of_handle h⟩) h₁
  have hr := hr.of_foldlM step_of_deliver h₂
  have hr := hr.of_foldlM (fun h => ⟨_, step_of_handle h⟩) h₃
  exact hr.of_foldlM step_of_deliver h

theorem delivery_3000 :
    ∃ t, lossyTransfer = some t ∧ t.rq.nextExpectedSeq = 3000 ∧ t.rq.log.notified = [7] ∧
      t.sq.log.called = t.sq.log.posted ∧ t.sq.log.sent.length = 5 ∧
      Tiles Prod.fst Prod.snd 0 t.rq.log.accepted 3000 ∧
      ∃ d, d <+: t.sq.log.posted ∧ (∀ r ∈ d, r.endPsn ≤ 3000) ∧ d.map (·.imm) = [7] := by
  have hrun : lossyTransfer.any (fun t => t.rq.nextExpectedSeq = 3000 ∧
      t.rq.log.notified = [7] ∧ t.sq.log.called = t.sq.log.posted ∧ t.sq.log.sent.length = 5 ∧
      t.rq.onRecv ∧ totalBytes t.sq.log.posted < 2 ^ 32) = true := by decide +kernel
  obtain ⟨t, ht, hrun⟩ := (Option.any_eq_true ..).mp hrun
  obtain ⟨hexp, hnot, hcalled, hsent, honRecv, hb⟩ := of_decide_eq_true hrun
  have h := delivery (reachable_lossyTransfer ht) hb
  obtain ⟨d, hd, hle, hd'⟩ := h.2.1
  rw [hexp] at h hle
  rw [honRecv, if_pos rfl, hnot] at hd'
  exact ⟨t, ht, hexp, hnot, hcalled, hsent, h.1.1, d, hd, hle, hd'.symm⟩

end ReliablePair
end Roce
