import Mathlib.Data.List.TakeWhile
import Roce.QueuePair.LosslessPair

/-! # No NACK over a lossless channel in order

What a FIFO delivers to the receiver never leaves a gap, however often the sender goes back: a
packet starts at or below the PSN that is expected when it arrives. -/

namespace Roce

/-- The packets `l` leave no gap behind the PSN `a`, and after them `n` does not. -/
def NoGap (a : Nat) : List Packet → Nat → Prop
  | [], n => n ≤ a
  | p :: l, n => p.seqTs.seq ≤ a ∧ NoGap (max a (p.seqTs.seq + p.size)) l n

namespace NoGap

theorem mono (h : NoGap a l n) (hm : m ≤ n) : NoGap a l m := by
  induction l generalizing a with
  | nil => exact Nat.le_trans hm h
  | cons p l ih => exact ⟨h.1, ih h.2⟩

/-- A PSN below the one that is expected now. -/
theorem max (h : NoGap a l n) (hm : m ≤ a) : NoGap a l (Max.max n m) := by
  induction l generalizing a with
  | nil => exact Nat.max_le.mpr ⟨h, hm⟩
  | cons p l ih => exact ⟨h.1, ih h.2 (Nat.le_trans hm (Nat.le_max_left ..))⟩

/-- The sender goes back. -/
theorem of_le (h : NoGap a l n) (hm : m ≤ a) : NoGap a l m :=
  (h.max hm).mono (Nat.le_max_right ..)

/-- One more packet, from `n` on. -/
theorem append (h : NoGap a l p.seqTs.seq) : NoGap a (l ++ [p]) (p.seqTs.seq + p.size) := by
  induction l generalizing a with
  | nil => exact ⟨h, Nat.le_max_right ..⟩
  | cons q l ih => exact ⟨h.1, ih h.2⟩

end NoGap

/-- A piece that starts below a boundary ends at or below it. -/
theorem PieceOf.end_le {l : List SendRequest} (h : PieceOf mtu r p) (hr : r ∈ l)
    (hx : Boundary mtu l x) (hlt : p.seqTs.seq < x) : p.seqTs.seq + p.size ≤ x := by
  have hfirst := h.first_le
  have hsize := h.size_eq
  rcases Nat.lt_or_ge x r.endPsn with hin | hout
  · -- both are counts of whole packets into the request
    have hboundary := hx r hr (by omega) hin
    obtain ⟨i, hi⟩ := h.aligned
    obtain ⟨j, hj⟩ := hboundary
    have hij : i < j := by
      refine Nat.lt_of_mul_lt_mul_left (a := mtu) ?_
      omega
    have hmul : mtu * i + mtu ≤ mtu * j := by
      rw [← Nat.mul_succ]
      exact Nat.mul_le_mul_left mtu hij
    omega
  · have := h.lt_end
    omega

namespace RdmaReliableRQ

/-- Without a gap the packet is accepted, or a duplicate. -/
theorem receiverCheckSeq_of_le (rq : RdmaReliableRQ) (now size : Nat)
    (hle : seq ≤ rq.nextExpectedSeq) : (rq.receiverCheckSeq now seq size).1 = .success ∨
      (rq.receiverCheckSeq now seq size).1 = .duplicate := by
  unfold receiverCheckSeq
  dsimp only
  split
  · exact .inl rfl
  · rw [if_neg (Nat.not_lt.mpr hle)]
    exact .inr rfl

/-- What does not leave a gap is not answered by a NACK. -/
theorem receiveUdp_ack_of_le {rq rq' : RdmaReliableRQ}
    (h : rq.receiveUdp now ecnbits p = some (some a, rq'))
    (hle : p.seqTs.seq ≤ rq.nextExpectedSeq) : a.protocol = 0xFC := by
  unfold receiveUdp at h
  split at h
  next =>
    have hcheck := rq.receiverCheckSeq_of_le now p.size hle
    generalize rq.receiverCheckSeq now p.seqTs.seq p.size = checked at h hcheck
    obtain ⟨x, t⟩ := checked
    dsimp only at h hcheck
    have hanswer : answer p.bth.ackReq x ≠ .nack := by
      cases p.bth.ackReq
      · obtain rfl | rfl := hcheck
        · decide
        · decide
      · obtain rfl | rfl := hcheck
        · decide
        · decide
    split at h
    next hreply =>
      have hack : answer p.bth.ackReq x = .ack := by simpa [hanswer] using hreply
      have hprot : (t.ackPacket p ecnbits (answer p.bth.ackReq x)).protocol = 0xFC := if_pos hack
      split at h
      · cases h
        exact hprot
      · cases h
        exact hprot
    next => split at h <;> cases h
  next => cases h

end RdmaReliableRQ

namespace LosslessPair

/-- The invariant: no gap on the way, and no NACK so far. -/
structure InLine (t : LosslessPair) : Prop where
  noGap : NoGap t.rq.nextExpectedSeq t.data t.sq.sndNxt
  acks : ∀ a ∈ t.acks, a.protocol = 0xFC

theorem Fresh.inLine {t : LosslessPair} (h : Fresh t) : InLine t where
  noGap := by
    rw [h.data, h.pair.sq.nxt]
    exact Nat.zero_le _
  acks := by
    rw [h.pair.acks]
    exact fun _ ha => nomatch ha

namespace InLine

variable {t t' : LosslessPair} {s : RdmaReliableSQ}

/-- The head of the FIFO arrives. -/
theorem deliver (h : InLine t) (hi : t.Inv) (hl : t.data = p :: l)
    (hrecv : t.rq.receiveUdp now ecnbits p = some (reply, rq))
    (hb : totalBytes t.sq.log.posted < 2 ^ 32) :
    InLine { t with
      rq := rq, data := l, acks := t.acks ++ reply.toList
      ackFifo := t.ackFifo ++ reply.toList } := by
  have hgap := h.noGap
  rw [hl] at hgap
  obtain ⟨hle, hgap⟩ := hgap
  obtain ⟨-, r, hr, hpiece⟩ := hi.inv.sent p (hi.data p (hl ▸ List.mem_cons_self))
  have hexpected : rq.nextExpectedSeq = max t.rq.nextExpectedSeq (p.seqTs.seq + p.size) := by
    rcases RdmaReliableRQ.receiveUdp_cases hrecv hi.inv.backto0 with
      ⟨hseq, hrq, -, -⟩ | ⟨hseq, hrq, -⟩
    · have hnext : rq.nextExpectedSeq = u32 (t.rq.nextExpectedSeq + p.size) := by rw [hrq]
      have hend := hi.inv.live.laid.endPsn_le hr
      have hN := hi.inv.live.laid.nextOp_eq
      have hsize := hpiece.size_eq
      have hlt := hpiece.lt_end
      rw [hnext, u32_of_lt (by omega)]
      omega
    · have hnext : rq.nextExpectedSeq = t.rq.nextExpectedSeq := by rw [hrq]
      have hend := hpiece.end_le hr hi.inv.exp_bd (by omega)
      omega
  constructor
  · show NoGap rq.nextExpectedSeq l t.sq.sndNxt
    rw [hexpected]
    exact hgap
  · intro a ha
    rcases List.mem_append.mp ha with ha | ha
    · exact h.acks a ha
    · obtain rfl := Option.mem_toList.mp ha
      exact RdmaReliableRQ.receiveUdp_ack_of_le hrecv hle

/-- The next packet joins the FIFO. -/
theorem emit (h : InLine t) (hi : t.Inv) (hd : t.sq.hasDataToSend)
    (hp : t.sq.getNextPacket = some (p, s)) (hb : totalBytes t.sq.log.posted < 2 ^ 32) :
    InLine { t with sq := s, data := t.data ++ [p] } := by
  have hlt : t.sq.sndNxt < t.sq.nextOpFirstPsn := by
    simp only [RdmaReliableSQ.hasDataToSend, Bool.and_eq_true, decide_eq_true_eq] at hd
    exact hd.1
  have hlive := hi.inv.live
  obtain ⟨r, -, -, -, heq⟩ := RdmaReliableSQ.getNextPacket_eq hlive.laid
    (Nat.lt_trans hb (by decide))
    hlive.mtu_pos hlive.una_le hlt hlive.high_le
  obtain ⟨rfl, rfl⟩ : p = _ ∧ s = _ := by
    rw [heq, Option.some.injEq, Prod.mk.injEq] at hp
    exact ⟨hp.1.symm, hp.2.symm⟩
  have hseq : u32 t.sq.sndNxt = t.sq.sndNxt := u32_of_lt (by have := hlive.laid.nextOp_eq; omega)
  refine ⟨?_, h.acks⟩
  have hgap : NoGap t.rq.nextExpectedSeq t.data (u32 t.sq.sndNxt) := by
    rw [hseq]
    exact h.noGap
  have happend : NoGap t.rq.nextExpectedSeq
      (t.data ++ [t.sq.packetAt r (min t.sq.mtu (r.endPsn - t.sq.sndNxt))])
      (u32 t.sq.sndNxt + min t.sq.mtu (r.endPsn - t.sq.sndNxt)) := hgap.append
  rw [hseq] at happend
  exact happend

/-- An ACK, which is no NACK, moves the sender on. -/
theorem ack (h : InLine t) (hi : t.Inv) (hl : t.ackFifo = a :: l)
    (hs : RdmaReliableRQ.receiveAck false cb fuel a t.sq = some s) :
    InLine { t with sq := s, ackFifo := l } := by
  have hmem := hi.ackFifo a (hl ▸ List.mem_cons_self)
  obtain ⟨u, hu, hs⟩ := Option.bind_eq_some_iff.mp hs
  dsimp only at hs
  rw [if_neg (by rw [h.acks a hmem]; decide)] at hs
  cases hs
  have hnxt : s.sndNxt = max t.sq.sndNxt a.seq := by
    rw [RdmaReliableSQ.acknowledge_eq hu hi.inv.live.una_le]
  refine ⟨?_, h.acks⟩
  show NoGap t.rq.nextExpectedSeq t.data s.sndNxt
  rw [hnxt]
  exact h.noGap.max (hi.inv.acks a hmem).1

/-- The timer makes the sender go back to what is acknowledged. -/
theorem timeout (h : InLine t) (hi : t.Inv) (hs : t.sq.onRetrTimeout cb fuel = some s) :
    InLine { t with sq := s } := by
  obtain ⟨u, hu, rfl⟩ := RdmaReliableSQ.recoverNack_eq hs
  have hle : ({ t.sq with retrTo := false } : RdmaReliableSQ).sndUna ≤ t.sq.sndNxt :=
    hi.inv.live.una_le
  have huna : u.sndUna = max t.sq.sndUna t.sq.sndUna := by
    rw [RdmaReliableSQ.acknowledge_eq hu hle]
  rw [Nat.max_self] at huna
  refine ⟨?_, h.acks⟩
  show NoGap t.rq.nextExpectedSeq t.data u.sndUna
  rw [huna]
  exact h.noGap.of_le hi.inv.una_le

theorem step (h : InLine t) (hi : t.Inv) (hst : Step t e t')
    (hb : totalBytes t.sq.log.posted < 2 ^ 32) : InLine t' := by
  cases hst with
  | post => exact ⟨h.noGap, h.acks⟩
  | emit hd hp => exact h.emit hi hd hp hb
  | data hl hrecv => exact h.deliver hi hl hrecv hb
  | ack hl hs => exact h.ack hi hl hs
  | timeout _ hs => exact h.timeout hi hs

end InLine

/-- The run lemma. -/
theorem inLine {t₀ t : LosslessPair} (h₀ : Fresh t₀) (h : (lossless t₀).Reachable t)
    (hb : totalBytes t.sq.log.posted < 2 ^ 32) : t.InLine := by
  refine h.invariant_of_bound (B := fun t => totalBytes t.sq.log.posted < 2 ^ 32) (I := InLine)
    ?_ ?_ ?_ hb
  · rintro _ rfl
    exact h₀.inLine
  · exact fun hst hb => Nat.lt_of_le_of_lt (totalBytes_mono (Step.posted hst)) hb
  · intro t e t' ht hi hst hb
    have hb := Nat.lt_of_le_of_lt (totalBytes_mono (Step.posted hst)) hb
    exact hi.step (lossless_inv h₀ ht hb) hst hb

/-- Nothing is left to send before the last byte was sent. -/
theorem Inv.sent_all {t : LosslessPair} (h : t.Inv) (hd : t.sq.hasDataToSend = false) :
    t.sq.nextOpFirstPsn ≤ t.sq.sndNxt := by
  rcases Nat.lt_or_ge t.sq.sndNxt t.sq.nextOpFirstPsn with hlt | hge
  · -- then no request is left, and the last one is acknowledged
    have hempty : t.sq.toSend.entries = [] := by
      simp only [RdmaReliableSQ.hasDataToSend, hlt, decide_true, Bool.true_and,
        Bool.not_eq_false'] at hd
      exact List.isEmpty_iff.mp hd
    obtain ⟨r, hr, hlo, hhi⟩ := h.inv.live.laid.tiles.exists_cover
      (p := t.sq.nextOpFirstPsn - 1) (Nat.zero_le _) (by omega)
    obtain ⟨d, hsplit, -, hle⟩ := h.inv.live.laid.split
    rw [OrdMap.values, hempty, List.map_nil, List.append_nil] at hsplit
    have hend := hle r (hsplit ▸ hr)
    have huna := h.inv.live.una_le
    omega
  · exact hge

/-- **Nothing is left**: when the sender has nothing to send and nothing is on the way, everything
that was posted was accepted and acknowledged, and both applications were notified of it. -/
theorem InLine.complete {t : LosslessPair} (h : InLine t) (hi : t.Inv)
    (hd : t.sq.hasDataToSend = false) (hdata : t.data = []) (hacks : t.ackFifo = []) :
    t.rq.nextExpectedSeq = totalBytes t.sq.log.posted ∧
      t.sq.sndUna = totalBytes t.sq.log.posted ∧
      t.rq.log.notified = (if t.rq.onRecv then t.sq.log.posted.map (·.imm) else []) ∧
      t.sq.log.called = t.sq.log.posted.filter (·.onSend) := by
  have hN := hi.inv.live.laid.nextOp_eq
  have hexp : t.rq.nextExpectedSeq = t.sq.nextOpFirstPsn := by
    have hgap := h.noGap
    rw [hdata] at hgap
    have hgap : t.sq.sndNxt ≤ t.rq.nextExpectedSeq := hgap
    have hsent := hi.sent_all hd
    have hle := hi.inv.exp_le
    omega
  have hall : AllAccepted t := by
    have hsum := sum_of_tiles hi.inv.accepted
    unfold AllAccepted
    omega
  obtain ⟨huna, hcalled⟩ := hi.agrees hall hacks
  refine ⟨hexp.trans hN, huna.trans hN, ?_, hcalled⟩
  have hnotified := hi.inv.notified
  rw [List.takeWhile_eq_self_iff.mpr fun r hr =>
    decide_eq_true (hexp ▸ hi.inv.live.laid.endPsn_le hr)] at hnotified
  exact hnotified

/-- **No NACK without a loss.** Over a lossless channel in order and below 2^32 bytes the receiver
never sends a NACK, however often the timer of the sender fires; every packet that it receives
starts at or below the PSN that it expects. -/
theorem no_nack {t₀ t : LosslessPair} (h₀ : Fresh t₀) (h : (lossless t₀).Reachable t)
    (hb : totalBytes t.sq.log.posted < 2 ^ 32) : (∀ a ∈ t.acks, a.protocol = 0xFC) ∧
      ∀ p ∈ t.data.head?, p.seqTs.seq ≤ t.rq.nextExpectedSeq := by
  have hline := inLine h₀ h hb
  refine ⟨hline.acks, fun p hp => ?_⟩
  obtain ⟨l, hl⟩ := List.head?_eq_some_iff.mp hp
  have hgap := hline.noGap
  rw [hl] at hgap
  exact hgap.1

/-- The first packet of 3000 bytes is on its way. -/
theorem no_nack_3000 : ∃ t, (lossless new1000).Reachable t ∧ t.data ≠ [] ∧
    (∀ a ∈ t.acks, a.protocol = 0xFC) ∧
    ∀ p ∈ t.data.head?, p.seqTs.seq ≤ t.rq.nextExpectedSeq := by
  have hstart : (lossless new1000).Reachable new1000 := .init rfl
  have hpost : Step new1000 (.post { payloadSize := 3000 }) _ := .post
  have hposted := hstart.step hpost
  have hdata : (new1000.sq.postSend { payloadSize := 3000 }).hasDataToSend := by decide
  have hsome := (lossless_inv new1000_fresh hposted (by decide)).inv.live.getNextPacket_isSome
    (by decide) hdata
  obtain ⟨⟨p, s⟩, hp⟩ := Option.isSome_iff_exists.mp hsome
  have hemitted := hposted.step (show Step _ .emit _ from .emit hdata hp)
  refine ⟨_, hemitted, List.append_ne_nil_of_right_ne_nil _ (List.cons_ne_nil _ _), ?_⟩
  refine no_nack new1000_fresh hemitted ?_
  have hsame := RdmaReliableSQ.getNextPacket_posted hp
  exact hsame ▸ (by decide : totalBytes (new1000.sq.postSend _).log.posted < 2 ^ 32)

end LosslessPair

end Roce
