import Roce.QueuePair.ReliableDelivery

/-! # A reliable queue pair over a lossless channel in order

The sender keeps PSNs in 64 bits; the header, the receiver and the ACK keep them in 32. Below 2^32
bytes the two ends agree on what was acknowledged. From 2^32 bytes on they do not: an ACK never
carries more than 32 bits, so `m_snd_una` stays below 2^32. -/

namespace Roce

/-- A pair with the packets and the ACKs in flight, each a FIFO. -/
structure LosslessPair extends ReliablePair where
  data : List Packet := []
  ackFifo : List AckPacket := []

namespace LosslessPair

/-- A new pair with nothing in flight. -/
structure Fresh (t : LosslessPair) : Prop where
  pair : t.toReliablePair.Fresh
  data : t.data = []
  ackFifo : t.ackFifo = []

/-- Nothing is lost or overtaken: the packet, or ACK, at the head of the FIFO is delivered. -/
inductive Step : LosslessPair → ReliablePair.Event → LosslessPair → Prop
  | post : Step t (.post sr) { t with sq := t.sq.postSend sr }
  | emit : t.sq.hasDataToSend → t.sq.getNextPacket = some (p, s) →
      Step t .emit { t with sq := s, data := t.data ++ [p] }
  | data : t.data = p :: l → t.rq.receiveUdp now ecnbits p = some (reply, r) →
      Step t (.data p now ecnbits)
        { t with
          rq := r
          data := l
          acks := t.acks ++ reply.toList
          ackFifo := t.ackFifo ++ reply.toList }
  | ack : t.ackFifo = a :: l → RdmaReliableRQ.receiveAck false cb fuel a t.sq = some s →
      Step t (.ack a cb) { t with sq := s, ackFifo := l }
  | timeout : t.sq.retrTo → t.sq.onRetrTimeout cb fuel = some s →
      Step t (.timeout cb) { t with sq := s }

/-- The pair over the lossless channel, started in `t₀`. -/
def lossless (t₀ : LosslessPair) : Machine LosslessPair ReliablePair.Event := ⟨(· = t₀), Step⟩

/-- `r` is what `PostSend` makes of `sr`. -/
def StoredAs (sr r : SendRequest) : Prop := ∃ s : RdmaReliableSQ, r = s.stored sr

/-- The requests posted so far are an initial part of `reqs`. -/
def Submits (reqs : List SendRequest) (t : LosslessPair) : Prop :=
  ∃ l, l <+: reqs ∧ List.Forall₂ StoredAs l t.sq.log.posted

/-- The receiver accepted as many bytes as were posted. -/
def AllAccepted (t : LosslessPair) : Prop :=
  (t.rq.log.accepted.map fun x => x.2 - x.1).sum = totalBytes t.sq.log.posted

/-- Whenever, while the requests of `reqs` are posted, the receiver has accepted every posted byte
and its last ACK is delivered, the sender knows: every byte is acknowledged and the `on_send` of
every request was called. -/
def Agrees (t₀ : LosslessPair) (reqs : List SendRequest) : Prop :=
  ∀ t, (lossless t₀).Reachable t → Submits reqs t → AllAccepted t → t.ackFifo = [] →
    t.sq.sndUna = t.sq.nextOpFirstPsn ∧ t.sq.log.called = t.sq.log.posted.filter (·.onSend)

/-- The bytes that a sequence of requests posts: a request without payload posts one. -/
def payloadTotal (reqs : List SendRequest) : Nat :=
  (reqs.map fun sr => max 1 sr.payloadSize.toNat).sum

theorem StoredAs.size (h : StoredAs sr r) : r.payloadSize.toNat = max 1 sr.payloadSize.toNat := by
  obtain ⟨s, rfl⟩ := h
  exact s.stored_size sr

theorem totalBytes_of_stored {l posted : List SendRequest} (h : List.Forall₂ StoredAs l posted) :
    totalBytes posted = payloadTotal l := by
  induction h with
  | nil => rfl
  | cons h _ ih =>
    simp only [totalBytes, payloadTotal, List.map_cons, List.sum_cons, h.size] at ih ⊢
    rw [ih]

theorem payloadTotal_mono {l l' : List SendRequest} (h : l <+: l') :
    payloadTotal l ≤ payloadTotal l' := by
  obtain ⟨t, rfl⟩ := h
  simp [payloadTotal]

theorem Submits.totalBytes_le {t : LosslessPair} (h : Submits reqs t) :
    totalBytes t.sq.log.posted ≤ payloadTotal reqs := by
  obtain ⟨l, hl, hst⟩ := h
  rw [totalBytes_of_stored hst]
  exact payloadTotal_mono hl

/-! ## Below 2^32 bytes -/

/-- What the lossless channel adds to the invariant of the pair: what is in flight was sent, and
the end of a request that was accepted is acknowledged or on its way. -/
structure Inv (t : LosslessPair) : Prop where
  inv : t.toReliablePair.Inv
  data : ∀ p ∈ t.data, p ∈ t.sq.log.sent
  ackFifo : ∀ a ∈ t.ackFifo, a ∈ t.acks
  head : t.sq.HeadPending
  acked : ∀ r ∈ t.sq.log.posted, r.endPsn ≤ t.rq.nextExpectedSeq →
    r.endPsn ≤ t.sq.sndUna ∨ ∃ a ∈ t.ackFifo, r.endPsn ≤ a.seq

/-- A step over the lossless channel is a step over the unreliable one. -/
theorem Step.toPair {t t' : LosslessPair} (h : Step t e t')
    (hd : ∀ p ∈ t.data, p ∈ t.sq.log.sent) (ha : ∀ a ∈ t.ackFifo, a ∈ t.acks) :
    ReliablePair.Step t.toReliablePair e t'.toReliablePair := by
  cases h with
  | post => exact .post
  | emit hdata hp => exact .emit hdata hp
  | data hl hp => exact .data (hd _ (hl ▸ List.mem_cons_self)) hp
  | ack hl hs => exact .ack (ha _ (hl ▸ List.mem_cons_self)) hs
  | timeout hto hs => exact .timeout hto hs

/-- A request that ends below the bytes posted before is one of the requests posted before. -/
theorem mem_of_endPsn_le {l l' : List SendRequest} (hp : l <+: l')
    (ht : Tiles SendRequest.firstPsn SendRequest.endPsn 0 l b)
    (ht' : Tiles SendRequest.firstPsn SendRequest.endPsn 0 l' b') (hr : r ∈ l')
    (hle : r.endPsn ≤ b) : r ∈ l := by
  obtain ⟨t, rfl⟩ := hp
  rcases List.mem_append.mp hr with hr | hr
  · exact hr
  · have := (ht.drop_prefix ht').mem_bounds hr
    omega

theorem getNextPacket_head {s s' : RdmaReliableSQ} (h : s.getNextPacket = some (p, s'))
    (hl : s.Live) (hb : totalBytes s.log.posted < 2 ^ 64) (hd : s.hasDataToSend) :
    s'.toSend = s.toSend ∧ s'.sndUna = s.sndUna ∧ s'.log.sent = s.log.sent ++ [p] := by
  simp only [RdmaReliableSQ.hasDataToSend, Bool.and_eq_true, decide_eq_true_eq] at hd
  obtain ⟨r, -, -, -, heq⟩ := RdmaReliableSQ.getNextPacket_eq hl.laid hb hl.mtu_pos hl.una_le
    hd.1 hl.high_le
  rw [heq, Option.some.injEq, Prod.mk.injEq] at h
  obtain ⟨rfl, rfl⟩ := h
  exact ⟨rfl, rfl, rfl⟩

namespace Inv

variable {t : LosslessPair} {s : RdmaReliableSQ} {rq : RdmaReliableRQ}
  {reply : Option AckPacket} {l : List Packet} {m : List AckPacket}

/-- The send queue may post requests and raise `m_snd_una` to the PSN of an ACK that it takes from
the FIFO. -/
theorem withSq (h : Inv t) (hi : ReliablePair.Inv { t.toReliablePair with sq := s })
    (hpost : t.sq.log.posted <+: s.log.posted) (hsent : s.log.sent = t.sq.log.sent)
    (hhead : s.HeadPending) (hle : t.sq.sndUna ≤ s.sndUna) (hm : ∀ a ∈ m, a ∈ t.ackFifo)
    (hack : ∀ a ∈ t.ackFifo, a ∈ m ∨ a.seq ≤ s.sndUna) :
    Inv { t with sq := s, ackFifo := m } := by
  refine ⟨hi, ?_, fun a ha => h.ackFifo a (hm a ha), hhead, fun r hr hexp => ?_⟩
  · rw [hsent]
    exact h.data
  · have hr' := mem_of_endPsn_le hpost h.inv.live.laid.tiles hi.live.laid.tiles hr
      (Nat.le_trans hexp h.inv.exp_le)
    rcases h.acked r hr' hexp with hdone | ⟨a, ha, hseq⟩
    · exact .inl (Nat.le_trans hdone hle)
    · rcases hack a ha with hmem | hdone
      · exact .inr ⟨a, hmem, hseq⟩
      · exact .inl (Nat.le_trans hseq hdone)

theorem post (h : Inv t) (hi : ReliablePair.Inv { t.toReliablePair with sq := t.sq.postSend sr }) :
    Inv { t with sq := t.sq.postSend sr } := by
  refine h.withSq hi (List.prefix_append ..) rfl ?_ (Nat.le_refl _) (fun _ ha => ha)
    (fun _ ha => .inl ha)
  intro e he
  have hent := h.inv.live.laid.postSend_entries sr
  obtain ⟨l, hl⟩ := OrdMap.begin?_eq_some.mp he
  cases hold : t.sq.toSend.entries with
  | nil =>
    -- the new request is the only one
    rw [hold, hl] at hent
    obtain ⟨rfl, -⟩ : e = _ ∧ l = [] := by simpa using hent
    have h1 := h.inv.una_le
    have h2 := h.inv.exp_le
    have h3 := t.sq.stored_size_pos sr
    change t.sq.sndUna < t.sq.nextOpFirstPsn + (t.sq.stored sr).payloadSize.toNat
    omega
  | cons e' l' =>
    rw [hold, hl, List.cons_append] at hent
    obtain ⟨rfl, -⟩ : e = e' ∧ _ := by simpa using hent
    exact h.head e (OrdMap.begin?_eq_some.mpr ⟨l', hold⟩)

theorem emit (h : Inv t) (hi : ReliablePair.Inv { t.toReliablePair with sq := s })
    (hd : t.sq.hasDataToSend) (hp : t.sq.getNextPacket = some (p, s))
    (hb : totalBytes t.sq.log.posted < 2 ^ 64) :
    Inv { t with sq := s, data := t.data ++ [p] } := by
  obtain ⟨hts, huna, hsent⟩ := getNextPacket_head hp h.inv.live hb hd
  refine ⟨hi, ?_, h.ackFifo, ?_, ?_⟩
  · intro q hq
    rw [hsent]
    rcases List.mem_append.mp hq with hq | hq
    · exact List.mem_append_left _ (h.data q hq)
    · exact List.mem_append_right _ hq
  · intro e he
    rw [hts] at he
    rw [huna]
    exact h.head e he
  · rw [RdmaReliableSQ.getNextPacket_posted hp, huna]
    exact h.acked

/-- The ACK that the last piece of a request asked for enters the FIFO. -/
theorem deliver (h : Inv t)
    (hi : ReliablePair.Inv
      { t.toReliablePair with rq := rq, acks := t.acks ++ reply.toList })
    (hl : t.data = p :: l) (hrecv : t.rq.receiveUdp now ecnbits p = some (reply, rq))
    (hb : totalBytes t.sq.log.posted < 2 ^ 32) :
    Inv { t with
      rq := rq, data := l, acks := t.acks ++ reply.toList
      ackFifo := t.ackFifo ++ reply.toList } := by
  refine ⟨hi, fun q hq => h.data q (hl ▸ List.mem_cons_of_mem _ hq), ?_, h.head, ?_⟩
  · intro a ha
    rcases List.mem_append.mp ha with ha | ha
    · exact List.mem_append_left _ (h.ackFifo a ha)
    · exact List.mem_append_right _ ha
  · intro r hr hexp
    rcases Nat.lt_or_ge t.rq.nextExpectedSeq r.endPsn with hnew | hold
    · obtain ⟨-, r', hr', hpiece⟩ := h.inv.sent p (h.data p (hl ▸ List.mem_cons_self))
      have hlo := hpiece.first_le
      have hhi := hpiece.lt_end
      have hsz := hpiece.size_eq
      have ht := h.inv.live.laid.tiles
      have hN := h.inv.live.laid.nextOp_eq
      have hend := h.inv.live.laid.endPsn_le hr'
      have hlo' := (ht.mem_bounds hr).2.1
      rcases RdmaReliableRQ.receiveUdp_cases hrecv h.inv.backto0 with
        ⟨hseq, hrq, hsome, hreply⟩ | ⟨-, hrq, -⟩
      · have hnext : rq.nextExpectedSeq = t.rq.nextExpectedSeq + p.size := by
          rw [hrq]
          exact u32_of_lt (by omega)
        change r.endPsn ≤ rq.nextExpectedSeq at hexp
        -- the accepted piece is the last one of `r`
        obtain rfl := ht.cover_unique (p := r.endPsn - 1) hr hr' ⟨by omega, by omega⟩
          ⟨by omega, by omega⟩
        have hlast : p.seqTs.seq + p.size = r.endPsn := by omega
        have hnotif : p.bth.notif := by rw [hpiece.notif]; exact decide_eq_true hlast
        rw [hpiece.ackReq hnotif] at hsome
        obtain ⟨a, rfl⟩ := Option.isSome_iff_exists.mp hsome
        refine .inr ⟨a, List.mem_append_right _ (by simp), ?_⟩
        rw [(hreply a rfl).1, u32_of_lt (by omega)]
        omega
      · have hnext : rq.nextExpectedSeq = t.rq.nextExpectedSeq := by rw [hrq]
        change r.endPsn ≤ rq.nextExpectedSeq at hexp
        omega
    · rcases h.acked r hr hold with hdone | ⟨a, ha, hseq⟩
      · exact .inl hdone
      · exact .inr ⟨a, List.mem_append_left _ ha, hseq⟩

theorem ack (h : Inv t) (hi : ReliablePair.Inv { t.toReliablePair with sq := s })
    (hl : t.ackFifo = a :: m) (hs : RdmaReliableRQ.receiveAck false cb fuel a t.sq = some s)
    (hb : totalBytes s.log.posted < 2 ^ 64) : Inv { t with sq := s, ackFifo := m } := by
  obtain ⟨u, hu, hs⟩ := Option.bind_eq_some_iff.mp hs
  have hle := h.inv.live.una_le
  have hpost := RdmaReliableSQ.acknowledge_posted hu
  have heq := RdmaReliableSQ.acknowledge_eq hu hle
  have huna : u.sndUna = max t.sq.sndUna a.seq := by rw [heq]
  have hmem : ∀ x ∈ m, x ∈ t.ackFifo := fun x hx => hl ▸ List.mem_cons_of_mem _ hx
  have hdone : ∀ x ∈ t.ackFifo, x ∈ m ∨ x.seq ≤ u.sndUna := by
    intro x hx
    rcases List.mem_cons.mp (hl ▸ hx) with rfl | hx
    · exact .inr (by omega)
    · exact .inl hx
  split at hs
  next =>
    have hpost' := RdmaReliableSQ.recoverNack_posted hs
    obtain ⟨v, hv, rfl⟩ := RdmaReliableSQ.recoverNack_eq hs
    have hbu := Nat.lt_of_le_of_lt (totalBytes_mono hpost') hb
    obtain ⟨hlaid, hhead⟩ := RdmaReliableSQ.acknowledge_laid hu h.inv.live.laid hbu
    have heq' := RdmaReliableSQ.acknowledge_eq hv (by rw [heq]; simp only; omega)
    have hvuna : v.sndUna = u.sndUna := by rw [heq']; simp only; omega
    have hhead' := (RdmaReliableSQ.acknowledge_laid hv hlaid hb).2 (.inl (hhead (.inl h.head)))
    refine h.withSq hi (hpost.trans hpost') ?_ hhead' ?_ hmem ?_
    · change v.log.sent = _
      rw [heq', heq]
    · change _ ≤ v.sndUna
      omega
    · change ∀ x ∈ _, _ ∨ _ ≤ v.sndUna
      rw [hvuna]
      exact hdone
  next =>
    cases hs
    obtain ⟨-, hhead⟩ := RdmaReliableSQ.acknowledge_laid hu h.inv.live.laid hb
    exact h.withSq hi hpost (by rw [heq]) (hhead (.inl h.head)) (by omega) hmem hdone

theorem timeout (h : Inv t) (hi : ReliablePair.Inv { t.toReliablePair with sq := s })
    (hs : t.sq.onRetrTimeout cb fuel = some s) (hb : totalBytes s.log.posted < 2 ^ 64) :
    Inv { t with sq := s } := by
  have hpost := RdmaReliableSQ.recoverNack_posted hs
  obtain ⟨u, hu, rfl⟩ := RdmaReliableSQ.recoverNack_eq hs
  have hlaid := h.inv.live.laid
  have heq := RdmaReliableSQ.acknowledge_eq hu h.inv.live.una_le
  obtain ⟨-, hhead⟩ := RdmaReliableSQ.acknowledge_laid hu
    ⟨hlaid.tiles, hlaid.split, hlaid.keyed⟩ hb
  have huna : u.sndUna = t.sq.sndUna := by
    rw [heq]
    exact Nat.max_self _
  exact h.withSq hi hpost (by rw [heq]) (hhead (.inl h.head)) (Nat.le_of_eq huna.symm)
    (fun _ ha => ha) (fun _ ha => .inl ha)

theorem step {t t' : LosslessPair} (h : Inv t) (hst : Step t e t')
    (hb : totalBytes t'.sq.log.posted < 2 ^ 32) : Inv t' := by
  have hi := h.inv.step (hst.toPair h.data h.ackFifo) hb
  have hb' : totalBytes t'.sq.log.posted < 2 ^ 64 := Nat.lt_trans hb (by decide)
  cases hst with
  | post => exact h.post hi
  | emit hd hp => exact h.emit hi hd hp (by rwa [← RdmaReliableSQ.getNextPacket_posted hp])
  | data hl hrecv => exact h.deliver hi hl hrecv hb
  | ack hl hs => exact h.ack hi hl hs hb'
  | timeout _ hs => exact h.timeout hi hs hb'

end Inv

theorem Fresh.inv {t : LosslessPair} (h : t.Fresh) : t.Inv where
  inv := h.pair.inv
  data := by rw [h.data]; exact fun _ h => nomatch h
  ackFifo := by rw [h.ackFifo]; exact fun _ h => nomatch h
  head := by
    intro e he
    rw [h.pair.sq.toSend] at he
    cases he
  acked := by rw [h.pair.sq.log]; exact fun _ h => nomatch h

theorem Step.posted {t t' : LosslessPair} (h : Step t e t') :
    t.sq.log.posted <+: t'.sq.log.posted := by
  cases h with
  | post => exact List.prefix_append ..
  | emit _ h => rw [RdmaReliableSQ.getNextPacket_posted h]
  | data => exact List.prefix_rfl
  | ack _ h => exact ReliablePair.receiveAck_posted h
  | timeout _ h =>
    have hpost := RdmaReliableSQ.recoverNack_posted h
    exact hpost

theorem lossless_inv {t₀ t : LosslessPair} (h₀ : Fresh t₀) (h : (lossless t₀).Reachable t)
    (hb : totalBytes t.sq.log.posted < 2 ^ 32) : t.Inv := by
  refine h.invariant_of_bound (B := fun t => totalBytes t.sq.log.posted < 2 ^ 32) (I := Inv)
    ?_ ?_ ?_ hb
  · rintro _ rfl
    exact h₀.inv
  · exact fun hst hb => Nat.lt_of_le_of_lt (totalBytes_mono (Step.posted hst)) hb
  · exact fun _ hi hst hb => hi.step hst hb

theorem sum_of_tiles {l : List (Nat × Nat)} (h : Tiles Prod.fst Prod.snd a l b) :
    a + (l.map fun x => x.2 - x.1).sum = b := by
  induction l generalizing a with
  | nil => exact h
  | cons x l ih =>
    obtain ⟨rfl, hlt, ht⟩ := h
    have := ih ht
    simp only [List.map_cons, List.sum_cons]
    omega

/-- Everything is acknowledged once everything is accepted and nothing is in flight back. -/
theorem Inv.agrees {t : LosslessPair} (h : Inv t) (hall : AllAccepted t) (hnil : t.ackFifo = []) :
    t.sq.sndUna = t.sq.nextOpFirstPsn ∧
      t.sq.log.called = t.sq.log.posted.filter (·.onSend) := by
  have hN := h.inv.live.laid.nextOp_eq
  have hsum := sum_of_tiles h.inv.accepted
  have hle := h.inv.una_le
  have hexp : t.rq.nextExpectedSeq = t.sq.nextOpFirstPsn := by
    unfold AllAccepted at hall
    omega
  have huna : t.sq.sndUna = t.sq.nextOpFirstPsn := by
    rcases Nat.lt_or_ge t.sq.sndUna t.sq.nextOpFirstPsn with hlt | hge
    · -- the request of the last byte ends at `m_next_op_first_psn`
      obtain ⟨r, hr, hlo, hhi⟩ := h.inv.live.laid.tiles.exists_cover
        (p := t.sq.nextOpFirstPsn - 1) (Nat.zero_le _) (by omega)
      have hend := h.inv.live.laid.endPsn_le hr
      rcases h.acked r hr (hexp ▸ hend) with hdone | ⟨a, ha, -⟩
      · omega
      · rw [hnil] at ha
        cases ha
    · omega
  refine ⟨huna, ?_⟩
  obtain ⟨d, hd, hc, -⟩ := h.inv.live.laid.split
  have hempty : t.sq.toSend.values = [] := by
    cases hent : t.sq.toSend.entries with
    | nil => rw [OrdMap.values, hent]; rfl
    | cons e l =>
      have hlt := h.head e (OrdMap.begin?_eq_some.mpr ⟨l, hent⟩)
      have hmem : e.2 ∈ t.sq.toSend.values :=
        List.mem_map_of_mem (hent ▸ List.mem_cons_self)
      have := h.inv.live.laid.endPsn_le (h.inv.live.laid.mem_posted hmem)
      omega
  rw [hc, hd, hempty, List.append_nil]

/-! ## From 2^32 bytes on

A run in which every packet is delivered as soon as it is sent, and every ACK as soon as it is
answered. The callbacks post nothing. -/

/-- Sender and receiver stand at byte `n` of the posted requests `P`, nothing is in flight. -/
structure Sync (P : List SendRequest) (n : Nat) (t : LosslessPair) : Prop where
  live : t.sq.Live
  posted : t.sq.log.posted = P
  conn : Connected t.sq t.rq
  backto0 : t.rq.backto0 = false
  nxt : t.sq.sndNxt = n
  una : t.sq.sndUna < 2 ^ 32
  exp : t.rq.nextExpectedSeq = u32 n
  sum : (t.rq.log.accepted.map fun x => x.2 - x.1).sum = n
  data : t.data = []
  ackFifo : t.ackFifo = []

/-- Callbacks that post nothing. -/
def silent : Callbacks := fun _ => []

theorem promised_silent (l : List SendRequest) : RdmaReliableSQ.promised silent l = 0 := by
  have hnil : (l.filter (·.onSend)).flatMap silent = [] :=
    List.flatMap_eq_nil_iff.mpr fun _ _ => rfl
  rw [RdmaReliableSQ.promised, hnil]
  rfl

theorem notify_silent {s s' : RdmaReliableSQ}
    (h : RdmaReliableSQ.notifyPendingCompEvents silent fuel s = some s') :
    s'.log.posted = s.log.posted := by
  induction fuel generalizing s with
  | zero => cases h
  | succ fuel ih =>
    simp only [RdmaReliableSQ.notifyPendingCompEvents] at h
    split at h
    · cases h
      rfl
    · split at h
      · cases h
        rfl
      · rw [ih h]
        unfold RdmaReliableSQ.callOnSend
        split <;> rfl

theorem acknowledge_silent {s s' : RdmaReliableSQ}
    (h : s.acknowledge silent fuel n = some s') : s'.log.posted = s.log.posted := by
  unfold RdmaReliableSQ.acknowledge at h
  split at h
  · obtain ⟨u, hu, hs⟩ := Option.bind_eq_some_iff.mp h
    cases hs
    have hpost := notify_silent hu
    exact hpost
  · cases h
    rfl

/-- The next packet: it is sent, accepted and, if it asks for it, acknowledged. -/
theorem Sync.next (t₀ : LosslessPair) {t : LosslessPair} (h : Sync P n t) (hlt : n < totalBytes P)
    (hb : totalBytes P < 2 ^ 64) :
    ∃ t' es m, n < m ∧ m ≤ totalBytes P ∧ (lossless t₀).Run t es t' ∧ Sync P m t' := by
  have hb' : totalBytes t.sq.log.posted < 2 ^ 64 := h.posted ▸ hb
  have hN : t.sq.nextOpFirstPsn = totalBytes P := h.posted ▸ h.live.laid.nextOp_eq
  have hn := h.nxt
  have hmtu := h.live.mtu_pos
  have hle := h.live.una_le
  have hd : t.sq.hasDataToSend := by
    have hne := h.live.toSend_ne (by omega)
    simp only [RdmaReliableSQ.hasDataToSend, hne, Bool.not_false, Bool.and_true,
      decide_eq_true_eq]
    omega
  obtain ⟨r, hr, hlo, hhi, hp⟩ := RdmaReliableSQ.getNextPacket_eq h.live.laid hb' hmtu hle
    (by omega) h.live.high_le
  have hend := h.live.laid.endPsn_le (h.live.laid.mem_posted hr)
  have hl := h.live.getNextPacket hb' hd hp
  generalize hsz : min t.sq.mtu (r.endPsn - t.sq.sndNxt) = size at hp hl
  have hasrt : t.rq.ReceiveAssert (t.sq.packetAt r size) := by
    refine ⟨?_, h.conn.1.symm, h.conn.3.symm, h.conn.4.symm, h.conn.2.symm⟩
    simp only [RdmaReliableSQ.packetAt, RdmaReliableSQ.bthAt]
    split <;> rfl
  obtain ⟨⟨reply, rq⟩, hrecv⟩ := Option.isSome_iff_exists.mp
    (RdmaReliableRQ.receiveUdp_isSome 0 0 hasrt)
  have hseq : (t.sq.packetAt r size).seqTs.seq = t.rq.nextExpectedSeq := by
    rw [h.exp, ← hn]
    rfl
  obtain ⟨-, hrq, -, hreply⟩ | ⟨hne, -⟩ := RdmaReliableRQ.receiveUdp_cases hrecv h.backto0
  case inr => exact absurd hseq hne
  have hexp : u32 (t.rq.nextExpectedSeq + (t.sq.packetAt r size).size) = u32 (n + size) := by
    rw [h.exp]
    exact Nat.mod_add_mod ..
  rw [hexp] at hrq hreply
  have hconn : Connected (t.sq.emitted r size) rq := by
    rw [hrq]
    exact ⟨h.conn.1, h.conn.2, h.conn.3, h.conn.4⟩
  have hsum : (rq.log.accepted.map fun x => x.2 - x.1).sum = n + size := by
    rw [hrq]
    simp only [RdmaReliableRQ.accept, List.map_append, List.sum_append, h.sum, List.map_cons,
      List.map_nil, List.sum_cons, List.sum_nil, RdmaReliableSQ.packetAt]
    omega
  have hrun := (Machine.Run.single (M := lossless t₀) (show Step t .emit _ from .emit hd hp)).snoc
    (show Step _ (.data _ 0 0) _ from .data (l := []) (by rw [h.data]; rfl) hrecv)
  cases reply with
  | none =>
    refine ⟨_, _, n + size, by omega, by omega, hrun, hl, h.posted, hconn, ?_, ?_, h.una, ?_,
      hsum, rfl, ?_⟩
    · rw [hrq]
      exact h.backto0
    · exact congrArg (· + size) hn
    · rw [hrq]
    · simpa using h.ackFifo
  | some a =>
    obtain ⟨haseq, haprot⟩ := hreply a rfl
    have hale : a.seq ≤ n + size := haseq ▸ u32_le _
    have hseqle : a.seq ≤ t.sq.nextOpFirstPsn := by omega
    obtain ⟨fuel, s, hs⟩ : ∃ fuel s,
        (t.sq.emitted r size).acknowledge silent fuel a.seq = some s :=
      ⟨_, Option.isSome_iff_exists.mp (RdmaReliableSQ.acknowledge_terminates hl.laid hseqle
        (by rw [promised_silent]; exact hb'))⟩
    have hack : RdmaReliableRQ.receiveAck false silent fuel a (t.sq.emitted r size) = some s := by
      simp only [RdmaReliableRQ.receiveAck, Bool.not_false, ↓reduceIte, hs, haprot,
        Option.bind_eq_bind, Option.bind_some]
      rfl
    have hpost := acknowledge_silent hs
    have heq := RdmaReliableSQ.acknowledge_eq hs hl.una_le
    have hlive := hl.acknowledge hs (by rw [hpost]; exact hb')
    refine ⟨_, _, n + size, by omega, by omega, hrun.snoc (show Step _ (.ack a silent) _ from
      .ack (l := []) (by simp [h.ackFifo]) hack), hlive, hpost.trans h.posted, ?_, ?_, ?_, ?_,
      ?_, hsum, rfl, rfl⟩
    · rw [heq]
      exact ⟨hconn.1, hconn.2, hconn.3, hconn.4⟩
    · rw [hrq]
      exact h.backto0
    · rw [heq]
      simp only [RdmaReliableSQ.emitted]
      omega
    · have := u32_lt (n + size)
      have := h.una
      rw [heq]
      simp only [RdmaReliableSQ.emitted]
      omega
    · rw [hrq]

/-- The run that sends everything. -/
theorem Sync.all (t₀ : LosslessPair) {t : LosslessPair} (h : Sync P n t) (hle : n ≤ totalBytes P)
    (hb : totalBytes P < 2 ^ 64) :
    ∃ t' es, (lossless t₀).Run t es t' ∧ Sync P (totalBytes P) t' := by
  induction hk : totalBytes P - n using Nat.strongRecOn generalizing t n with
  | ind k ih =>
    rcases Nat.lt_or_ge n (totalBytes P) with hlt | hge
    · obtain ⟨t', es, m, hnm, hm, hrun, h'⟩ := h.next t₀ hlt hb
      obtain ⟨t'', es', hrun', h''⟩ := ih (totalBytes P - m) (by omega) h' hm rfl
      exact ⟨t'', es ++ es', hrun.append hrun', h''⟩
    · obtain rfl : n = totalBytes P := by omega
      exact ⟨t, [], .nil, h⟩

/-- The posts at the start of the run. -/
theorem postAll (t₀ t : LosslessPair) (reqs : List SendRequest) :
    ∃ es t', (lossless t₀).Run t es t' ∧
      t' = { t with sq := reqs.foldl RdmaReliableSQ.postSend t.sq } ∧
      ∃ P, t'.sq.log.posted = t.sq.log.posted ++ P ∧ List.Forall₂ StoredAs reqs P := by
  induction reqs generalizing t with
  | nil => exact ⟨[], t, .nil, rfl, [], (List.append_nil _).symm, .nil⟩
  | cons sr reqs ih =>
    obtain ⟨es, t', hrun, rfl, P, hP, hst⟩ := ih { t with sq := t.sq.postSend sr }
    have hpost := Machine.Run.single (M := lossless t₀) (show Step t (.post sr) _ from .post)
    refine ⟨_, _, hpost.append hrun, rfl, t.sq.stored sr :: P, ?_, .cons ⟨_, rfl⟩ hst⟩
    change _ = t.sq.log.posted ++ ([t.sq.stored sr] ++ P)
    rw [← List.append_assoc]
    exact hP

theorem exists_prefix (h : 2 ^ 32 ≤ payloadTotal reqs) :
    ∃ l, l <+: reqs ∧ 2 ^ 32 ≤ payloadTotal l ∧ payloadTotal l < 2 ^ 33 := by
  induction reqs using List.reverseRecOn with
  | nil => exact absurd h (by decide)
  | append_singleton l sr ih =>
    rcases Nat.lt_or_ge (payloadTotal l) (2 ^ 32) with hlt | hge
    · refine ⟨_, List.prefix_rfl, h, ?_⟩
      have hsz := sr.payloadSize.toNat_lt
      simp only [payloadTotal, List.map_append, List.map_cons, List.map_nil, List.sum_append,
        List.sum_cons, List.sum_nil] at hlt ⊢
      omega
    · obtain ⟨l', hl', hrest⟩ := ih hge
      exact ⟨l', hl'.trans (List.prefix_append ..), hrest⟩

/-- Long enough sequences of requests have a run that ends without the last acknowledgement. -/
theorem not_agrees {t₀ : LosslessPair} (h₀ : Fresh t₀) (h : 2 ^ 32 ≤ payloadTotal reqs) :
    ¬Agrees t₀ reqs := by
  intro hagree
  obtain ⟨l, hl, hge, hlt⟩ := exists_prefix h
  obtain ⟨es, t, hrun, rfl, P, hP, hst⟩ := postAll t₀ t₀ l
  have hfresh := h₀.pair
  rw [hfresh.sq.log] at hP
  change _ = P at hP
  have htot : totalBytes P = payloadTotal l := totalBytes_of_stored hst
  have hb : totalBytes P < 2 ^ 64 := by omega
  obtain ⟨hpo, -, -⟩ := RdmaReliableSQ.foldl_postSend_postsOnly t₀.sq l
  have hlive : (l.foldl RdmaReliableSQ.postSend t₀.sq).Live :=
    RdmaReliableSQ.queue_live
      (RdmaReliableSQ.Reachable.foldl_postSend (.init hfresh.sq) l) (by rw [hP]; exact hb)
  have hsync : Sync P 0 { t₀ with sq := l.foldl RdmaReliableSQ.postSend t₀.sq } := by
    refine ⟨hlive, hP, ?_, hfresh.backto0, ?_, ?_, hfresh.nextExpectedSeq, ?_, h₀.data,
      h₀.ackFifo⟩
    · rw [hpo]
      exact ⟨hfresh.conn.1, hfresh.conn.2, hfresh.conn.3, hfresh.conn.4⟩
    · rw [hpo]
      exact hfresh.sq.nxt
    · rw [hpo, hfresh.sq.una]
      decide
    · rw [hfresh.log]
      rfl
  obtain ⟨t', es', hrun', hend⟩ := hsync.all t₀ (Nat.zero_le _) hb
  obtain ⟨huna, -⟩ := hagree t' (Machine.Reachable.run (.run (.init rfl) hrun) hrun')
    ⟨l, hl, hend.posted ▸ hst⟩ (hend.sum.trans (by rw [hend.posted])) hend.ackFifo
  have hN := hend.live.laid.nextOp_eq
  have hlt32 := hend.una
  rw [hend.posted] at hN
  omega

/-- **Sender and receiver agree exactly below 2^32 bytes.** -/
theorem agrees_iff {t₀ : LosslessPair} (h₀ : Fresh t₀) (reqs : List SendRequest) :
    Agrees t₀ reqs ↔ payloadTotal reqs < 2 ^ 32 := by
  constructor
  · intro hagree
    rcases Nat.lt_or_ge (payloadTotal reqs) (2 ^ 32) with hlt | hge
    · exact hlt
    · exact absurd hagree (not_agrees h₀ hge)
  · intro hlt t ht hsub hall hnil
    exact (lossless_inv h₀ ht (Nat.lt_of_le_of_lt hsub.totalBytes_le hlt)).agrees hall hnil

/-- A new pair with an MTU of 1000 bytes. -/
def new1000 : LosslessPair := { sq := { mtu := 1000 }, rq := {} }

theorem new1000_fresh : Fresh new1000 := ⟨.new (by decide), rfl, rfl⟩

theorem agrees_3000 : Agrees new1000 [{ payloadSize := 3000 }] :=
  (agrees_iff new1000_fresh _).mpr (by decide)

theorem disagree_after_4GiB :
    ¬∀ t₀, Fresh t₀ → ∀ reqs : List SendRequest, Agrees t₀ reqs := by
  intro h
  refine not_agrees new1000_fresh ?_
    (h _ new1000_fresh [{ payloadSize := 4294967295 }, { payloadSize := 1 }])
  decide

end LosslessPair
end Roce
