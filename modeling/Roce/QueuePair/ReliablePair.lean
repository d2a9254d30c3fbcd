import Roce.QueuePair.ReliableRQ
import Roce.QueuePair.SendQueueLiveness

/-! # A reliable queue pair over an unreliable channel

One `RdmaReliableSQ` connected to one `RdmaReliableRQ`. The channel may lose, duplicate and
reorder: every packet and every ACK or NACK that was ever sent may be delivered at any time, any
number of times or never. The retransmission timer may fire whenever it runs, and requests may be
posted at any time.

The invariant is that `m_snd_una`, `m_snd_nxt`, `ReceiverNextExpectedSeq` and every PSN in an ACK
are packet boundaries (`Boundary`), so that packets are cut at the same places in every
retransmission, and that `m_snd_una ≤ ReceiverNextExpectedSeq ≤ m_next_op_first_psn`. -/

namespace Roce

/-- The two ends and the ACKs and NACKs that were sent; the data packets that were sent are in
the history of the send queue. -/
structure ReliablePair where
  sq : RdmaReliableSQ
  rq : RdmaReliableRQ
  acks : List AckPacket := []

/-- The receive queue belongs to the peer of the send queue. -/
structure Connected (sq : RdmaReliableSQ) (rq : RdmaReliableRQ) : Prop where
  localIp : rq.localIp = sq.dip
  localPort : rq.localPort = sq.dport
  destIp : rq.txDestIp = sq.sip
  destPort : rq.txDestPort = sq.sport

namespace ReliablePair

/-- A pair as set up by `RdmaHw::RegisterQP`. -/
structure Fresh (t : ReliablePair) : Prop where
  sq : t.sq.Fresh
  conn : Connected t.sq t.rq
  nextExpectedSeq : t.rq.nextExpectedSeq = 0
  backto0 : t.rq.backto0 = false
  log : t.rq.log = {}
  acks : t.acks = []

/-- What can happen to the pair. -/
inductive Event where
  | post (sr : SendRequest)
  | emit
  | data (p : Packet) (now ecnbits : Nat)
  | ack (a : AckPacket) (cb : Callbacks)
  | timeout (cb : Callbacks)

inductive Step : ReliablePair → Event → ReliablePair → Prop
  | post : Step t (.post sr) { t with sq := t.sq.postSend sr }
  | emit : t.sq.hasDataToSend → t.sq.getNextPacket = some (p, s) →
      Step t .emit { t with sq := s }
  | data : p ∈ t.sq.log.sent → t.rq.receiveUdp now ecnbits p = some (reply, r) →
      Step t (.data p now ecnbits) { t with rq := r, acks := t.acks ++ reply.toList }
  | ack : a ∈ t.acks → RdmaReliableRQ.receiveAck false cb fuel a t.sq = some s →
      Step t (.ack a cb) { t with sq := s }
  | timeout : t.sq.retrTo → t.sq.onRetrTimeout cb fuel = some s →
      Step t (.timeout cb) { t with sq := s }

/-- The pair over the unreliable channel. -/
def pair : Machine ReliablePair Event := ⟨Fresh, Step⟩

end ReliablePair

/-! ## Packet boundaries -/

/-- `x` is a place where the requests of `l` are cut into packets of `mtu` bytes. -/
def Boundary (mtu : Nat) (l : List SendRequest) (x : Nat) : Prop :=
  ∀ r ∈ l, r.firstPsn ≤ x → x < r.endPsn → mtu ∣ x - r.firstPsn

theorem Boundary.zero (l : List SendRequest) : Boundary mtu l 0 := by
  intro r _ _ _
  rw [Nat.zero_sub]
  exact Nat.dvd_zero mtu

theorem Boundary.max {l : List SendRequest} (hx : Boundary mtu l x) (hy : Boundary mtu l y) :
    Boundary mtu l (max x y) := by
  rcases Nat.le_total x y with hle | hle
  · rwa [Nat.max_eq_right hle]
  · rwa [Nat.max_eq_left hle]

/-- Requests that are posted later do not move the boundaries. -/
theorem Boundary.mono {l l' : List SendRequest} (h : Boundary mtu l x) (hp : l <+: l')
    (ht : Tiles SendRequest.firstPsn SendRequest.endPsn 0 l b) (hx : x ≤ b)
    (ht' : Tiles SendRequest.firstPsn SendRequest.endPsn 0 l' b') : Boundary mtu l' x := by
  obtain ⟨t, rfl⟩ := hp
  intro r hmem hlo hhi
  rcases List.mem_append.mp hmem with hm | hm
  · exact h r hm hlo hhi
  · have := ((ht.drop_prefix ht').mem_bounds hm).1
    rw [show x - r.firstPsn = 0 by omega]
    exact Nat.dvd_zero mtu

/-- `p` is the piece of at most `mtu` bytes that starts at a boundary inside `r`; the last piece
notifies, with the immediate value of `r`. -/
structure PieceOf (mtu : Nat) (r : SendRequest) (p : Packet) : Prop where
  first_le : r.firstPsn ≤ p.seqTs.seq
  lt_end : p.seqTs.seq < r.endPsn
  aligned : mtu ∣ p.seqTs.seq - r.firstPsn
  size_eq : p.size = min mtu (r.endPsn - p.seqTs.seq)
  notif : p.bth.notif = decide (p.seqTs.seq + p.size = r.endPsn)
  ackReq : p.bth.notif → p.bth.ackReq
  imm : p.bth.notif → p.bth.imm = r.imm

/-- The packet cut at `m_snd_nxt` is a piece of its request. -/
theorem RdmaReliableSQ.Live.pieceOf {s : RdmaReliableSQ} (h : s.Live)
    (hbd : Boundary s.mtu s.log.posted s.sndNxt) (hb : totalBytes s.log.posted < 2 ^ 32)
    (hr : r ∈ s.log.posted) (hlo : r.firstPsn ≤ s.sndNxt) (hhi : s.sndNxt < r.endPsn) :
    PieceOf s.mtu r (s.packetAt r (min s.mtu (r.endPsn - s.sndNxt))) := by
  have hN := h.laid.nextOp_eq
  have hend := h.laid.endPsn_le hr
  have hseq : u32 s.sndNxt = s.sndNxt := u32_of_lt (by omega)
  have hge := h.laid.getEndPsn_eq (Nat.lt_trans hb (by decide)) hr
  have hpsn : u64 (s.sndNxt + min s.mtu (r.endPsn - s.sndNxt)) =
      s.sndNxt + min s.mtu (r.endPsn - s.sndNxt) := u64_of_lt (by omega)
  have halign := hbd r hr hlo hhi
  constructor
  case first_le => simpa only [RdmaReliableSQ.packetAt, hseq]
  case lt_end => simpa only [RdmaReliableSQ.packetAt, hseq]
  case aligned => simpa only [RdmaReliableSQ.packetAt, hseq]
  case size_eq => simp only [RdmaReliableSQ.packetAt, hseq]
  all_goals
    simp only [RdmaReliableSQ.packetAt, hseq, RdmaReliableSQ.bthAt, hpsn, hge]
    split <;> simp_all

/-- The end of a piece is a boundary. -/
theorem PieceOf.boundary {l : List SendRequest} (h : PieceOf mtu r p)
    (ht : Tiles SendRequest.firstPsn SendRequest.endPsn 0 l b) (hr : r ∈ l) :
    Boundary mtu l (p.seqTs.seq + p.size) := by
  have hsz := h.size_eq
  have hlo := h.first_le
  have hhi := h.lt_end
  intro r' hr' hlo' hhi'
  rcases Nat.lt_or_ge (p.seqTs.seq + p.size) r.endPsn with hin | hend
  · -- the next piece is inside the same request
    obtain rfl := ht.cover_unique hr' hr ⟨hlo', hhi'⟩ ⟨by omega, hin⟩
    have hmtu : p.size = mtu := by omega
    rw [hmtu, show p.seqTs.seq + mtu - r'.firstPsn = p.seqTs.seq - r'.firstPsn + mtu by omega]
    exact Nat.dvd_add h.aligned (Nat.dvd_refl mtu)
  · -- the next piece is the first one of the next request
    rcases Nat.lt_or_ge r'.firstPsn (p.seqTs.seq + p.size) with hlt | hge
    · obtain rfl := ht.cover_unique (p := p.seqTs.seq + p.size - 1) hr' hr
        ⟨by omega, by omega⟩ ⟨by omega, by omega⟩
      omega
    · rw [show p.seqTs.seq + p.size - r'.firstPsn = 0 by omega]
      exact Nat.dvd_zero mtu

end Roce
