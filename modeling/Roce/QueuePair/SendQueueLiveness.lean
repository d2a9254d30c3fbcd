import Roce.Lib.Machine
import Roce.QueuePair.SendQueueSpec

/-! # The sender never gets stuck

The send queue as a state machine of its own: the peer and the channel are replaced by ACKs
and NACKs of any value. Whatever they are, bytes that are not acknowledged are either waiting
to be sent or covered by the running retransmission timer, as long as PSNs do not wrap. -/

namespace Roce
namespace RdmaReliableSQ

/-- A queue as constructed and registered, before anything is posted. -/
structure Fresh (s : RdmaReliableSQ) : Prop where
  mtu_pos : 0 < s.mtu
  win : s.win = 0
  retrTo : s.retrTo = false
  highest : s.highestAckPsn = 0
  toSend : s.toSend = .empty
  nxt : s.sndNxt = 0
  una : s.sndUna = 0
  nextOp : s.nextOpFirstPsn = 0
  log : s.log = {}

/-- What can happen to a send queue. -/
inductive Event where
  | post (sr : SendRequest)
  | emit
  | ack (nextPsnExpected : Nat) (cb : Callbacks)
  | nack (nextPsnExpected : Nat) (cb : Callbacks)
  | timeout (cb : Callbacks)

/-- The steps of a send queue. Between two of them the loop of `NotifyPendingCompEvents` has
ended, after any number of turns. -/
inductive Step : RdmaReliableSQ → Event → RdmaReliableSQ → Prop
  | post : Step s (.post sr) (s.postSend sr)
  | emit : s.hasDataToSend → s.getNextPacket = some (p, s') → Step s .emit s'
  | ack : s.acknowledge cb fuel n = some s' → Step s (.ack n cb) s'
  | nack : s.recoverNack cb fuel n = some s' → Step s (.nack n cb) s'
  | timeout : s.retrTo → s.onRetrTimeout cb fuel = some s' → Step s (.timeout cb) s'

/-- The send queue on its own. -/
def queue : Machine RdmaReliableSQ Event := ⟨Fresh, Step⟩

theorem Step.posted (h : Step s e s') : s.log.posted <+: s'.log.posted := by
  cases h with
  | post => exact List.prefix_append ..
  | emit _ h => rw [getNextPacket_posted h]
  | ack h => exact acknowledge_posted h
  | nack h => exact recoverNack_posted h
  | timeout _ h =>
    have hpost := recoverNack_posted h
    exact hpost

/-- What holds between two steps. The last three fields are the reason why the queue cannot
get stuck: what is in flight was posted, an ACK that is awaited is guarded by the timer, and
when everything posted is in flight, an ACK of it is awaited. -/
structure Live (s : RdmaReliableSQ) : Prop where
  mtu_pos : 0 < s.mtu
  laid : Laid s
  una_le : s.sndUna ≤ s.sndNxt
  high_le : s.highestAckPsn ≤ s.sndNxt
  nxt_le : s.sndUna < s.sndNxt → s.sndNxt ≤ s.nextOpFirstPsn
  armed : s.sndUna < s.highestAckPsn → s.retrTo
  top : s.sndUna < s.sndNxt → s.sndNxt = s.nextOpFirstPsn → s.highestAckPsn = s.sndNxt

theorem Fresh.laid {s : RdmaReliableSQ} (h : Fresh s) : Laid s where
  tiles := by rw [h.log, h.nextOp]; rfl
  split := ⟨[], by rw [h.log, h.toSend]; rfl, by rw [h.log]; rfl, fun _ h => nomatch h⟩
  keyed := by rw [h.toSend]; exact fun _ h => nomatch h

theorem Fresh.live {s : RdmaReliableSQ} (h : Fresh s) : Live s where
  mtu_pos := h.mtu_pos
  laid := h.laid
  una_le := by rw [h.una]; exact Nat.zero_le _
  high_le := by rw [h.highest]; exact Nat.zero_le _
  nxt_le := by rw [h.nxt]; intro; exact Nat.zero_le _
  armed := by rw [h.highest]; intro hlt; omega
  top := by rw [h.highest, h.nxt]; intros; rfl

namespace Live

variable {s s' : RdmaReliableSQ}

theorem postSend (h : Live s) (hb : totalBytes (s.postSend sr).log.posted < 2 ^ 64) :
    Live (s.postSend sr) := by
  have hl := h.laid.postSend hb
  have hlt : s.nextOpFirstPsn < (s.postSend sr).nextOpFirstPsn := by
    rw [hl.nextOp_eq, h.laid.nextOp_eq, postSend_posted, totalBytes_append, totalBytes_singleton]
    exact Nat.lt_add_of_pos_right (s.stored_size_pos sr)
  refine ⟨h.mtu_pos, hl, h.una_le, h.high_le, fun hf => ?_, h.armed, fun hf heq => ?_⟩
  · exact Nat.le_trans (h.nxt_le hf) (Nat.le_of_lt hlt)
  · have h1 := h.nxt_le hf
    have h2 : s.sndNxt = (s.postSend sr).nextOpFirstPsn := heq
    omega

theorem getNextPacket (h : Live s) (hb : totalBytes s.log.posted < 2 ^ 64)
    (hd : s.hasDataToSend) (hp : s.getNextPacket = some (p, s')) : Live s' := by
  have hlt : s.sndNxt < s.nextOpFirstPsn := by
    simp only [hasDataToSend, Bool.and_eq_true, decide_eq_true_eq] at hd
    exact hd.1
  obtain ⟨r, hr, hfirst, hend, heq⟩ :=
    getNextPacket_eq h.laid hb h.mtu_pos h.una_le hlt h.high_le
  obtain ⟨rfl, rfl⟩ : p = _ ∧ s' = _ := by
    rw [heq, Option.some.injEq, Prod.mk.injEq] at hp
    exact ⟨hp.1.symm, hp.2.symm⟩
  generalize hsize : min s.mtu (r.endPsn - s.sndNxt) = size
  have hmtu := h.mtu_pos
  have hle := h.laid.endPsn_le (h.laid.mem_posted hr)
  have hun := h.una_le
  have hhi := h.high_le
  refine ⟨hmtu, ⟨h.laid.tiles, h.laid.split, h.laid.keyed⟩, ?_, ?_, fun _ => ?_, fun hf => ?_,
    fun _ htop => ?_⟩
  · change s.sndUna ≤ s.sndNxt + size
    omega
  · simp only [emitted]
    split <;> omega
  · change s.sndNxt + size ≤ s.nextOpFirstPsn
    omega
  · simp only [emitted] at hf ⊢
    split at hf
    next hreq => rw [hreq, Bool.true_or]
    next => rw [h.armed hf, Bool.or_true]
  · -- the packet ends at the last posted byte, so it ends its request and asks for an ACK
    change s.sndNxt + size = s.nextOpFirstPsn at htop
    have hge := h.laid.getEndPsn_eq hb (h.laid.mem_posted hr)
    have hN := h.laid.nextOp_eq
    have hlt : s.sndNxt + size < 2 ^ 64 := by omega
    have hlast : u64 (s.sndNxt + size) = r.getEndPsn := by
      rw [hge, u64_of_lt hlt]
      omega
    have hreq : (s.bthAt r s.sndNxt size).ackReq = true := by rw [bthAt, if_pos hlast]
    simp only [emitted, hreq, ↓reduceIte]

theorem acknowledge (h : Live s) (ha : s.acknowledge cb fuel n = some s')
    (hb : totalBytes s'.log.posted < 2 ^ 64) : Live s' := by
  have hl := (acknowledge_laid ha h.laid hb).1
  have heq := acknowledge_eq ha h.una_le
  have hmtu : s'.mtu = s.mtu := by rw [heq]
  have huna : s'.sndUna = max s.sndUna n := by rw [heq]
  have hnxt : s'.sndNxt = max s.sndNxt n := by rw [heq]
  have hhigh : s'.highestAckPsn = s.highestAckPsn := by rw [heq]
  have hto : s'.retrTo = decide (s.highestAckPsn > max s.sndUna n) := by rw [heq]
  have hnext : s.nextOpFirstPsn ≤ s'.nextOpFirstPsn := by
    rw [hl.nextOp_eq, h.laid.nextOp_eq]
    exact totalBytes_mono (acknowledge_posted ha)
  have hle := h.una_le
  have hhi := h.high_le
  have hN := h.nxt_le
  have htop := h.top
  refine ⟨hmtu ▸ h.mtu_pos, hl, ?_, ?_, fun hf => ?_, fun hf => ?_, fun hf heq' => ?_⟩
  · omega
  · omega
  · have := hN (by omega)
    omega
  · rw [hto, ← huna]
    exact decide_eq_true (hhigh ▸ hf)
  · have h1 := hN (by omega)
    have h2 := htop (by omega) (by omega)
    omega

theorem recoverNack (h : Live s) (ha : s.recoverNack cb fuel n = some s')
    (hb : totalBytes s'.log.posted < 2 ^ 64) : Live s' := by
  obtain ⟨t, ht, rfl⟩ := recoverNack_eq ha
  have hl := h.acknowledge ht hb
  exact ⟨hl.mtu_pos, ⟨hl.laid.tiles, hl.laid.split, hl.laid.keyed⟩, Nat.le_refl _, Nat.le_refl _,
    fun hf => absurd hf (Nat.lt_irrefl _), fun hf => absurd hf (Nat.lt_irrefl _), fun _ _ => rfl⟩

/-- A running timer that is stopped: everything but the guard of the awaited ACKs stays, and
`Acknowledge` sets this one up again. -/
theorem timeout (h : Live s) (ha : s.onRetrTimeout cb fuel = some s')
    (hb : totalBytes s'.log.posted < 2 ^ 64) : Live s' := by
  obtain ⟨t, ht, rfl⟩ := recoverNack_eq ha
  have hl := (acknowledge_laid ht ⟨h.laid.tiles, h.laid.split, h.laid.keyed⟩ hb).1
  have hmtu : t.mtu = s.mtu := by rw [acknowledge_eq ht h.una_le]
  exact ⟨hmtu ▸ h.mtu_pos, ⟨hl.tiles, hl.split, hl.keyed⟩, Nat.le_refl _, Nat.le_refl _,
    fun hf => absurd hf (Nat.lt_irrefl _), fun hf => absurd hf (Nat.lt_irrefl _), fun _ _ => rfl⟩

/-! ### The calls return -/

theorem getNextPacket_isSome (h : Live s) (hb : totalBytes s.log.posted < 2 ^ 64)
    (hd : s.hasDataToSend) : s.getNextPacket.isSome := by
  simp only [hasDataToSend, Bool.and_eq_true, decide_eq_true_eq] at hd
  obtain ⟨r, -, -, -, heq⟩ := getNextPacket_eq h.laid hb h.mtu_pos h.una_le hd.1 h.high_le
  rw [heq]
  rfl

theorem recoverNack_isSome (h : Live s) (ha : (s.acknowledge cb fuel n).isSome) :
    (s.recoverNack cb fuel n).isSome := by
  obtain ⟨t, ht⟩ := Option.isSome_iff_exists.mp ha
  have hassert := acknowledge_rollbackAssert ht h.una_le
  rw [RdmaReliableSQ.recoverNack, ht, Option.bind_eq_bind, Option.bind_some, rollback,
    if_pos hassert]
  rfl

/-- The timer acknowledges nothing new, so the loop over the completed requests is not entered. -/
theorem onRetrTimeout_isSome (h : Live s) (cb : Callbacks) (fuel : Nat) :
    (s.onRetrTimeout cb fuel).isSome := by
  have hle := h.una_le
  simp [RdmaReliableSQ.onRetrTimeout, RdmaReliableSQ.recoverNack, RdmaReliableSQ.acknowledge,
    rollback, RollbackAssert, scheduleRetrTimeout, hle]

/-- **The step lemma.** -/
theorem step (h : Live s) (hst : Step s e s') (hb : totalBytes s'.log.posted < 2 ^ 64) :
    Live s' := by
  cases hst with
  | post => exact h.postSend hb
  | emit hd hp => exact h.getNextPacket (by rwa [← getNextPacket_posted hp]) hd hp
  | ack ha => exact h.acknowledge ha hb
  | nack ha => exact h.recoverNack ha hb
  | timeout _ ha => exact h.timeout ha hb

end Live

/-- **The run lemma**: every reachable queue below the bound is live. -/
theorem queue_live (h : queue.Reachable s) (hb : totalBytes s.log.posted < 2 ^ 64) : Live s :=
  h.invariant_of_bound (B := fun s => totalBytes s.log.posted < 2 ^ 64) (I := Live)
    (fun h0 => Fresh.live h0)
    (fun hst hb => Nat.lt_of_le_of_lt (totalBytes_mono (Step.posted hst)) hb)
    (fun _ hl hst hb => hl.step hst hb) hb

/-- Posted bytes that are not acknowledged belong to a request of the map. -/
theorem Live.toSend_ne {s : RdmaReliableSQ} (h : Live s) (hlt : s.sndUna < s.nextOpFirstPsn) :
    s.toSend.isEmpty = false := by
  obtain ⟨r, hr, _⟩ := h.laid.exists_cover (Nat.le_refl _) hlt
  have hmem := h.laid.mem_entries hr
  unfold OrdMap.isEmpty
  cases hl : s.toSend.entries with
  | nil => rw [hl] at hmem; cases hmem
  | cons e l => rfl

/-- **The sender never gets stuck**: while fewer than 2^64 bytes were posted, a byte that is
not acknowledged is waiting to be sent or guarded by the retransmission timer, and an ACK that
is awaited is guarded by the timer. -/
theorem never_stuck (h : queue.Reachable s) (hb : totalBytes s.log.posted < 2 ^ 64) :
    (s.sndUna < s.nextOpFirstPsn → s.hasDataToSend ∨ s.retrTo) ∧
      (s.highestAckPsn > s.sndUna → s.retrTo) := by
  have hl := queue_live h hb
  refine ⟨fun hlt => ?_, hl.armed⟩
  rcases Nat.lt_or_ge s.sndNxt s.nextOpFirstPsn with hnxt | hnxt
  · left
    simp [hasDataToSend, hnxt, hl.toSend_ne hlt]
  · right
    have hle := hl.nxt_le (by omega)
    have htop := hl.top (by omega) (by omega)
    exact hl.armed (by omega)

theorem Fresh.new (h : 0 < mtu) : Fresh { mtu } :=
  ⟨h, rfl, rfl, rfl, rfl, rfl, rfl, rfl, rfl⟩

theorem Reachable.post (h : queue.Reachable s) (sr : SendRequest) :
    queue.Reachable (s.postSend sr) :=
  Machine.Reachable.step h (show Step s (.post sr) _ from .post)

theorem Reachable.emit (h : queue.Reachable s) (hd : s.hasDataToSend)
    (hp : s.getNextPacket = some (p, s')) : queue.Reachable s' :=
  Machine.Reachable.step h (show Step s .emit s' from .emit hd hp)

theorem never_stuck_3000 :
    let s := ({ mtu := 1000 } : RdmaReliableSQ).postSend { payloadSize := 3000 }
    (s.sndUna < s.nextOpFirstPsn → s.hasDataToSend ∨ s.retrTo) ∧
      (s.highestAckPsn > s.sndUna → s.retrTo) :=
  never_stuck (Reachable.post (.init (Fresh.new (by decide))) _) (by decide)

/-! ## Beyond the bound

After 2^64 bytes `m_next_op_first_psn` comes back below `m_snd_nxt`. Then unacknowledged bytes
are neither seen by `HasDataToSend` nor guarded by the timer. -/

/-- Posting `n` copies of a request moves `m_next_op_first_psn` by `n` times its size, modulo
2^64. -/
theorem foldl_replicate_nextOp (sr : SendRequest) (hsr : sr.payloadSize ≠ 0)
    (s : RdmaReliableSQ) : ∀ n, u64 (((List.replicate n sr).foldl postSend s).nextOpFirstPsn) =
      u64 (s.nextOpFirstPsn + n * sr.payloadSize.toNat)
  | 0 => by simp
  | n + 1 => by
    rw [List.replicate_succ, List.foldl_cons, foldl_replicate_nextOp sr hsr (s.postSend sr) n]
    simp only [postSend, stored, hsr, ↓reduceIte, u64, Nat.add_mul]
    omega

theorem Reachable.foldl_postSend (h : queue.Reachable s) (l : List SendRequest) :
    queue.Reachable (l.foldl RdmaReliableSQ.postSend s) := by
  induction l generalizing s with
  | nil => exact h
  | cons sr l ih => exact ih (Reachable.post h sr)

/-- One request and one packet of it: one byte of two is in flight, no ACK is awaited. -/
theorem exists_oneInFlight : ∃ s, queue.Reachable s ∧ s.nextOpFirstPsn = 2 ∧
    s.sndUna = 0 ∧ s.sndNxt = 1 ∧ s.retrTo = false := by
  let sr : SendRequest := { payloadSize := 2 }
  let s : RdmaReliableSQ := { mtu := 1 }
  have hl : Laid (s.postSend sr) := (Fresh.new Nat.one_pos).laid.postSend (by decide)
  obtain ⟨r, hr, _, _, hp⟩ := getNextPacket_eq hl (by decide) (by decide)
    (Nat.le_refl 0) (show 0 < 2 by decide) (Nat.le_refl 0)
  obtain rfl : r = s.stored sr := List.mem_singleton.mp hr
  exact ⟨_, Reachable.emit (Reachable.post (.init (Fresh.new Nat.one_pos)) sr) (by decide) hp,
    rfl, rfl, rfl, rfl⟩

/-- A queue after 2^64 + 1 bytes were posted: PSN 0 is not acknowledged, there is nothing to
send and the timer is off. -/
theorem stuck_after_wrap : ¬ ∀ s, queue.Reachable s →
    (s.sndUna < s.nextOpFirstPsn → s.hasDataToSend ∨ s.retrTo) ∧
      (s.highestAckPsn > s.sndUna → s.retrTo) := by
  intro h
  let sr : SendRequest := { payloadSize := 1 }
  obtain ⟨s, hs, hN, huna, hnxt, hto⟩ := exists_oneInFlight
  obtain ⟨t, ht, hnext, hpo⟩ : ∃ t, queue.Reachable t ∧ u64 t.nextOpFirstPsn = 0 ∧
      PostsOnly s t := by
    refine ⟨_, Reachable.foldl_postSend hs (List.replicate (2 ^ 64 - 2) sr), ?_,
      (foldl_postSend_postsOnly s _).1⟩
    have hsum := foldl_replicate_nextOp sr (by decide) s (2 ^ 64 - 2)
    rw [hN] at hsum
    exact hsum.trans (by decide)
  have hwrap : (t.postSend { payloadSize := 1 }).nextOpFirstPsn = 1 := by
    change u64 (t.nextOpFirstPsn + 1) = 1
    unfold u64 at hnext ⊢
    omega
  replace huna : t.sndUna = 0 := by rw [hpo]; exact huna
  replace hnxt : t.sndNxt = 1 := by rw [hpo]; exact hnxt
  replace hto : t.retrTo = false := by rw [hpo]; exact hto
  rcases (h _ (Reachable.post ht { payloadSize := 1 })).1
    (by rw [hwrap]; change t.sndUna < 1; omega)
    with hd | hr
  · rw [hasDataToSend, hwrap, Bool.and_eq_true, decide_eq_true_eq] at hd
    have hgt : t.sndNxt < 1 := hd.1
    omega
  · exact absurd (hto.symm.trans hr) (by decide)

end RdmaReliableSQ
end Roce
