import Roce.Host.Nic
import Roce.Lib.RoundRobin

/-! # The clean-up of finished queue pairs

`GetNextQindex` looks for the next queue pair that may send, and removes finished ones on the way.
The queue pairs are those of any kind; what the functions ask them is a parameter. -/

namespace Roce

/-- What `GetNextQindex` asks a queue pair. -/
structure TxQuery (α : Type u) where
  getPg : α → Nat
  isReadyToSend : α → Bool
  isFinished : α → Bool

/-- `RdmaEgressQueue`, with the queue pairs of its `RdmaTxQueuePairGroup`. -/
structure RdmaEgressQueue (α : Type u) (β : Type v) where
  ackQ : List β := []
  qpGrp : List α := []
  rrlast : Nat := 0
  qlast : Int := 0

/-- The loop of `RemoveFinished`: the queue pairs, `nxt` and `res`. -/
structure Removal (α : Type u) where
  qps : List α
  nxt : Nat
  res : Int

namespace TxQuery

variable {α : Type u} (ask : TxQuery α)

/-- One turn of the loop of `RemoveFinished`. -/
def removeStep (st : Removal α) (i : Nat) : Removal α :=
  match st.qps[i]? with
  | none => st
  | some qp =>
    if ask.isFinished qp then st
    else ⟨st.qps.set st.nxt qp, st.nxt + 1, if (i : Int) = st.res then st.nxt else st.res⟩

/-- `RemoveFinished`; nothing for a range that is not in the vector. -/
def removeFinished (begin last res : Int) (qps : List α) : Option (Int × List α) :=
  if begin < 0 ∨ qps.length < last then none
  else
    let st := (List.range' begin.toNat (last - begin).toNat).foldl ask.removeStep
      ⟨qps, begin.toNat, res⟩
    some (st.res, st.qps.take st.nxt)

def maySend (paused : Nat → Bool) (qp : α) : Bool :=
  !paused (ask.getPg qp) && ask.isReadyToSend qp

end TxQuery

namespace RdmaEgressQueue

variable {α : Type u} {β : Type v} (ask : TxQuery α) (eq : RdmaEgressQueue α β)

/-- The loop of `GetNextQindex`: `res` and `min_finish_id`. -/
def scan (paused : Nat → Bool) : List Nat → Nat → Int × Nat
  | [], minFinishId => (-1024, minFinishId)
  | qIndex :: qIndices, minFinishId =>
    let idx := u32 (qIndex + eq.rrlast) % u32 eq.qpGrp.length
    match eq.qpGrp[idx]? with
    | none => (-1024, minFinishId)
    | some qp =>
      if ask.maySend paused qp then (i32 idx, minFinishId)
      else scan paused qIndices (if ask.isFinished qp then min idx minFinishId else minFinishId)

/-- `GetNextQindex`: the index, and the queue pairs that are left. -/
def getNextQindex (paused : Nat → Bool) (ackQIdx : Nat) : Option (Int × List α) :=
  if !paused ackQIdx && !eq.ackQ.isEmpty then some (-1, eq.qpGrp)
  else
    let fcount := u32 eq.qpGrp.length
    let (res, minFinishId) := eq.scan ask paused (List.range' 1 fcount) 0xffffffff
    if minFinishId < 0xffffffff then
      ask.removeFinished (i32 minFinishId) (i32 fcount) res eq.qpGrp
    else some (res, eq.qpGrp)

/-- `DequeueQindex`, where `m_rdmaGetNxtPkt` takes the next packet of a queue pair. -/
def dequeueQindex (rdmaGetNxtPkt : α → β × α) (qIndex : Int) : Option β × RdmaEgressQueue α β :=
  if qIndex = -1 then (eq.ackQ.head?, { eq with ackQ := eq.ackQ.tail, qlast := -1 })
  else if 0 ≤ qIndex then
    match eq.qpGrp[qIndex.toNat]? with
    | none => (none, eq)
    | some qp =>
      let (p, qp) := rdmaGetNxtPkt qp
      (some p, { eq with
        qpGrp := eq.qpGrp.set qIndex.toNat qp, rrlast := qIndex.toNat, qlast := qIndex })
  else (none, eq)

/-- What `GetNextQindex` has to do: the index is the one of the first queue pair after the last one
that may send, from which `DequeueQindex` then takes a packet, and only finished queue pairs are
removed. -/
structure Picks (paused : Nat → Bool) (ackQIdx : Nat) (res : Int) (qps : List α) : Prop where
  first : 0 ≤ res → ∃ idx qp, eq.qpGrp[idx]? = some qp ∧
    RoundRobin.FirstAfter (fun i => eq.qpGrp[i]?.any (ask.maySend paused)) eq.qpGrp.length eq.rrlast
      idx ∧
    qps[res.toNat]? = some qp ∧
    ∀ rdmaGetNxtPkt : α → β × α,
      ({ eq with qpGrp := qps }.dequeueQindex rdmaGetNxtPkt res).1 = some (rdmaGetNxtPkt qp).1
  nothing : res = -1024 ↔ (∀ qp ∈ eq.qpGrp, ask.maySend paused qp = false) ∧
    (eq.ackQ = [] ∨ paused ackQIdx = true)
  sublist : qps.Sublist eq.qpGrp
  keeps : qps.filter (!ask.isFinished ·) = eq.qpGrp.filter (!ask.isFinished ·)

/-- `GetNextQindex` does what it has to. -/
def PicksFirst (paused : Nat → Bool) (ackQIdx : Nat) : Prop :=
  ∃ res qps, eq.getNextQindex ask paused ackQIdx = some (res, qps) ∧
    eq.Picks ask paused ackQIdx res qps

end RdmaEgressQueue

/-! ## `RemoveFinished` -/

namespace TxQuery

variable {α : Type u} {ask : TxQuery α} {qps : List α} {st : Removal α}

/-- The first `n` turns from `begin`: those that are kept are at the front, and `res` is the new
place of a queue pair that is kept. -/
structure Removed (ask : TxQuery α) (qps : List α) (begin n : Nat) (res : Int) (st : Removal α) :
    Prop where
  nxt_le : st.nxt ≤ begin + n
  length : st.qps.length = qps.length
  front : st.qps.take st.nxt =
    qps.take begin ++ ((qps.drop begin).take n).filter (!ask.isFinished ·)
  rest : ∀ i, begin + n ≤ i → st.qps[i]? = qps[i]?
  res_eq : (∀ k : Nat, begin ≤ k → k < begin + n → res ≠ k) → st.res = res
  moved : ∀ k : Nat, res = k → begin ≤ k → k < begin + n → ∀ qp, qps[k]? = some qp →
    ask.isFinished qp = false → ∃ k' : Nat, st.res = k' ∧ k' < st.nxt ∧ st.qps[k']? = some qp

theorem Removed.init (qps : List α) (begin : Nat) (res : Int) :
    Removed ask qps begin 0 res ⟨qps, begin, res⟩ where
  nxt_le := Nat.le_refl _
  length := rfl
  front := by simp
  rest _ _ := rfl
  res_eq _ := rfl
  moved k _ hk hlt := absurd hlt (Nat.not_lt.mpr hk)

theorem Removed.step (h : Removed ask qps begin n res st) (hn : begin + n < qps.length) :
    Removed ask qps begin (n + 1) res (ask.removeStep st (begin + n)) := by
  have hqp : qps[begin + n]? = some qps[begin + n] := List.getElem?_eq_getElem hn
  have hst : st.qps[begin + n]? = some qps[begin + n] := (h.rest _ (Nat.le_refl _)).trans hqp
  have htake : (qps.drop begin).take (n + 1) = (qps.drop begin).take n ++ [qps[begin + n]] := by
    rw [List.take_add_one, List.getElem?_drop, hqp]
    rfl
  have hnxt := h.nxt_le
  unfold removeStep
  simp only [hst]
  split
  next hfin =>
    constructor
    case nxt_le => exact Nat.le_succ_of_le hnxt
    case length => exact h.length
    case front => rw [htake, List.filter_append, h.front, List.filter_singleton, hfin]; simp
    case rest => exact fun i hi => h.rest i (by omega)
    case res_eq => exact fun hres => h.res_eq fun k hk hlt => hres k hk (by omega)
    case moved =>
      intro k hres hk hlt qp hget hkeep
      rcases (show k < begin + n ∨ k = begin + n by omega) with hlt | rfl
      · exact h.moved k hres hk hlt qp hget hkeep
      · rw [hqp, Option.some.injEq] at hget
        rw [← hget, hfin] at hkeep
        cases hkeep
  next hfin =>
    have hlen := h.length
    constructor
    case nxt_le => exact Nat.succ_le_succ hnxt
    case length => simpa using hlen
    case front =>
      rw [htake, List.filter_append, ← List.append_assoc, ← h.front, List.filter_singleton]
      rw [List.take_add_one, List.take_set_of_le (Nat.le_refl _),
        List.getElem?_set_self (by omega)]
      simp [hfin]
    case rest =>
      intro i hi
      rw [List.getElem?_set_ne (by omega)]
      exact h.rest i (by omega)
    case res_eq =>
      intro hres
      have hsame := h.res_eq fun k hk hlt => hres k hk (by omega)
      have hne := hres (begin + n) (by omega) (by omega)
      simp only [hsame]
      exact if_neg hne.symm
    case moved =>
      intro k hres hk hlt qp hget hkeep
      rcases (show k < begin + n ∨ k = begin + n by omega) with hlt | rfl
      · -- what was moved already is before the place that is written
        obtain ⟨k', hk', hlt', hmoved⟩ := h.moved k hres hk hlt qp hget hkeep
        refine ⟨k', ?_, Nat.lt_succ_of_lt hlt', ?_⟩
        · simp only [hk']
          exact if_neg (by omega)
        · rw [List.getElem?_set_ne (by omega)]
          exact hmoved
      · have hsame := h.res_eq fun j _ hlt => by omega
        refine ⟨st.nxt, ?_, Nat.lt_succ_self _, ?_⟩
        · simp only [hsame]
          exact if_pos hres.symm
        · rw [List.getElem?_set_self (by omega), ← hget, hqp]

theorem removed_range (hn : begin + n ≤ qps.length) (res : Int) :
    Removed ask qps begin n res ((List.range' begin n).foldl ask.removeStep ⟨qps, begin, res⟩) := by
  induction n with
  | zero => exact .init qps begin res
  | succ n ih =>
    rw [List.range'_1_concat, List.foldl_append]
    exact (ih (by omega)).step hn

/-- **`RemoveFinished`** from a queue pair to the end: only finished ones are removed, the others
keep their order, and `res` is the new index of a queue pair that is kept. -/
theorem removeFinished_spec (hb : begin ≤ qps.length) (res : Int) :
    ∃ res', ask.removeFinished begin qps.length res qps =
        some (res', qps.take begin ++ (qps.drop begin).filter (!ask.isFinished ·)) ∧
      (res < 0 → res' = res) ∧
      ∀ k : Nat, res = k → ∀ qp, qps[k]? = some qp → ask.isFinished qp = false →
        ∃ k' : Nat, res' = k' ∧
          (qps.take begin ++ (qps.drop begin).filter (!ask.isFinished ·))[k']? = some qp := by
  have hlen : begin + (qps.length - begin) = qps.length := Nat.add_sub_of_le hb
  have hremoved : Removed ask qps begin (qps.length - begin) res _ :=
    removed_range (Nat.le_of_eq hlen) res
  have hcount : ((qps.length : Int) - begin).toNat = qps.length - begin := by omega
  have hfront := hremoved.front
  rw [List.take_of_length_le (l := qps.drop begin) (by rw [List.length_drop])] at hfront
  refine ⟨_, ?_, fun hneg => hremoved.res_eq fun k _ _ => by omega, ?_⟩
  · rw [removeFinished, if_neg (by omega)]
    simp only [Int.toNat_natCast, hcount]
    rw [hfront]
  · intro k hres qp hget hkeep
    rw [← hfront]
    have hk := (List.getElem?_eq_some_iff.mp hget).1
    rcases Nat.lt_or_ge k begin with hlt | hge
    · refine ⟨k, (hremoved.res_eq fun j hj _ => by omega).trans hres, ?_⟩
      rw [hfront, List.getElem?_append_left (by rw [List.length_take]; omega),
        List.getElem?_take_of_lt hlt, hget]
    · obtain ⟨k', hk', hlt, hmoved⟩ := hremoved.moved k hres hge (by omega) qp hget hkeep
      exact ⟨k', hk', by rw [List.getElem?_take_of_lt hlt, hmoved]⟩

theorem removeFinished_neg (hlast : last < 0) :
    ask.removeFinished 0 last res qps = some (res, []) := by
  have hcount : (last - 0).toNat = 0 := by omega
  rw [removeFinished, if_neg (by omega)]
  simp only [hcount]
  rfl

end TxQuery

/-! ## `GetNextQindex` -/

namespace RdmaEgressQueue

variable {α : Type u} {β : Type v} {ask : TxQuery α} {eq : RdmaEgressQueue α β}
  {paused : Nat → Bool}

/-- The scan finds the first queue pair that may send, as long as no sum wraps. -/
theorem scan_fst (ask : TxQuery α) (eq : RdmaEgressQueue α β) (paused : Nat → Bool)
    (hlen : eq.qpGrp.length < 2 ^ 31)
    (hl : ∀ qIndex ∈ l, 0 < eq.qpGrp.length ∧ qIndex + eq.rrlast < 2 ^ 32) (minFinishId : Nat) :
    (eq.scan ask paused l minFinishId).1 =
      match (l.map fun qIndex => (qIndex + eq.rrlast) % eq.qpGrp.length).find?
        (fun i => eq.qpGrp[i]?.any (ask.maySend paused)) with
      | some idx => (idx : Int)
      | none => -1024 := by
  induction l generalizing minFinishId with
  | nil => rfl
  | cons qIndex l ih =>
    obtain ⟨hpos, hsum⟩ := hl qIndex List.mem_cons_self
    have hidx : u32 (qIndex + eq.rrlast) % u32 eq.qpGrp.length =
        (qIndex + eq.rrlast) % eq.qpGrp.length := by
      rw [u32_of_lt hsum, u32_of_lt (by omega)]
    have hlt := Nat.mod_lt (qIndex + eq.rrlast) hpos
    rw [scan, hidx, List.map_cons, List.find?_cons]
    simp only [List.getElem?_eq_getElem hlt, Option.any_some]
    cases hmay : ask.maySend paused eq.qpGrp[(qIndex + eq.rrlast) % eq.qpGrp.length]
    · simpa using ih (fun q hq => hl q (List.mem_cons_of_mem _ hq)) _
    · simp [i32_of_lt (hlt.trans hlen)]

theorem scan_snd (ask : TxQuery α) (eq : RdmaEgressQueue α β) (paused : Nat → Bool)
    (hl : ∀ qIndex ∈ l, 0 < u32 eq.qpGrp.length) (minFinishId : Nat) :
    (eq.scan ask paused l minFinishId).2 = minFinishId ∨
      (eq.scan ask paused l minFinishId).2 < eq.qpGrp.length := by
  induction l generalizing minFinishId with
  | nil => exact .inl rfl
  | cons qIndex l ih =>
    have hlt := Nat.mod_lt (u32 (qIndex + eq.rrlast)) (hl qIndex List.mem_cons_self)
    have hle := u32_le eq.qpGrp.length
    have hrest := fun m => ih (fun q hq => hl q (List.mem_cons_of_mem _ hq)) m
    rw [scan]
    split
    next => exact .inl rfl
    next =>
      split
      next => exact .inl rfl
      next =>
        split
        next =>
          refine (hrest _).elim (fun heq => ?_) .inr
          rw [heq]
          omega
        next => exact hrest _

/-- What the clean-up does to the queue pairs and to the index of one that is not finished. -/
structure Cleaned (ask : TxQuery α) (qpGrp : List α) (res res' : Int) (qps : List α) : Prop where
  sublist : qps.Sublist qpGrp
  keeps : qps.filter (!ask.isFinished ·) = qpGrp.filter (!ask.isFinished ·)
  negative : res < 0 → res' = res
  index : ∀ k : Nat, res = k → ∀ qp, qpGrp[k]? = some qp → ask.isFinished qp = false →
    ∃ k' : Nat, res' = k' ∧ qps[k']? = some qp

theorem Cleaned.refl (qpGrp : List α) (res : Int) : Cleaned ask qpGrp res res qpGrp where
  sublist := List.Sublist.refl _
  keeps := rfl
  negative _ := rfl
  index k hres _ hget _ := ⟨k, hres, hget⟩

theorem Cleaned.of_removeFinished {qpGrp : List α} (hb : begin ≤ qpGrp.length) (res : Int) :
    ∃ res' qps, ask.removeFinished begin qpGrp.length res qpGrp = some (res', qps) ∧
      Cleaned ask qpGrp res res' qps := by
  obtain ⟨res', hremove, hneg, hindex⟩ := ask.removeFinished_spec hb res
  refine ⟨res', _, hremove, ?_, ?_, hneg, hindex⟩
  · have hsub : (qpGrp.take begin ++ (qpGrp.drop begin).filter (!ask.isFinished ·)).Sublist
        (qpGrp.take begin ++ qpGrp.drop begin) := List.filter_sublist.append_left _
    rwa [List.take_append_drop] at hsub
  · rw [List.filter_append, List.filter_filter]
    simp only [Bool.and_self]
    rw [← List.filter_append, List.take_append_drop]

theorem getNextQindex_cleaned (ask : TxQuery α) (hlen : eq.qpGrp.length < 2 ^ 31)
    (hack : (!paused ackQIdx && !eq.ackQ.isEmpty) = false) :
    ∃ res qps, eq.getNextQindex ask paused ackQIdx = some (res, qps) ∧
      Cleaned ask eq.qpGrp
        (eq.scan ask paused (List.range' 1 eq.qpGrp.length) 0xffffffff).1 res qps := by
  have hfcount : u32 eq.qpGrp.length = eq.qpGrp.length := u32_of_lt (by omega)
  have hmin := scan_snd ask eq paused (l := List.range' 1 eq.qpGrp.length) (fun q hq => by
    have := List.mem_range'_1.mp hq
    omega) 0xffffffff
  rw [getNextQindex, hack, hfcount]
  simp only [Bool.false_eq_true, if_false]
  split
  next hlt =>
    have hb := hmin.resolve_left hlt.ne
    rw [i32_of_lt (hb.trans hlen), i32_of_lt hlen]
    exact Cleaned.of_removeFinished hb.le _
  next => exact ⟨_, _, rfl, .refl _ _⟩

/-- **`GetNextQindex` finds the first queue pair that may send**, and its index after the clean-up,
as long as the indices fit their types. -/
theorem picksFirst (hfin : ∀ qp ∈ eq.qpGrp, ask.isFinished qp = true → ask.isReadyToSend qp = false)
    (hlen : eq.qpGrp.length < 2 ^ 31) (hsum : eq.rrlast + eq.qpGrp.length < 2 ^ 32) :
    eq.PicksFirst ask paused ackQIdx := by
  cases hack : !paused ackQIdx && !eq.ackQ.isEmpty
  case true =>
    refine ⟨-1, eq.qpGrp, by rw [getNextQindex, hack]; rfl, ?_⟩
    simp only [Bool.and_eq_true, Bool.not_eq_true'] at hack
    refine ⟨fun h => absurd h (by decide), ?_, List.Sublist.refl _, rfl⟩
    simp [hack.1, List.isEmpty_eq_false_iff.mp hack.2]
  case false =>
    obtain ⟨res, qps, hnext, hclean⟩ := getNextQindex_cleaned ask hlen hack
    refine ⟨res, qps, hnext, ?_⟩
    have hscan := scan_fst ask eq paused (l := List.range' 1 eq.qpGrp.length) hlen (fun q hq => by
      have := List.mem_range'_1.mp hq
      omega) 0xffffffff
    have hmay : ∀ {qp}, ask.maySend paused qp = true → ask.isReadyToSend qp = true := fun h =>
      (Bool.and_eq_true_iff.mp h).2
    split at hscan
    next idx hfind =>
      obtain ⟨qp, hget, hsend⟩ : ∃ qp, eq.qpGrp[idx]? = some qp ∧ ask.maySend paused qp = true := by
        simpa [Option.any_eq_true] using List.find?_some hfind
      have hmem := List.mem_of_getElem? hget
      have hkeep : ask.isFinished qp = false := by
        by_contra hfinished
        have hready := hfin qp hmem (by simpa using hfinished)
        rw [hmay hsend] at hready
        cases hready
      obtain ⟨k, rfl, hk⟩ := hclean.index idx hscan qp hget hkeep
      refine ⟨fun _ => ⟨idx, qp, hget, RoundRobin.firstAfter_of_find hfind, hk, fun next => ?_⟩, ?_,
        hclean.sublist, hclean.keeps⟩
      · rw [dequeueQindex, if_neg (by omega), if_pos (by omega)]
        simp only [Int.toNat_natCast, hk]
      · refine ⟨fun h => by omega, fun h => ?_⟩
        rw [h.1 qp hmem] at hsend
        cases hsend
    next hfind =>
      have hres := hclean.negative (by rw [hscan]; decide)
      rw [hscan] at hres
      subst hres
      refine ⟨fun h => absurd h (by decide), ⟨fun _ => ⟨fun qp hqp => ?_, ?_⟩, fun _ => rfl⟩,
        hclean.sublist, hclean.keeps⟩
      · obtain ⟨i, hi, rfl⟩ := List.mem_iff_getElem.mp hqp
        simpa [List.getElem?_eq_getElem hi] using RoundRobin.eq_false_of_find hfind hi
      · rw [Bool.and_eq_false_iff] at hack
        rcases hack with hpaused | hempty
        · exact .inr (by simpa using hpaused)
        · exact .inl (by simpa using hempty)

/-- `min_finish_id` does not grow. -/
theorem scan_snd_le (minFinishId : Nat) : (eq.scan ask paused l minFinishId).2 ≤ minFinishId := by
  induction l generalizing minFinishId with
  | nil => exact Nat.le_refl _
  | cons qIndex l ih =>
    rw [scan]
    split
    next => exact Nat.le_refl _
    next =>
      split
      next => exact Nat.le_refl _
      next =>
        refine (ih _).trans ?_
        split
        next => exact Nat.min_le_right ..
        next => exact Nat.le_refl _

/-- Without finished queue pairs, nothing is noted. -/
theorem scan_snd_of_none (ask : TxQuery α) (eq : RdmaEgressQueue α β) (paused : Nat → Bool)
    (hnone : ∀ qp ∈ eq.qpGrp, ask.isFinished qp = false) (minFinishId : Nat) :
    (eq.scan ask paused l minFinishId).2 = minFinishId := by
  induction l generalizing minFinishId with
  | nil => rfl
  | cons qIndex l ih =>
    rw [scan]
    split
    next => rfl
    next qp hget =>
      split
      next => rfl
      next => rw [hnone qp (List.mem_of_getElem? hget), if_neg Bool.false_ne_true, ih]

end RdmaEgressQueue

/-! ## A card whose queue pairs are not finished -/

/-- The index that `GetNextQindex` returns. -/
def QIndex.toInt : Option QIndex → Int
  | none => -1024
  | some .highPrio => -1
  | some (.qp idx) => idx

namespace Nic

variable (nic : Nic)

def txQuery (now : Nat) : TxQuery SendQueue :=
  ⟨SendQueue.getPg, SendQueue.isReadyToSend now, fun _ => false⟩

def egressQueue : RdmaEgressQueue SendQueue AckPacket :=
  { ackQ := nic.ackQ, qpGrp := nic.qpGrp, rrlast := nic.rrlast }

/-- Where no queue pair is ever finished, there is no clean-up. -/
theorem getNextQindex_egressQueue (hlen : nic.qpGrp.length < 2 ^ 31)
    (hsum : nic.rrlast + nic.qpGrp.length < 2 ^ 32) (ackQIdx : Priority) :
    nic.egressQueue.getNextQindex (txQuery now) nic.isPaused ackQIdx =
      some (QIndex.toInt (nic.getNextQindex ackQIdx now), nic.qpGrp) := by
  have hpaused : nic.isPaused ackQIdx = nic.paused ackQIdx := dif_pos ackQIdx.isLt
  have hfcount : u32 nic.qpGrp.length = nic.qpGrp.length := u32_of_lt (by omega)
  have hsums : ∀ qIndex ∈ List.range' 1 nic.qpGrp.length,
      0 < nic.egressQueue.qpGrp.length ∧ qIndex + nic.egressQueue.rrlast < 2 ^ 32 := by
    intro qIndex hq
    have := List.mem_range'_1.mp hq
    simp only [egressQueue]
    omega
  have hscan := nic.egressQueue.scan_fst (txQuery now) nic.isPaused hlen hsums 0xffffffff
  have hmin := nic.egressQueue.scan_snd_of_none (txQuery now) nic.isPaused
    (l := List.range' 1 nic.qpGrp.length) (fun _ _ => rfl) 0xffffffff
  have hmay : (txQuery now).maySend nic.isPaused = nic.maySend now := rfl
  rw [RdmaEgressQueue.getNextQindex, Nic.getNextQindex, hpaused]
  simp only [egressQueue, hfcount, hmay] at hscan hmin ⊢
  split
  next => rfl
  next =>
    rw [hmin, if_neg (Nat.lt_irrefl _), hscan]
    cases List.find? _ _ <;> rfl

end Nic

/-! ## Where the indices do not fit -/

/-- A queue pair, by its flags. -/
structure TxFlags where
  pg : Nat := 3
  ready : Bool := false
  finished : Bool := false
  deriving DecidableEq, Repr

def TxFlags.query : TxQuery TxFlags := ⟨pg, ready, finished⟩

namespace RdmaEgressQueue

/-- The queue pair that may send is the last of three, and the first is finished. -/
theorem picksFirst_cleaned :
    ((∀ qp ∈ [({ finished := true } : TxFlags), {}, { ready := true }],
        TxFlags.query.isFinished qp = true → TxFlags.query.isReadyToSend qp = false) ∧
      3 < 2 ^ 31 ∧ 5 + 3 < 2 ^ 32) ∧
    ({ qpGrp := [{ finished := true }, {}, { ready := true }], rrlast := 5 } :
      RdmaEgressQueue TxFlags Unit).PicksFirst TxFlags.query (fun _ => false) 3 := by
  have hfin : ∀ qp ∈ [({ finished := true } : TxFlags), {}, { ready := true }],
      TxFlags.query.isFinished qp = true → TxFlags.query.isReadyToSend qp = false := by decide
  exact ⟨⟨hfin, by decide, by decide⟩, picksFirst hfin (by decide) (by decide)⟩

/-- From `2 ^ 31` queue pairs on, the end of the clean-up is negative, and what is not finished is
removed as well. -/
theorem not_picksFirst_many (hn : 2 ^ 31 ≤ n) (hlt : n + 1 < 2 ^ 32) :
    ¬({ qpGrp := { finished := true } :: List.replicate n {}, rrlast := n } :
      RdmaEgressQueue TxFlags Unit).PicksFirst TxFlags.query (fun _ => false) 3 := by
  rintro ⟨res, qps, hnext, hpicks⟩
  have hlen : u32 (({ finished := true } : TxFlags) :: List.replicate n {}).length = n + 1 := by
    rw [List.length_cons, List.length_replicate, u32_of_lt hlt]
  have hfirst : u32 (1 + n) % (n + 1) = 0 := by
    rw [u32_of_lt (by omega), Nat.add_comm 1 n, Nat.mod_self]
  have hmin : (scan TxFlags.query
      { qpGrp := { finished := true } :: List.replicate n {}
        rrlast := n
        ackQ := ([] : List Unit) }
      (fun _ => false) (List.range' 1 (n + 1)) 0xffffffff).2 = 0 := by
    rw [List.range'_succ]
    simp only [scan, hlen, hfirst]
    exact Nat.le_zero.mp (scan_snd_le 0)
  have hlast : i32 (n + 1) < 0 := by
    unfold i32 u32
    omega
  rw [getNextQindex] at hnext
  simp only [hlen, hmin] at hnext
  have hempty := Option.some.inj (hnext.symm.trans (TxQuery.removeFinished_neg hlast))
  have hkeeps := hpicks.keeps
  rw [(Prod.mk.inj hempty).2] at hkeeps
  have hmem : ({} : TxFlags) ∈ (({ finished := true } : TxFlags) :: List.replicate n {}).filter
      (!TxFlags.query.isFinished ·) :=
    List.mem_filter.mpr ⟨List.mem_cons_of_mem _ (List.mem_replicate.mpr ⟨by omega, rfl⟩), rfl⟩
  rw [← hkeeps] at hmem
  cases hmem

/-- The sum of an index and `m_rrlast` wraps, so that the last queue pair is not looked at. -/
theorem not_picksFirst :
    ¬({ qpGrp := [{}, {}, { ready := true }], rrlast := 2 ^ 32 - 2 } :
      RdmaEgressQueue TxFlags Unit).PicksFirst TxFlags.query (fun _ => false) 3 ∧
    ¬({ qpGrp := { finished := true } :: List.replicate (2 ^ 31) {}, rrlast := 2 ^ 31 } :
      RdmaEgressQueue TxFlags Unit).PicksFirst TxFlags.query (fun _ => false) 3 := by
  refine ⟨?_, not_picksFirst_many (by decide) (by decide)⟩
  rintro ⟨res, qps, hnext, hpicks⟩
  have hnone : some (res, qps) = some (-1024, [{}, {}, { ready := true }]) :=
    hnext.symm.trans (by decide)
  have hres := congrArg Prod.fst (Option.some.inj hnone)
  exact absurd ((hpicks.nothing.mp hres).1 { ready := true } (by simp)) (by decide)

end RdmaEgressQueue
end Roce
