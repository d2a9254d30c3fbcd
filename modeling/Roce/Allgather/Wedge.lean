import Roce.Allgather.Recovery

/-! # The recoveries that never wedge

The two directions of the exact condition. A ring where all nodes are out of the multicast phase
and nothing is in flight is up to date everywhere if one node is, since a node that has nothing
new for its right neighbour has all that this neighbour misses. In the other direction, the nodes
leave one after the other, each before its left neighbour. -/

namespace Roce
namespace AgRing

open Function

variable {cfg : AgConfig} {recv : Fin cfg.nodes → List Bool} {t t' : AgRing cfg.nodes}

/-- A node never misses its own block. -/
theorem mem_missed {i : Fin cfg.nodes} (hlen : (recv i).length = cfg.getTotalChunkCount)
    (h : b ∈ missed cfg recv i) : b < cfg.nodes ∧ b ≠ i.val := by
  obtain ⟨chunk, hlt, hrecv, rfl⟩ := AgConfig.mem_buildToRecover h
  have hpos : 0 < cfg.getPerBlockChunkCount := by
    refine Nat.pos_of_ne_zero fun h0 => ?_
    rw [AgConfig.getTotalChunkCount, h0, Nat.zero_mul] at hlt
    exact Nat.not_lt_zero _ hlt
  refine ⟨Nat.div_lt_of_lt_mul hlt, fun hown => ?_⟩
  rw [AgRuntime.markOwn_own (hlen ▸ hlt) hown hpos] at hrecv
  cases hrecv

/-! ## No assertion fails -/

/-- A node can leave if it is in the multicast phase, and a message can be delivered if it is the
next one of its link. -/
def Enabled (t : AgRing n) : Event n → Prop
  | .leave i => (t.node i).state = .multicast
  | .request i => t.request (right i) ≠ []
  | .requestAck i => t.requestAck i ≠ []
  | .block i => t.block (left i) ≠ []
  | .blockAck i => t.blockAck i ≠ []

theorem NodeOk.state_eq {rt : AgRuntime} (h : NodeOk rt) (hne : rt.state ≠ .multicast)
    (hrec : rt.hasRecoveredAll = false) : rt.state = .recovery := by
  cases hst : rt.state
  · exact absurd hst hne
  · rfl
  · have hall := (h.finished hst).1
    rw [hrec] at hall
    cases hall

/-- No assertion of the recovery phase fails: what is enabled happens. -/
theorem enabled_iff (hn : 2 ≤ cfg.nodes) (h : (recovery cfg recv).Reachable t) :
    Enabled t e ↔ ∃ t', Step cfg t e t' := by
  have hi := recovery_inv hn h
  constructor
  · intro he
    cases e with
    | leave i => exact ⟨_, .leave (if_pos he)⟩
    | request i =>
      obtain ⟨q, l, hq⟩ := List.exists_cons_of_ne_nil he
      have hlink := hi.link i
      have hne : (t.node (right i)).state ≠ .multicast := fun hm => he (hlink.multicast hm).2.1
      have hreq : (t.node i).hasRecvRecoverReq = false := by
        cases hreq : (t.node i).hasRecvRecoverReq
        · rfl
        · exact absurd (hlink.asked hreq).1 he
      have hst := (hi.node (right i)).state_eq hne (hlink.asking hne hreq).2.2
      exact ⟨_, .request hq (by rw [AgRuntime.notifyRecvRecoveryRequest_eq, if_pos hst])⟩
    | requestAck i =>
      obtain ⟨q, l, hq⟩ := List.exists_cons_of_ne_nil he
      have hlink := hi.link (left i)
      rw [right_left] at hlink
      have hne : (t.node i).state ≠ .multicast := fun hm => he (hlink.multicast hm).2.2.1
      have hreq : (t.node (left i)).hasRecvRecoverReq = true := by
        cases hreq : (t.node (left i)).hasRecvRecoverReq
        · exact absurd (hlink.unasked hreq).2.2.1 he
        · rfl
      obtain ⟨x, hx, hiff, hrec⟩ := (hlink.asked hreq).2.resolve_left he
      obtain ⟨rfl, rfl⟩ : q = x ∧ l = [] := by simpa [hq] using hx
      cases hon : q.onSend
      · exact ⟨_, .requestAck hq (by rw [hon]; rfl)⟩
      · have hst := (hi.node i).state_eq hne (hrec (hiff.mp hon))
        obtain ⟨⟨rt, sh, posted⟩, hsent⟩ : ∃ res, (t.node i).onRequestSent cfg
            (t.node (right i)).toRecover t.shared = some res := by
          rw [AgRuntime.onRequestSent, AgRuntime.notifyRecovery_none, if_pos hst]
          exact ⟨_, rfl⟩
        exact ⟨_, .requestAck hq (by rw [hon, if_pos rfl, hsent])⟩
    | block i =>
      obtain ⟨b, l, hb⟩ := List.exists_cons_of_ne_nil he
      have hlink := hi.link (left i)
      rw [right_left, hb] at hlink
      obtain ⟨-, hmem⟩ := hlink.flight b.block List.mem_cons_self
      have hT : (t.node i).toRecover.keys ≠ [] := List.ne_nil_of_mem hmem
      have hst := (hi.node i).state_eq (fun hm => hT (hlink.multicast hm).1)
        (Bool.eq_false_iff.mpr fun hrec => hT (hlink.recovered hrec))
      exact ⟨_, .block hb (by rw [AgRuntime.notifyRecovery_block, if_pos hst])⟩
    | blockAck i =>
      obtain ⟨b, l, hb⟩ := List.exists_cons_of_ne_nil he
      exact ⟨_, .blockAck hb rfl⟩
  · rintro ⟨t', hst⟩
    cases hst with
    | leave hrt => exact (AgRuntime.transitionToRecovery_cases hrt).1
    | request hq => exact ne_of_eq_of_ne hq (List.cons_ne_nil _ _)
    | requestAck hq => exact ne_of_eq_of_ne hq (List.cons_ne_nil _ _)
    | block hb => exact ne_of_eq_of_ne hb (List.cons_ne_nil _ _)
    | blockAck hb => exact ne_of_eq_of_ne hb (List.cons_ne_nil _ _)

/-! ## No wedge -/

section Quiet

variable (hi : Inv cfg recv t) (hleft : ∀ i, (t.node i).state ≠ .multicast) (hq : t.Quiet)
include hi hleft hq

theorem Inv.asked_of_quiet (k : Fin cfg.nodes) : (t.node k).hasRecvRecoverReq = true := by
  cases hreq : (t.node k).hasRecvRecoverReq
  · obtain ⟨⟨x, hx, -⟩, -⟩ := (hi.link k).asking (hleft _) hreq
    rw [(hq _).1] at hx
    cases hx
  · rfl

omit hleft in
/-- A node that is up to date misses all that its right neighbour misses. -/
theorem Inv.subset_of_upToDate {k : Fin cfg.nodes} (h : UpToDate (t.node k) (t.node (right k))) :
    ∀ b ∈ (t.node (right k)).toRecover.keys, b ∈ (t.node k).toRecover.keys := by
  intro b hb
  by_contra hnot
  have hmem := (hi.link k).sent b (h b hb hnot) hb
  rw [(hq k).2.2.1] at hmem
  cases hmem

/-- A node that misses something and is not up to date still misses all it missed. -/
theorem Inv.upToDate_or (k : Fin cfg.nodes) : UpToDate (t.node k) (t.node (right k)) ∨
    ((t.node k).toRecover.keys = missed cfg recv k ∧ missed cfg recv k ≠ []) := by
  rcases hi.awake k (hleft k) (hi.asked_of_quiet hleft hq k) with hup | ⟨hT, hM⟩
  · exact .inl hup
  · refine .inr ⟨hT, fun hnil => ?_⟩
    rcases hM hnil with h | h
    · exact h (hq k).1
    · exact h (hq k).2.1

theorem Inv.finished_of_empty (hT : ∀ k, (t.node k).toRecover.keys = []) (k : Fin cfg.nodes) :
    (t.node k).state = .finished := by
  have hall : (t.node k).recSentAll = true := by
    rcases (hi.link k).sentAll_of (hi.asked_of_quiet hleft hq k) (hT _) with h | h
    · exact h
    · exact absurd (hq k).2.2.2 h
  have hrec : (t.node k).hasRecoveredAll = true := by
    have hlink := hi.link (left k)
    rw [right_left] at hlink
    rcases hlink.recovered_of (hleft k) (hT k) with h | ⟨-, h | h⟩
    · exact h
    · exact absurd (hq k).1 h
    · exact absurd (hq k).2.1 h
  cases hst : (t.node k).state
  · exact absurd hst (hleft k)
  · rcases (hi.node k).recovery hst with h | h
    · rw [hrec] at h
      cases h
    · rw [hall] at h
      cases h
  · rfl

/-- If a node misses nothing, it wakes its right neighbour up, and so on around the ring. -/
theorem Inv.empty_of_complete {i : Fin cfg.nodes} (hM : missed cfg recv i = []) :
    ∀ k, (t.node k).toRecover.keys = [] := by
  refine ring_induction i ?_ fun k hk => ?_
  · have hlink := hi.link (left i)
    rw [right_left] at hlink
    refine List.eq_nil_iff_forall_not_mem.mpr fun b hb => ?_
    have hmem := hlink.missing b hb
    rw [hM] at hmem
    cases hmem
  · have hup : UpToDate (t.node k) (t.node (right k)) := by
      rcases hi.upToDate_or hleft hq k with hup | ⟨hT, hne⟩
      · exact hup
      · exact absurd (hT ▸ hk) hne
    refine List.eq_nil_iff_forall_not_mem.mpr fun b hb => ?_
    have hmem := hi.subset_of_upToDate hq hup b hb
    rw [hk] at hmem
    cases hmem

/-- If every node misses a block that its left neighbour has, a node that is up to date makes its
right neighbour look at its request, and so on around the ring. -/
theorem Inv.upToDate_of_news
    (hnews : ∀ i, ∃ b ∈ missed cfg recv i, b ∉ missed cfg recv (left i)) :
    ∀ k, UpToDate (t.node k) (t.node (right k)) := by
  obtain ⟨i, hreq | ⟨-, hup⟩⟩ := hi.last hleft
  · exact absurd (hq (right i)).1 hreq
  · refine ring_induction i hup fun k hk => ?_
    rcases hi.upToDate_or hleft hq (right k) with h | ⟨hT, -⟩
    · exact h
    · obtain ⟨b, hb, hnot⟩ := hnews (right k)
      rw [left_right] at hnot
      have hlink := hi.link (left k)
      rw [right_left] at hlink
      exact absurd (hlink.missing b (hi.subset_of_upToDate hq hk b (hT ▸ hb))) hnot

omit hleft in
/-- A block that a node misses is missed all the way around the ring if every node is up to date,
but not by its sender. -/
theorem Inv.empty_of_upToDate (hlen : ∀ i, (recv i).length = cfg.getTotalChunkCount)
    (hup : ∀ k, UpToDate (t.node k) (t.node (right k))) :
    ∀ k, (t.node k).toRecover.keys = [] := by
  have hmissed : ∀ k, ∀ b ∈ (t.node k).toRecover.keys, b ∈ missed cfg recv k := by
    intro k b hb
    have hlink := hi.link (left k)
    rw [right_left] at hlink
    exact hlink.missing b hb
  intro k
  refine List.eq_nil_iff_forall_not_mem.mpr fun b hb => ?_
  obtain ⟨hlt, -⟩ := mem_missed (hlen k) (hmissed k b hb)
  have hnone : ∀ j, b ∉ (t.node j).toRecover.keys := by
    refine ring_induction ⟨b, hlt⟩ (fun hown => ?_) fun j hj hmem => ?_
    · exact (mem_missed (hlen _) (hmissed _ b hown)).2 rfl
    · exact hj (hi.subset_of_upToDate hq (hup j) b hmem)
  exact hnone k hb

end Quiet

/-- A ring that is quiet outside the multicast phase has finished, if some node misses nothing or
every node misses a block that its left neighbour has. -/
theorem Inv.not_wedged (hi : Inv cfg recv t)
    (hlen : ∀ i, (recv i).length = cfg.getTotalChunkCount)
    (h : (∃ i, missed cfg recv i = []) ∨
      ∀ i, ∃ b ∈ missed cfg recv i, b ∉ missed cfg recv (left i)) : ¬Wedged t := by
  rintro ⟨hleft, hq, k, hk⟩
  refine hk (hi.finished_of_empty hleft hq ?_ k)
  rcases h with ⟨i, hM⟩ | hnews
  · exact hi.empty_of_complete hleft hq hM
  · exact hi.empty_of_upToDate hq hlen (hi.upToDate_of_news hleft hq hnews)

/-! ## A wedge -/

/-- The nodes of `gone` have left the multicast phase one by one, and no one has answered a
request. -/
structure Stuck (cfg : AgConfig) (recv : Fin cfg.nodes → List Bool) (gone : Fin cfg.nodes → Prop)
    (t : AgRing cfg.nodes) : Prop where
  quiet : t.Quiet
  idle : ∀ i, (t.node i).recSent = [] ∧ (t.node i).recSentAll = false ∧
    (t.node i).hasRecoveredAll = false
  stay : ∀ i, ¬gone i → (t.node i).state = .multicast ∧ (t.node i).recv = recv i ∧
    (t.node i).block = i.val
  out : ∀ i, gone i → (t.node i).state = .recovery ∧
    (t.node i).toRecover.keys = missed cfg recv i

theorem initial_stuck : Stuck cfg recv (fun _ => False) (initial recv) :=
  ⟨fun _ => ⟨rfl, rfl, rfl, rfl⟩, fun _ => ⟨rfl, rfl, rfl⟩, fun _ _ => ⟨rfl, rfl, rfl⟩,
    fun _ h => h.elim⟩

theorem Stuck.wedged (h : Stuck cfg recv gone t) (hgone : ∀ i, gone i) (i : Fin cfg.nodes) :
    Wedged t := by
  refine ⟨fun k hm => ?_, h.quiet, i, fun hf => ?_⟩
  · rw [(h.out k (hgone k)).1] at hm
    cases hm
  · rw [(h.out i (hgone i)).1] at hf
    cases hf

/-- A node that has nothing new for its right neighbour, and has not recovered all, stays as it
is. -/
theorem tryUpdateState_idle {rt : AgRuntime} {right : OrdMap Nat Nat} (sh : AgShared)
    (hrec : rt.hasRecoveredAll = false)
    (hnone : rt.state = .recovery → ∀ b ∈ right.keys, b ∈ rt.toRecover.keys) :
    ∃ sh', rt.tryUpdateState cfg right sh = (rt, sh', []) := by
  by_cases hst : rt.state = .recovery
  · obtain ⟨sh', heq⟩ := AgRuntime.tryUpdateState_eq cfg right sh hst
    have hpost : (rt.posting cfg right).map (·.block) = [] := by
      refine List.eq_nil_iff_forall_not_mem.mpr fun b hb => ?_
      obtain ⟨-, -, hb, -, hnot⟩ := AgRuntime.mem_posting.mp hb
      exact hnot (hnone hst b hb)
    refine ⟨sh', ?_⟩
    rw [heq, List.map_eq_nil_iff.mp hpost, hrec, List.map_nil, List.append_nil, Bool.false_and,
      if_neg Bool.false_ne_true, ← hst, ← hrec]
  · exact ⟨sh, by rw [AgRuntime.tryUpdateState, if_pos hst]⟩

/-- The node `j` leaves and its request is delivered, to no effect. -/
theorem Stuck.leave (hn : 2 ≤ cfg.nodes) (ht : (recovery cfg recv).Reachable t)
    (h : Stuck cfg recv gone t) {j : Fin cfg.nodes} (hj : ¬gone j)
    (hne : missed cfg recv j ≠ [])
    (hnone : gone (left j) → ∀ b ∈ missed cfg recv j, b ∈ missed cfg recv (left j)) :
    ∃ t', (recovery cfg recv).Reachable t' ∧ Stuck cfg recv (fun i => gone i ∨ i = j) t' := by
  obtain ⟨hm, hrecv, hblock⟩ := h.stay j hj
  have hlj := left_ne hn j
  obtain ⟨rt, sh, hrt, hst, hT, hidle⟩ : ∃ rt sh,
      (t.node j).transitionToRecovery cfg t.shared = some (rt, sh) ∧ rt.state = .recovery ∧
      rt.toRecover.keys = missed cfg recv j ∧ rt.recSent = [] ∧ rt.recSentAll = false ∧
      rt.hasRecoveredAll = false := by
    refine ⟨_, _, if_pos hm, rfl, ?_, h.idle j⟩
    rw [missed, ← hrecv, ← hblock]
  have hsize : rt.toRecover.size ≠ 0 := fun h0 => hne (hT ▸ OrdMap.size_eq_zero_iff.mp h0)
  have hon : rt.startRecoveryPhase.onSend = false := by
    simp [AgRuntime.startRecoveryPhase, AgRuntime.hasAllChunks, hsize]
  obtain ⟨hlsent, hlall, hlrec⟩ := h.idle (left j)
  -- the left neighbour registers the request and goes on as before
  obtain ⟨sh', hreq⟩ : ∃ sh', (t.node (left j)).notifyRecvRecoveryRequest cfg rt sh =
      some ({ t.node (left j) with hasRecvRecoverReq := true }, sh', []) := by
    rw [AgRuntime.notifyRecvRecoveryRequest, if_pos hst]
    simp only [if_neg hsize, Option.some.injEq]
    refine tryUpdateState_idle sh hlrec fun hlst => ?_
    have hgone : gone (left j) := by
      by_contra hstay
      rw [(h.stay _ hstay).1] at hlst
      cases hlst
    simp only [hT, (h.out _ hgone).2]
    exact hnone hgone
  have ht₁ := ht.step (show Step cfg t (.leave j) _ from .leave hrt)
  have ht₂ := ht₁.step (show Step cfg _ (.request (left j)) _ from
    .request (q := rt.startRecoveryPhase) (l := [])
      (by simp only [right_left, update_self, (h.quiet j).1, List.nil_append])
      (by simpa only [right_left, update_self, update_of_ne hlj] using hreq))
  have ht₃ := ht₂.step (show Step cfg _ (.requestAck j) _ from
    .requestAck (q := rt.startRecoveryPhase) (l := [])
      (by simp only [right_left, update_self, (h.quiet j).2.1, List.nil_append])
      (by rw [hon]; rfl))
  refine ⟨_, ht₃, ?_⟩
  have hnode : ∀ k, update (update (update t.node j rt) (left j)
      { t.node (left j) with hasRecvRecoverReq := true }) j rt k =
      if k = j then rt
      else if k = left j then { t.node (left j) with hasRecvRecoverReq := true }
      else t.node k := by
    intro k
    simp only [update_apply]
    split <;> simp
  simp only [update_of_ne hlj.symm, update_self, right_left]
  constructor
  case quiet =>
    intro k
    obtain ⟨h1, h2, h3, h4⟩ := h.quiet k
    obtain ⟨-, -, hlblock, -⟩ := h.quiet (left j)
    obtain ⟨-, -, hjblock, -⟩ := h.quiet j
    refine ⟨?_, ?_, ?_, h4⟩
    · simp only [update_apply, h1]
      split <;> rfl
    · simp only [update_apply, h2]
      split <;> rfl
    · simp only [update_apply, hlblock, hjblock, h3, List.append_nil, ite_self]
  case idle =>
    intro k
    simp only [hnode]
    split
    next => exact hidle
    next =>
      split
      next hk => exact hk ▸ h.idle k
      next => exact h.idle k
  case stay =>
    intro k hk
    obtain ⟨hgone, hkj⟩ := not_or.mp hk
    simp only [hnode, if_neg hkj]
    split
    next hk => exact hk ▸ h.stay k hgone
    next => exact h.stay k hgone
  case out =>
    intro k hk
    simp only [hnode]
    split
    next hkj => exact ⟨hst, hkj ▸ hT⟩
    next hkj =>
      have hgone := hk.resolve_right hkj
      split
      next hk => exact hk ▸ h.out k hgone
      next => exact h.out k hgone

/-- The number of nodes that leave up to and including the node `i`, if `left j` is the first and
`j` the last to leave. -/
def leaveRank (j i : Fin n) : Nat := if i.val < j.val then j.val - i.val else j.val + n - i.val

theorem leaveRank_pos (j i : Fin n) : 0 < leaveRank j i := by
  have hi := i.isLt
  unfold leaveRank
  split <;> omega

theorem leaveRank_le (j i : Fin n) : leaveRank j i ≤ n := by
  have hj := j.isLt
  unfold leaveRank
  split <;> omega

theorem leaveRank_left {j i : Fin n} (h : i ≠ j) : leaveRank j (left i) = leaveRank j i + 1 := by
  have hi := i.isLt
  have hj := j.isLt
  have hne : i.val ≠ j.val := fun heq => h (Fin.ext heq)
  unfold leaveRank
  rw [left_val]
  split <;> split <;> split <;> omega

theorem leaveRank_inj {j i k : Fin n} (h : leaveRank j i = leaveRank j k) : i = k := by
  have hi := i.isLt
  have hk := k.isLt
  have hj := j.isLt
  refine Fin.ext ?_
  unfold leaveRank at h
  split at h <;> split at h <;> omega

theorem exists_leaveRank {j : Fin n} (hm : m < n) : ∃ i, leaveRank j i = m + 1 := by
  have hj := j.isLt
  by_cases hlt : m < j.val
  · refine ⟨⟨j.val - (m + 1), by omega⟩, ?_⟩
    rw [leaveRank, if_pos (show j.val - (m + 1) < j.val by omega)]
    show j.val - (j.val - (m + 1)) = m + 1
    omega
  · refine ⟨⟨j.val + n - (m + 1), by omega⟩, ?_⟩
    rw [leaveRank, if_neg (show ¬j.val + n - (m + 1) < j.val by omega)]
    show j.val + n - (j.val + n - (m + 1)) = m + 1
    omega

/-- The nodes leave one after the other, from the left neighbour of `j` to `j`. -/
theorem exists_stuck (hn : 2 ≤ cfg.nodes) (hne : ∀ i, missed cfg recv i ≠ []) {j : Fin cfg.nodes}
    (hj : ∀ b ∈ missed cfg recv j, b ∈ missed cfg recv (left j)) (hm : m ≤ cfg.nodes) :
    ∃ t, (recovery cfg recv).Reachable t ∧
      Stuck cfg recv (fun i => leaveRank j i ≤ m) t := by
  induction m with
  | zero =>
    refine ⟨_, .init rfl, ?_⟩
    have hnone : (fun i => leaveRank j i ≤ 0) = fun _ => False := by
      funext i
      exact eq_false (Nat.not_le_of_lt (leaveRank_pos j i))
    rw [hnone]
    exact initial_stuck
  | succ m ih =>
    obtain ⟨t, ht, hstuck⟩ := ih (Nat.le_of_succ_le hm)
    obtain ⟨i, hi⟩ := exists_leaveRank (j := j) hm
    obtain ⟨t', ht', hstuck'⟩ := hstuck.leave hn ht (j := i)
      (by rw [hi]; exact Nat.not_succ_le_self m) (hne i) fun hgone => by
        -- only the last node to leave has a left neighbour that has left
        by_cases hij : i = j
        · exact hij ▸ hj
        · rw [leaveRank_left hij, hi] at hgone
          omega
    refine ⟨t', ht', ?_⟩
    have hgone : (fun k => leaveRank j k ≤ m + 1) = fun k => leaveRank j k ≤ m ∨ k = i := by
      funext k
      refine propext ⟨fun hk => ?_, ?_⟩
      · rcases Nat.le_or_eq_of_le_succ hk with hk | hk
        · exact .inl hk
        · exact .inr (leaveRank_inj (hk.trans hi.symm))
      · rintro (hk | rfl)
        · exact Nat.le_succ_of_le hk
        · exact hi.le
    rw [hgone]
    exact hstuck'

/-! ## The exact condition -/

/-- **The recovery never wedges** exactly when some node misses nothing, or every node misses a
block that its left neighbour has. -/
theorem never_wedges_iff {cfg : AgConfig} (hn : 2 ≤ cfg.nodes) (recv : Fin cfg.nodes → cfg.Bitmap) :
    (∀ t, (recovery cfg fun i => (recv i).toList).Reachable t → ¬Wedged t) ↔
      (∃ i, missed cfg (fun i => (recv i).toList) i = []) ∨
        ∀ i, ∃ b ∈ missed cfg (fun i => (recv i).toList) i,
          b ∉ missed cfg (fun i => (recv i).toList) (left i) := by
  constructor
  · intro h
    by_contra hno
    obtain ⟨hne, hsub⟩ := not_or.mp hno
    obtain ⟨j, hj⟩ := not_forall.mp hsub
    have hne : ∀ i, missed cfg (fun i => (recv i).toList) i ≠ [] :=
      fun i hi => hne ⟨i, hi⟩
    have hj : ∀ b ∈ missed cfg (fun i => (recv i).toList) j,
        b ∈ missed cfg (fun i => (recv i).toList) (left j) := by
      intro b hb
      by_contra hnot
      exact hj ⟨b, hb, hnot⟩
    obtain ⟨t, ht, hstuck⟩ := exists_stuck hn hne hj le_rfl
    exact h t ht (hstuck.wedged (leaveRank_le j) j)
  · intro h t ht
    exact (recovery_inv hn ht).not_wedged (fun i => (recv i).length_toList) h

/-- Each of two nodes has its own block only. They leave the multicast phase, and ask each other. -/
theorem never_wedges_pair :
    let recv : Fin 2 → List Bool := fun i => [i = 0, i = 1]
    missed ⟨2, 1, 30000, 1, 0⟩ recv 0 = [1] ∧ missed ⟨2, 1, 30000, 1, 0⟩ recv 1 = [0] ∧
    (∃ t, (recovery ⟨2, 1, 30000, 1, 0⟩ recv).Reachable t ∧
      ∀ i, (t.node i).state ≠ .multicast ∧ t.request i ≠ []) ∧
    ∀ t, (recovery ⟨2, 1, 30000, 1, 0⟩ recv).Reachable t → ¬Wedged t := by
  intro recv
  have h₀ : (recovery ⟨2, 1, 30000, 1, 0⟩ recv).Reachable (initial recv) := .init rfl
  have h₁ := h₀.step (show Step _ _ (.leave 0) _ from .leave rfl)
  have h₂ := h₁.step (show Step _ _ (.leave 1) _ from .leave rfl)
  refine ⟨by decide, by decide, ⟨_, h₂, by decide⟩, ?_⟩
  refine (@never_wedges_iff ⟨2, 1, 30000, 1, 0⟩ (by decide) fun i => #v[i = 0, i = 1]).mpr
    (.inr fun i => ⟨(left i).val, ?_⟩)
  revert i
  decide

/-- What three nodes have after the multicast phase: the first misses the block of the second, and
the two others miss the block of the first. -/
def threeRecv : Fin 3 → List Bool
  | 0 => [true, false, true]
  | 1 => [false, true, true]
  | 2 => [false, true, true]

/-- The nodes 1, 0 and 2 leave the multicast phase in this order, and no block is ever sent. -/
theorem wedge_of_three : ∃ t, (recovery ⟨3, 1, 30000, 1, 0⟩ threeRecv).Reachable t ∧ Wedged t := by
  obtain ⟨t, ht, hstuck⟩ : ∃ t, (recovery ⟨3, 1, 30000, 1, 0⟩ threeRecv).Reachable t ∧
      Stuck ⟨3, 1, 30000, 1, 0⟩ threeRecv (fun i => leaveRank 2 i ≤ 3) t :=
    exists_stuck (by decide) (by decide) (by decide) le_rfl
  exact ⟨t, ht, hstuck.wedged (leaveRank_le 2) 2⟩

end AgRing
end Roce
