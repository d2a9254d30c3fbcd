import Roce.Allgather.Safety
import Roce.Allgather.Segments

/-! # The statistics of the recovery

A node that receives a block adds one to the retransmitted chunks, whatever the number of chunks in
it; what it adds to the missed chunks when it leaves the multicast phase is their number. -/

namespace Roce

open Function

theorem AgConfig.buildToRecover_pos {cfg : AgConfig} {recv : List Bool}
    (h : e ∈ (cfg.buildToRecover recv).entries) : 1 ≤ e.2 := by
  have hkey : e.1 ∈ (cfg.buildToRecover recv).keys := List.mem_map_of_mem h
  have hsum : ((cfg.buildToRecover recv).find? e.1).getD 0 =
      tally (·.2) (cfg.getBlockOfSegment ·.1 = e.1) (cfg.buildPartialSegments recv).entries := by
    rw [buildToRecover, find?_foldl_addMissed, OrdMap.find?_empty, Option.getD_none, Nat.zero_add]
  rw [OrdMap.find?_eq_some.mpr h, Option.getD_some] at hsum
  rw [buildToRecover, mem_keys_foldl_addMissed] at hkey
  rcases hkey with hkey | ⟨x, hx, hpos, hblock⟩
  · cases hkey
  · have hle : x.2 ≤ tally (·.2) (cfg.getBlockOfSegment ·.1 = e.1)
        (cfg.buildPartialSegments recv).entries := by
      rw [tally_erase hx, if_pos hblock]
      exact Nat.le_add_right ..
    omega

namespace AgRing

/-- What a node has to recover when it leaves the multicast phase. -/
def initialToRecover (cfg : AgConfig) (recv : Fin cfg.nodes → List Bool) (i : Fin cfg.nodes) :
    OrdMap Nat Nat :=
  cfg.buildToRecover (AgRuntime.markOwn cfg i (recv i))

/-- The statistics agree on the chunks that had to be recovered. -/
structure Accounted (cfg : AgConfig) (recv : Fin cfg.nodes → List Bool) (sh : AgShared) : Prop where
  retransmitted : sh.retrChunksTot = ∑ i, (initialToRecover cfg recv i).values.sum
  missed : sh.retrChunksTot = sh.missedDataChunksTot

/-! ## What a step counts -/

/-- `TryUpdateState` does not count chunks. -/
theorem tryUpdateState_totals (cfg : AgConfig) (right : OrdMap Nat Nat) (rt : AgRuntime)
    (sh : AgShared) :
    (rt.tryUpdateState cfg right sh).2.1.retrChunksTot = sh.retrChunksTot ∧
      (rt.tryUpdateState cfg right sh).2.1.missedDataChunksTot = sh.missedDataChunksTot := by
  have hreg : (sh.registerStateTransition cfg .finished).retrChunksTot = sh.retrChunksTot ∧
      (sh.registerStateTransition cfg .finished).missedDataChunksTot = sh.missedDataChunksTot := by
    simp only [AgShared.registerStateTransition]
    split <;> exact ⟨rfl, rfl⟩
  unfold AgRuntime.tryUpdateState
  split
  next => exact ⟨rfl, rfl⟩
  next =>
    simp only
    split <;> split <;> first | exact hreg | exact ⟨rfl, rfl⟩

theorem tryUpdateState_shared {cfg : AgConfig} {right : OrdMap Nat Nat} {rt v : AgRuntime}
    {sh shv : AgShared} {l : List Transfer} (h : rt.tryUpdateState cfg right sh = (v, shv, l)) :
    shv.retrChunksTot = sh.retrChunksTot ∧ shv.missedDataChunksTot = sh.missedDataChunksTot := by
  have htotals := tryUpdateState_totals cfg right rt sh
  rwa [h] at htotals

theorem onRequestSent_shared {cfg : AgConfig} {right : OrdMap Nat Nat} {rt v : AgRuntime}
    {sh shv : AgShared} {l : List Transfer} (h : rt.onRequestSent cfg right sh = some (v, shv, l)) :
    shv.retrChunksTot = sh.retrChunksTot ∧ shv.missedDataChunksTot = sh.missedDataChunksTot := by
  obtain ⟨⟨u, shu, l'⟩, hu, h⟩ := Option.bind_eq_some_iff.mp h
  rw [AgRuntime.notifyRecovery_none] at hu
  split at hu
  next =>
    have hfirst := tryUpdateState_shared (Option.some.inj hu)
    have hsecond := tryUpdateState_totals cfg right u shu
    simp only [Option.pure_def, Option.some.injEq, Prod.mk.injEq] at h
    rw [h.2.1] at hsecond
    exact ⟨hsecond.1.trans hfirst.1, hsecond.2.trans hfirst.2⟩
  next => cases hu

/-- What leaving the multicast phase adds to the missed chunks. -/
def registered (cfg : AgConfig) (t : AgRing n) : Event n → Nat
  | .leave i =>
    (cfg.buildToRecover (AgRuntime.markOwn cfg (t.node i).block (t.node i).recv)).values.sum
  | _ => 0

section Step

variable {cfg : AgConfig} {recv : Fin cfg.nodes → List Bool} {tr : History cfg.nodes}
  {t t' : AgRing cfg.nodes} {e : Event cfg.nodes} {i : Fin cfg.nodes}

theorem Step.shared (h : Step cfg t e t') :
    t'.shared.retrChunksTot = t.shared.retrChunksTot + (receives t e).length ∧
      t'.shared.missedDataChunksTot = t.shared.missedDataChunksTot + registered cfg t e := by
  cases h with
  | leave hrt =>
    obtain ⟨-, rfl, rfl⟩ := AgRuntime.transitionToRecovery_cases hrt
    exact ⟨rfl, rfl⟩
  | request hq hrt =>
    rw [AgRuntime.notifyRecvRecoveryRequest_eq] at hrt
    split at hrt
    next => exact tryUpdateState_shared (Option.some.inj hrt)
    next => cases hrt
  | requestAck hq hrt =>
    split at hrt
    next => exact onRequestSent_shared hrt
    next =>
      rw [Option.some.injEq, Prod.mk.injEq, Prod.mk.injEq] at hrt
      obtain ⟨-, rfl, -⟩ := hrt
      exact ⟨rfl, rfl⟩
  | block hb hrt =>
    rw [AgRuntime.notifyRecovery_block] at hrt
    split at hrt
    next =>
      have hshared := tryUpdateState_shared (Option.some.inj hrt)
      simpa [receives, hb, registered] using hshared
    next => cases hrt
  | blockAck hb hrt =>
    rw [AgRuntime.onTransferSent_eq] at hrt
    exact tryUpdateState_shared hrt

/-! ## What a run counts -/

/-- The transfers to a node are blocks that it has to recover. -/
def BlocksMissing (t : AgRing n) : Prop :=
  ∀ i, ∀ b ∈ t.block i, b.block ∈ (t.node (right i)).toRecover.keys

/-- Each node has received different blocks of those that it missed, and the counters are the
numbers of the blocks, and of the chunks that were missed by the nodes that have left. -/
structure Totals (cfg : AgConfig) (recv : Fin cfg.nodes → List Bool) (tr : History cfg.nodes)
    (t : AgRing cfg.nodes) : Prop where
  nodup : ∀ i, (recovered i tr).Nodup
  subset : ∀ i, recovered i tr ⊆ missed cfg recv i
  retr : t.shared.retrChunksTot = ∑ i, (recovered i tr).length
  missedData : t.shared.missedDataChunksTot = ∑ i, if (t.node i).state = .multicast then 0
    else (initialToRecover cfg recv i).values.sum

theorem Totals.step (h : Totals cfg recv tr t) (hlog : Log cfg recv tr t) (hb : BlocksMissing t)
    (hst : Step cfg t e t') : Totals cfg recv (tr ++ [⟨t, e, t'⟩]) t' := by
  have hacts := hst.acts
  obtain ⟨hretr, hmissed⟩ := hst.shared
  have hreceived : ∀ i, recovered i (tr ++ [⟨t, e, t'⟩]) =
      recovered i tr ++ if e.node = i then receives t e else [] := fun i => recovered_snoc
  -- a received block was still to be recovered
  have hnew : ∀ b ∈ receives t e,
      b ∈ missed cfg recv e.node ∧ b ∉ recovered e.node tr := by
    intro b hmem
    have hne : (t.node e.node).state ≠ .multicast := by
      rw [hacts.receiving (List.ne_nil_of_mem hmem)]
      exact fun h => by cases h
    refine (hlog.toRecover e.node hne b).mp ?_
    cases e with
    | block i =>
      simp only [receives, List.mem_map, Option.mem_toList] at hmem
      obtain ⟨x, hx, rfl⟩ := hmem
      have hblock := hb (left i) x (List.mem_of_mem_head? hx)
      rwa [right_left] at hblock
    | leave | request | requestAck | blockAck => cases hmem
  constructor
  case nodup =>
    intro i
    rw [hreceived]
    split
    next hi =>
      subst hi
      refine List.nodup_append.mpr ⟨h.nodup _, ?_, ?_⟩
      · cases e with
        | block i =>
          simp only [receives]
          cases (t.block (left i)).head? <;> simp
        | leave | request | requestAck | blockAck => exact List.nodup_nil
      · rintro b hbr _ hbn rfl
        exact (hnew b hbn).2 hbr
    next => simpa using h.nodup i
  case subset =>
    intro i b hmem
    rw [hreceived] at hmem
    rcases List.mem_append.mp hmem with hmem | hmem
    · exact h.subset i hmem
    · split at hmem
      next hi => exact hi ▸ (hnew b hmem).1
      next => cases hmem
  case retr =>
    have hframe : ∀ i, i ≠ e.node →
        (recovered i (tr ++ [⟨t, e, t'⟩])).length = (recovered i tr).length := fun i hi => by
      rw [hreceived, if_neg (Ne.symm hi), List.append_nil]
    have hsum := sum_of_frame e.node hframe
    rw [hreceived e.node, if_pos rfl, List.length_append] at hsum
    have hold := h.retr
    omega
  case missedData =>
    have hframe : ∀ i, i ≠ e.node → (if (t'.node i).state = .multicast then 0
        else (initialToRecover cfg recv i).values.sum) = if (t.node i).state = .multicast then 0
          else (initialToRecover cfg recv i).values.sum := fun i hi => by rw [hacts.frame i hi]
    have hsum := sum_of_frame e.node hframe
    have hold := h.missedData
    by_cases hl : (t.node e.node).state = .multicast ∧ (t'.node e.node).state = .recovery
    · obtain ⟨i, rfl⟩ : ∃ i, e = .leave i := by
        have hleave := (hacts.leaves_iff e.node).mp hl
        cases e with
        | leave i => exact ⟨i, rfl⟩
        | request | requestAck | block | blockAck => cases hleave
      obtain ⟨hrecv, hblock, -⟩ := hlog.fresh _ hl.1
      have hreg : registered cfg t (.leave i) = (initialToRecover cfg recv i).values.sum := by
        rw [registered, initialToRecover]
        rw [show (t.node i).recv = recv i from hrecv, show (t.node i).block = i.val from hblock]
      rw [if_pos hl.1, if_neg (by rw [hl.2]; exact fun h => by cases h)] at hsum
      rw [hreg] at hmissed
      simp only [Event.node] at hsum
      omega
    · have hreg : registered cfg t e = 0 := by
        cases e with
        | leave i => exact absurd ((hacts.leaves_iff i).mpr (by simp [Event.isLeave])) hl
        | request | requestAck | block | blockAck => rfl
      simp only [hacts.multicast_iff e.node hl] at hsum
      omega

end Step

/-! ## The blocks in flight -/

section Alone

variable {cfg : AgConfig} {recv : Fin cfg.nodes → List Bool} {tr : History cfg.nodes}
  {t t' : AgRing cfg.nodes} {e : Event cfg.nodes}

/-- Nothing is posted for a neighbour that misses nothing. -/
theorem tryUpdateState_posts_nil {right : OrdMap Nat Nat} {rt v : AgRuntime} {sh shv : AgShared}
    {l : List Transfer} (hT : rt.state = .recovery → right.keys = [])
    (h : rt.tryUpdateState cfg right sh = (v, shv, l)) : l = [] := by
  by_cases hst : rt.state = .recovery
  · obtain ⟨sh', heq⟩ := AgRuntime.tryUpdateState_eq cfg right sh hst
    rw [heq, Prod.mk.injEq, Prod.mk.injEq] at h
    obtain ⟨-, -, rfl⟩ := h
    refine List.eq_nil_iff_forall_not_mem.mpr fun b hb => ?_
    have hmem := (AgRuntime.mem_posting.mp (List.mem_map_of_mem (f := (·.block)) hb)).2.2.1
    rw [hT hst] at hmem
    cases hmem
  · rw [AgRuntime.tryUpdateState, if_pos hst, Prod.mk.injEq, Prod.mk.injEq] at h
    exact h.2.2.symm

theorem onRequestSent_posts_nil {right : OrdMap Nat Nat} {rt v : AgRuntime} {sh shv : AgShared}
    {l : List Transfer} (hT : rt.state = .recovery → right.keys = [])
    (h : rt.onRequestSent cfg right sh = some (v, shv, l)) : l = [] := by
  obtain ⟨⟨u, shu, l'⟩, hu, h⟩ := Option.bind_eq_some_iff.mp h
  rw [AgRuntime.notifyRecovery_none] at hu
  split at hu
  next hst =>
    obtain rfl := tryUpdateState_posts_nil (fun _ => hT hst) (Option.some.inj hu)
    simp only [Option.pure_def, Option.some.injEq, Prod.mk.injEq, List.nil_append] at h
    exact tryUpdateState_posts_nil (fun _ => hT hst) (Prod.ext rfl (Prod.ext rfl h.2.2))
  next => cases hu

/-- A node that is alone does not send blocks to itself. -/
theorem Step.block_nil (hone : ∀ i : Fin cfg.nodes, right i = i) (hnil : ∀ i, t.block i = [])
    (hT : ∀ i, (t.node i).state = .recovery → (t.node i).toRecover.keys = [])
    (hst : Step cfg t e t') (i : Fin cfg.nodes) : t'.block i = [] := by
  have hpost : ∀ (k : Fin cfg.nodes) (l : List Transfer), l = [] →
      update t.block k (t.block k ++ l) i = [] := by
    rintro k _ rfl
    rw [List.append_nil, update_eq_self]
    exact hnil i
  cases hst with
  | leave => exact hnil i
  | request hq hrt =>
    rw [AgRuntime.notifyRecvRecoveryRequest_eq] at hrt
    split at hrt
    next =>
      refine hpost _ _ (tryUpdateState_posts_nil (fun hst => ?_) (Option.some.inj hrt))
      rw [hone]
      exact hT _ hst
    next => cases hrt
  | requestAck hq hrt =>
    refine hpost _ _ ?_
    split at hrt
    next => exact onRequestSent_posts_nil (fun hst => by rw [hone]; exact hT _ hst) hrt
    next =>
      rw [Option.some.injEq, Prod.mk.injEq, Prod.mk.injEq] at hrt
      exact hrt.2.2.symm
  | block hb hrt =>
    rw [hnil] at hb
    cases hb
  | blockAck hb hrt =>
    rw [AgRuntime.onTransferSent_eq] at hrt
    refine hpost _ _ (tryUpdateState_posts_nil (fun hst => ?_) hrt)
    rw [hone]
    exact hT _ hst

end Alone

section Run

variable {cfg : AgConfig} {recv : Fin cfg.nodes → cfg.Bitmap} {tr : History cfg.nodes}
  {t : AgRing cfg.nodes}

theorem blocksMissing
    (h : (recovery cfg fun i => (recv i).toList).Trace (initial fun i => (recv i).toList) tr t) :
    BlocksMissing t := by
  intro i b hb
  rcases Nat.lt_or_ge cfg.nodes 2 with hlt | hn
  · have hone : cfg.nodes = 1 := by
      have := i.pos
      omega
    have hnil : ∀ i, t.block i = [] := by
      refine h.invariant (I := fun _ t => ∀ i, t.block i = []) (fun _ => rfl) ?_
      intro tr t e t' htr hnil hst
      refine hst.block_nil (right_eq_self hone) hnil fun i hi => ?_
      exact (recovery_log htr).recovered_of_alone (fun i => (recv i).length_toList) hone i
        (by rw [hi]; exact fun h => by cases h)
    rw [hnil] at hb
    cases hb
  · exact (((recovery_inv hn (h.reachable rfl)).link i).flight _ (List.mem_map_of_mem hb)).2

/-- **The run lemma.** -/
theorem recovery_totals
    (h : (recovery cfg fun i => (recv i).toList).Trace (initial fun i => (recv i).toList) tr t) :
    Totals cfg (fun i => (recv i).toList) tr t := by
  refine h.invariant (I := fun tr t => Totals cfg (fun i => (recv i).toList) tr t) ?_ ?_
  · refine ⟨fun _ => List.nodup_nil, fun _ => List.nil_subset _, ?_, ?_⟩
    · exact (Finset.sum_eq_zero fun _ _ => rfl).symm
    · exact (Finset.sum_eq_zero fun _ _ => rfl).symm
  · exact fun htr ih hst => ih.step (recovery_log htr) (blocksMissing htr) hst

/-- A finished node has received all that it had to recover. -/
theorem length_recovered
    (h : (recovery cfg fun i => (recv i).toList).Trace (initial fun i => (recv i).toList) tr t)
    {i : Fin cfg.nodes} (hfin : (t.node i).state = .finished) :
    (recovered i tr).length =
      (initialToRecover cfg (fun i => (recv i).toList) i).values.length := by
  have hlog := recovery_log h
  have htotals := recovery_totals h
  have hne : (t.node i).state ≠ .multicast := by
    rw [hfin]
    exact fun h => by cases h
  have hT : (t.node i).toRecover.keys = [] := by
    rcases Nat.lt_or_ge cfg.nodes 2 with hlt | hn
    · refine hlog.recovered_of_alone (fun i => (recv i).length_toList) ?_ i hne
      have := i.pos
      omega
    · exact (recovered_of_finished hn (h.reachable rfl) hfin).1
  have hperm : (recovered i tr).Perm (missed cfg (fun i => (recv i).toList) i) := by
    refine (List.perm_ext_iff_of_nodup (htotals.nodup i) (OrdMap.nodup_keys _)).mpr fun b => ?_
    refine ⟨fun hb => htotals.subset i hb, fun hb => ?_⟩
    by_contra hno
    have hmem := (hlog.toRecover i hne b).mpr ⟨hb, hno⟩
    rw [hT] at hmem
    cases hmem
  rw [hperm.length_eq, missed, OrdMap.keys, OrdMap.values, List.length_map, List.length_map]
  rfl

end Run

/-! ## When the statistics agree -/

theorem length_le_sum {l : List Nat} (h : ∀ x ∈ l, 1 ≤ x) : l.length ≤ l.sum := by
  induction l with
  | nil => exact Nat.le_refl _
  | cons a l ih =>
    have ha := h a List.mem_cons_self
    have hl := ih fun x hx => h x (List.mem_cons_of_mem _ hx)
    rw [List.length_cons, List.sum_cons]
    omega

/-- Positive numbers add up to their number if all are one. -/
theorem length_eq_sum_iff {l : List Nat} (h : ∀ x ∈ l, 1 ≤ x) :
    l.length = l.sum ↔ ∀ x ∈ l, x = 1 := by
  induction l with
  | nil => simp
  | cons a l ih =>
    have ha := h a List.mem_cons_self
    have hpos : ∀ x ∈ l, 1 ≤ x := fun x hx => h x (List.mem_cons_of_mem _ hx)
    have hle := length_le_sum hpos
    rw [List.forall_mem_cons, ← ih hpos, List.length_cons, List.sum_cons]
    omega

theorem initialToRecover_pos {cfg : AgConfig} {recv : Fin cfg.nodes → List Bool}
    {i : Fin cfg.nodes} (h : x ∈ (initialToRecover cfg recv i).values) : 1 ≤ x := by
  obtain ⟨e, he, rfl⟩ := List.mem_map.mp h
  exact AgConfig.buildToRecover_pos he

/-- **The retransmitted chunks are accounted for**, once all nodes are finished, exactly if no node
had to recover more than one chunk of a block. -/
theorem accounted_iff {cfg : AgConfig} {recv : Fin cfg.nodes → cfg.Bitmap} {t : AgRing cfg.nodes}
    (h : (recovery cfg fun i => (recv i).toList).Reachable t)
    (hfin : ∀ i, (t.node i).state = .finished) :
    Accounted cfg (fun i => (recv i).toList) t.shared ↔
      ∀ i, ∀ chunks ∈ (initialToRecover cfg (fun i => (recv i).toList) i).values, chunks = 1 := by
  obtain ⟨_, tr, rfl, htr⟩ := Machine.Reachable.trace h
  have htotals := recovery_totals htr
  have hretr : t.shared.retrChunksTot =
      ∑ i, (initialToRecover cfg (fun i => (recv i).toList) i).values.length := by
    rw [htotals.retr]
    exact Finset.sum_congr rfl fun i _ => length_recovered htr (hfin i)
  have hmissed : t.shared.missedDataChunksTot =
      ∑ i, (initialToRecover cfg (fun i => (recv i).toList) i).values.sum := by
    rw [htotals.missedData]
    refine Finset.sum_congr rfl fun i _ => if_neg ?_
    rw [hfin i]
    exact fun h => by cases h
  have hiff : t.shared.retrChunksTot =
      ∑ i, (initialToRecover cfg (fun i => (recv i).toList) i).values.sum ↔
        ∀ i, ∀ chunks ∈ (initialToRecover cfg (fun i => (recv i).toList) i).values, chunks = 1 := by
    rw [hretr, Finset.sum_eq_sum_iff_of_le fun i _ => length_le_sum fun _ => initialToRecover_pos]
    simp only [Finset.mem_univ, true_implies]
    exact forall_congr' fun i => length_eq_sum_iff fun _ => initialToRecover_pos
  constructor
  · exact fun hacc => hiff.mp hacc.retransmitted
  · exact fun hone => ⟨hiff.mpr hone, (hiff.mpr hone).trans hmissed.symm⟩

/-- The first of two nodes misses the block of the second, which is one chunk. -/
theorem accounted_iff_pair : ∃ t,
    ((recovery ⟨2, 1, 30000, 1, 0⟩ fun i => (pairRecv i).toList).Reachable t ∧
      (∀ i, (t.node i).state = .finished)) ∧
    (Accounted ⟨2, 1, 30000, 1, 0⟩ (fun i => (pairRecv i).toList) t.shared ↔
      ∀ i, ∀ chunks ∈ (initialToRecover ⟨2, 1, 30000, 1, 0⟩
        (fun i => (pairRecv i).toList) i).values, chunks = 1) := by
  obtain ⟨t, h, hfin⟩ : ∃ t,
      (recovery ⟨2, 1, 30000, 1, 0⟩ fun i => (pairRecv i).toList).Reachable t ∧
        ∀ i, (t.node i).state = .finished :=
    ⟨_, .step (.step (.step (.step (.step (.step (.step (.step (.init rfl)
      (.leave (i := 0) rfl)) (.leave (i := 1) rfl)) (.request (i := 1) rfl rfl))
      (.request (i := 0) rfl rfl)) (.block (i := 0) rfl rfl)) (.blockAck (i := 1) rfl rfl))
      (.requestAck (i := 1) rfl rfl)) (.requestAck (i := 0) rfl rfl), by decide⟩
  exact ⟨t, ⟨h, hfin⟩, accounted_iff h hfin⟩

/-- The first of two nodes misses the block of the second, which is two chunks. -/
def missedPair : Fin 2 → AgConfig.Bitmap ⟨2, 60000, 30000, 1, 0⟩
  | 0 => #v[true, true, false, false]
  | 1 => #v[true, true, true, true]

/-- Two chunks were missed, and one is counted as retransmitted. -/
theorem not_accounted_pair : ∃ t,
    ((recovery ⟨2, 60000, 30000, 1, 0⟩ fun i => (missedPair i).toList).Reachable t ∧
      (∀ i, (t.node i).state = .finished)) ∧
    ¬Accounted ⟨2, 60000, 30000, 1, 0⟩ (fun i => (missedPair i).toList) t.shared := by
  refine ⟨_, ⟨.step (.step (.step (.step (.step (.step (.step (.step (.init rfl)
    (.leave (i := 0) rfl)) (.leave (i := 1) rfl)) (.request (i := 1) rfl rfl))
    (.request (i := 0) rfl rfl)) (.block (i := 0) rfl rfl)) (.blockAck (i := 1) rfl rfl))
    (.requestAck (i := 1) rfl rfl)) (.requestAck (i := 0) rfl rfl), by decide⟩, ?_⟩
  intro hacc
  exact absurd hacc.missed (by decide)

end AgRing
end Roce
