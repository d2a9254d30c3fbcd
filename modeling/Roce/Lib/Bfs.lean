import Mathlib.Data.List.Nodup
import Mathlib.Data.List.Perm.Subperm
import Mathlib.Logic.Function.Basic
import Mathlib.Tactic.Common

/-! # Breadth-first search with predecessors

A search from a root that notes the distance of each vertex and all its predecessors on shortest
paths, and that goes on only from some of the vertices. It finds any function that behaves like a
distance. -/

namespace Roce

open Function

variable {α : Type u}

/-- The vertices that wait, the distances of the vertices seen so far and their predecessors. -/
structure Bfs (α : Type u) where
  queue : List α
  dist : α → Option Nat
  preds : α → List α

namespace Bfs

/-- The arcs from a vertex. -/
def arcsFrom (nbrs : α → List α) (u : α) : List (α × α) := (nbrs u).map (u, ·)

variable {nbrs : α → List α} {done : List α}

theorem mem_arcs : (u, v) ∈ done.flatMap (arcsFrom nbrs) ↔ u ∈ done ∧ v ∈ nbrs u := by
  simp only [List.mem_flatMap, arcsFrom, List.mem_map, Prod.mk.injEq]
  constructor
  · rintro ⟨w, hw, x, hx, rfl, rfl⟩
    exact ⟨hw, hx⟩
  · rintro ⟨hu, hv⟩
    exact ⟨u, hu, v, hv, rfl, rfl⟩

theorem nodup_arcs (hdone : done.Nodup) (hn : ∀ u ∈ done, (nbrs u).Nodup) :
    (done.flatMap (arcsFrom nbrs)).Nodup := by
  refine List.nodup_flatMap.mpr ⟨fun u hu => ?_, hdone.pairwise_of_forall_ne ?_⟩
  · exact (hn u hu).map fun v w h => congrArg Prod.snd h
  · intro u _ w _ hne a hu hw
    obtain ⟨v, -, rfl⟩ := List.mem_map.mp hu
    obtain ⟨x, -, hx⟩ := List.mem_map.mp hw
    exact hne (congrArg Prod.fst hx).symm

variable [DecidableEq α] (nbrs) (root : α) (through : α → Bool)

/-- What the search does with a vertex that has a neighbour at the distance `d`. -/
def discover (d : Nat) (st : Bfs α) (next : α) : Bfs α :=
  if (st.dist next).isSome then st else
    { st with
      queue := if through next then st.queue ++ [next] else st.queue
      dist := update st.dist next (some (d + 1)) }

/-- Notes `now` as a predecessor, if its distance is `d` and that of `next` is `d + 1`. -/
def record (now : α) (d : Nat) (st : Bfs α) (next : α) : Bfs α :=
  if st.dist next = some (d + 1) then
    { st with preds := update st.preds next (st.preds next ++ [now]) }
  else st

/-- What the search does with an arc from `now`, which is at the distance `d`. -/
def visit (now : α) (d : Nat) (st : Bfs α) (next : α) : Bfs α :=
  record now d (discover through d st next) next

def expand (st : Bfs α) (now : α) : Bfs α :=
  (nbrs now).foldl (visit through now ((st.dist now).getD 0)) st

def run : Nat → Bfs α → Option (Bfs α)
  | 0, _ => none
  | fuel + 1, st =>
    match st.queue with
    | [] => some st
    | now :: rest => run fuel (expand nbrs through { st with queue := rest } now)

def start : Bfs α := ⟨[root], update (fun _ => none) root (some 0), fun _ => []⟩

/-- The vertices from which the search goes on. -/
def Inner (v : α) : Prop := v = root ∨ through v = true

/-- A distance from the root on some vertices that the arcs do not leave. -/
structure IsDist (verts : List α) (D : α → Nat) : Prop where
  root_mem : root ∈ verts
  mem : ∀ u ∈ verts, ∀ v ∈ nbrs u, v ∈ verts
  nodup : ∀ u ∈ verts, (nbrs u).Nodup
  zero : D root = 0
  step : ∀ u ∈ verts, Inner root through u → ∀ v ∈ nbrs u, D v ≤ D u + 1
  pred : ∀ v ∈ verts, v ≠ root →
    ∃ u ∈ verts, Inner root through u ∧ v ∈ nbrs u ∧ D v = D u + 1

/-- The state after the arcs of `arcs` were visited and the vertices of `done` left the queue. -/
structure Visited (verts : List α) (D : α → Nat) (arcs : List (α × α)) (done : List α)
    (st : Bfs α) :
    Prop where
  arcs_mem : ∀ a ∈ arcs, a.1 ∈ done ∧ a.2 ∈ verts
  dist : ∀ v k, st.dist v = some k ↔ (v = root ∨ ∃ u, (u, v) ∈ arcs) ∧ k = D v
  preds : ∀ v, st.preds v = (arcs.filter fun a => a.2 = v ∧ D v = D a.1 + 1).map (·.1)
  nodup : (done ++ st.queue).Nodup
  mem : ∀ v, v ∈ done ++ st.queue ↔ v = root ∨ through v = true ∧ ∃ u, (u, v) ∈ arcs
  sorted : st.queue.Pairwise (D · ≤ D ·)

variable {nbrs through root} {verts : List α} {D : α → Nat} {arcs : List (α × α)}
  {st : Bfs α} {now next : α}

theorem Visited.isSome_dist (h : Visited root through verts D arcs done st) :
    (st.dist v).isSome ↔ v = root ∨ ∃ u, (u, v) ∈ arcs := by
  rw [Option.isSome_iff_exists]
  constructor
  · rintro ⟨k, hk⟩
    exact ((h.dist v k).mp hk).1
  · intro hv
    exact ⟨D v, (h.dist v _).mpr ⟨hv, rfl⟩⟩

theorem Visited.inner (h : Visited root through verts D arcs done st) (hv : v ∈ done ++ st.queue) :
    Inner root through v :=
  ((h.mem v).mp hv).imp id And.left

theorem Visited.mem_verts (hd : IsDist nbrs root through verts D)
    (h : Visited root through verts D arcs done st) (hv : v ∈ done ++ st.queue) : v ∈ verts := by
  rcases (h.mem v).mp hv with rfl | ⟨-, u, hu⟩
  · exact hd.root_mem
  · exact (h.arcs_mem _ hu).2

/-- A vertex that was not seen is not nearer than the next one of the queue. This rests on the
order of the queue: a path to the vertex leaves the done vertices through the queue. -/
theorem Visited.le_of_not_done (hd : IsDist nbrs root through verts D)
    (h : Visited root through verts D (done.flatMap (arcsFrom nbrs)) done st)
    (hq : st.queue = now :: rest) (hw : w ∈ verts) (hin : Inner root through w) (hdone : w ∉ done) :
    D now ≤ D w := by
  have hqueue : ∀ w ∈ st.queue, D now ≤ D w := by
    intro w hw
    have hsorted := h.sorted
    rw [hq] at hw hsorted
    rcases List.mem_cons.mp hw with rfl | hw
    · exact Nat.le_refl _
    · exact List.rel_of_pairwise_cons hsorted hw
  generalize hk : D w = k
  induction k generalizing w with
  | zero =>
    have hroot : w = root := by
      by_contra hne
      obtain ⟨u, -, -, -, hu⟩ := hd.pred w hw hne
      omega
    have hmem := (h.mem w).mpr (.inl hroot)
    exact hk ▸ hqueue w ((List.mem_append.mp hmem).resolve_left hdone)
  | succ k ih =>
    have hroot : w ≠ root := by
      rintro rfl
      rw [hd.zero] at hk
      cases hk
    obtain ⟨u, hu, huin, harc, hstep⟩ := hd.pred w hw hroot
    by_cases hudone : u ∈ done
    · have hmem := (h.mem w).mpr (.inr ⟨hin.resolve_left hroot, u,
        List.mem_flatMap.mpr ⟨u, hudone, List.mem_map_of_mem harc⟩⟩)
      exact hk ▸ hqueue w ((List.mem_append.mp hmem).resolve_left hdone)
    · exact Nat.le_succ_of_le (ih hu huin hudone (by omega))

/-- What `discover` does to the queue. -/
theorem mem_queue_discover : v ∈ (discover through d st next).queue ↔
    v ∈ st.queue ∨ (v = next ∧ st.dist next = none ∧ through next = true) := by
  unfold discover
  cases hs : st.dist next
  · cases ht : through next <;> simp
  · simp

@[simp] theorem queue_record : (record now d st next).queue = st.queue := by
  unfold record
  split <;> rfl

@[simp] theorem dist_record : (record now d st next).dist = st.dist := by
  unfold record
  split <;> rfl

theorem preds_record : (record now d st next).preds v =
    st.preds v ++ if v = next ∧ st.dist next = some (d + 1) then [now] else [] := by
  unfold record
  split
  next hd =>
    by_cases hv : v = next
    · simp [hv, hd]
    · simp [hv]
  next hd => simp [hd]

@[simp] theorem preds_discover : (discover through d st next).preds = st.preds := by
  unfold discover
  split <;> rfl

/-- The first arc to a vertex finds its distance. -/
theorem Visited.discover (h : Visited root through verts D arcs done st)
    (hlow : st.dist next = none → D next = D now + 1)
    (hspan : ∀ v ∈ st.queue, D v ≤ D now + 1) :
    (∀ v k, (discover through (D now) st next).dist v = some k ↔
      ((v = root ∨ ∃ u, (u, v) ∈ arcs) ∨ v = next) ∧ k = D v) ∧
    (done ++ (discover through (D now) st next).queue).Nodup ∧
    (discover through (D now) st next).queue.Pairwise (D · ≤ D ·) := by
  unfold Bfs.discover
  split
  next hs =>
    refine ⟨fun v k => ?_, h.nodup, h.sorted⟩
    rw [h.dist]
    refine and_congr_left fun _ => ⟨.inl, fun hv => hv.elim id ?_⟩
    rintro rfl
    exact h.isSome_dist.mp hs
  next hs =>
    have hnone : st.dist next = none := by simpa using hs
    have hnew : ∀ v, (v = root ∨ ∃ u, (u, v) ∈ arcs) → v ≠ next := by
      rintro v hv rfl
      exact hs (h.isSome_dist.mpr hv)
    refine ⟨fun v k => ?_, ?_, ?_⟩
    · by_cases hv : v = next
      · subst hv
        simp only [update_self, Option.some.injEq, or_true, true_and, hlow hnone]
        exact eq_comm
      · simp only [update_of_ne hv, h.dist, hv, or_false]
    · split
      next ht =>
        rw [← List.append_assoc, List.nodup_append]
        refine ⟨h.nodup, List.nodup_singleton next, fun v hv w hw => ?_⟩
        rw [List.mem_singleton.mp hw]
        exact hnew v (((h.mem v).mp hv).imp id And.right)
      next => exact h.nodup
    · split
      next ht =>
        refine List.pairwise_append.mpr ⟨h.sorted, List.pairwise_singleton _ _, fun v hv w hw => ?_⟩
        rw [List.mem_singleton.mp hw, hlow hnone]
        exact hspan v hv
      next => exact h.sorted

/-- The step of the loop over the arcs of `now`. -/
theorem Visited.visit (h : Visited root through verts D arcs done st) (hnow : now ∈ done)
    (hmem : next ∈ verts) (hlow : st.dist next = none → D next = D now + 1)
    (hspan : ∀ v ∈ st.queue, D now ≤ D v ∧ D v ≤ D now + 1) :
    Visited root through verts D (arcs ++ [(now, next)]) done (visit through now (D now) st next) ∧
      ∀ v ∈ (visit through now (D now) st next).queue, D now ≤ D v ∧ D v ≤ D now + 1 := by
  obtain ⟨hdist, hnodup, hsorted⟩ := h.discover hlow fun v hv => (hspan v hv).2
  have hseen : ∀ v, (∃ u, (u, v) ∈ arcs ++ [(now, next)]) ↔ (∃ u, (u, v) ∈ arcs) ∨ v = next := by
    intro v
    simp only [List.mem_append, List.mem_singleton, Prod.mk.injEq, exists_or, exists_eq_left]
  constructor
  · constructor
    case arcs_mem =>
      intro a ha
      rcases List.mem_append.mp ha with ha | ha
      · exact h.arcs_mem a ha
      · rw [List.mem_singleton.mp ha]
        exact ⟨hnow, hmem⟩
    case dist =>
      intro v k
      rw [Bfs.visit, dist_record, hdist, hseen, or_assoc]
    case preds =>
      intro v
      have hnext : (Bfs.discover through (D now) st next).dist next = some (D now + 1) ↔
          D next = D now + 1 := by
        rw [hdist]
        exact ⟨fun h => h.2.symm, fun h => ⟨.inr rfl, h.symm⟩⟩
      rw [Bfs.visit, preds_record, preds_discover, h.preds, List.filter_append, List.map_append]
      simp only [hnext]
      refine congrArg _ ?_
      by_cases hv : v = next
      · by_cases hdn : D next = D now + 1 <;> simp [hv, hdn]
      · simp [hv, Ne.symm hv]
    case nodup => rwa [Bfs.visit, queue_record]
    case mem =>
      intro v
      rw [Bfs.visit, queue_record, List.mem_append, mem_queue_discover, ← or_assoc,
        ← List.mem_append, h.mem, hseen]
      constructor
      · rintro ((rfl | ⟨ht, hu⟩) | ⟨rfl, -, ht⟩)
        · exact .inl rfl
        · exact .inr ⟨ht, .inl hu⟩
        · exact .inr ⟨ht, .inr rfl⟩
      · rintro (rfl | ⟨ht, hu | rfl⟩)
        · exact .inl (.inl rfl)
        · exact .inl (.inr ⟨ht, hu⟩)
        · cases hs : st.dist v
          · exact .inr ⟨rfl, rfl, ht⟩
          · refine .inl ((h.isSome_dist.mp ?_).imp id fun hu => ⟨ht, hu⟩)
            rw [hs, Option.isSome_some]
    case sorted => rwa [Bfs.visit, queue_record]
  · intro v hv
    rw [Bfs.visit, queue_record] at hv
    rcases mem_queue_discover.mp hv with hv | ⟨rfl, hnone, -⟩
    · exact hspan v hv
    · rw [hlow hnone]
      exact ⟨Nat.le_succ _, Nat.le_refl _⟩

/-- The loop over the arcs of `now`. -/
theorem Visited.visits (h : Visited root through verts D arcs done st) (hnow : now ∈ done)
    (hspan : ∀ v ∈ st.queue, D now ≤ D v ∧ D v ≤ D now + 1) {nexts : List α}
    (hnexts : ∀ next ∈ nexts, next ∈ verts ∧ (st.dist next = none → D next = D now + 1)) :
    Visited root through verts D (arcs ++ nexts.map (now, ·)) done
        (nexts.foldl (Bfs.visit through now (D now)) st) ∧
      ∀ v ∈ (nexts.foldl (Bfs.visit through now (D now)) st).queue,
        D now ≤ D v ∧ D v ≤ D now + 1 := by
  induction nexts generalizing arcs st with
  | nil => exact ⟨by rwa [List.map_nil, List.append_nil], hspan⟩
  | cons next nexts ih =>
    obtain ⟨hmem, hlow⟩ := hnexts next List.mem_cons_self
    obtain ⟨h', hspan'⟩ := h.visit hnow hmem hlow hspan
    rw [List.map_cons, List.append_cons]
    refine ih h' hspan' fun w hw => ?_
    obtain ⟨hmem, hlow⟩ := hnexts w (List.mem_cons_of_mem _ hw)
    refine ⟨hmem, fun hnone => hlow ?_⟩
    -- what is not seen later was not seen before
    rw [Option.eq_none_iff_forall_ne_some] at hnone ⊢
    intro k hk
    obtain ⟨hseen, hkD⟩ := (h.dist w k).mp hk
    refine hnone k ((h'.dist w k).mpr ⟨hseen.imp id ?_, hkD⟩)
    rintro ⟨u, hu⟩
    exact ⟨u, List.mem_append_left _ hu⟩

/-- The search between two vertices: the arcs from the done vertices were visited, and the queue
spans at most two distances. -/
structure Searched (nbrs : α → List α) (root : α) (through : α → Bool) (verts : List α)
    (D : α → Nat) (done : List α) (st : Bfs α) : Prop where
  visited : Visited root through verts D (done.flatMap (arcsFrom nbrs)) done st
  span : ∀ v ∈ st.queue, ∀ w ∈ st.queue, D w ≤ D v + 1

theorem Searched.start (hd : IsDist nbrs root through verts D) :
    Searched nbrs root through verts D [] (start root) := by
  constructor
  · constructor
    case arcs_mem => simp
    case dist =>
      intro v k
      by_cases hv : v = root
      · simp [Bfs.start, hv, hd.zero, eq_comm]
      · simp [Bfs.start, hv]
    case preds => simp [Bfs.start]
    case nodup => simp [Bfs.start]
    case mem => simp [Bfs.start]
    case sorted => simp [Bfs.start]
  · intro v hv w hw
    rw [List.mem_singleton.mp hv, List.mem_singleton.mp hw]
    exact Nat.le_succ _

theorem Searched.not_done (h : Searched nbrs root through verts D done st)
    (hnone : st.dist v = none) (hv : v ∈ nbrs u) : u ∉ done := by
  intro hu
  have hseen := h.visited.isSome_dist.mpr
    (.inr ⟨u, List.mem_flatMap.mpr ⟨u, hu, List.mem_map_of_mem hv⟩⟩)
  rw [hnone] at hseen
  cases hseen

/-- A neighbour that was not seen is one step further than the next vertex of the queue. -/
theorem Searched.dist_of_none (hd : IsDist nbrs root through verts D)
    (h : Searched nbrs root through verts D done st) (hq : st.queue = now :: rest)
    (hv : v ∈ nbrs now) (hnone : st.dist v = none) : D v = D now + 1 := by
  have hmem : now ∈ done ++ st.queue := by simp [hq]
  have hverts := h.visited.mem_verts hd hmem
  have hroot : v ≠ root := by
    rintro rfl
    have hseen := h.visited.isSome_dist.mpr (.inl rfl)
    rw [hnone] at hseen
    cases hseen
  obtain ⟨u, hu, huin, harc, hstep⟩ := hd.pred v (hd.mem now hverts v hv) hroot
  have hnear := h.visited.le_of_not_done hd hq hu huin (h.not_done hnone harc)
  have hfar := hd.step now hverts (h.visited.inner hmem) v hv
  omega

/-- One turn of the loop over the queue. -/
theorem Searched.expand (hd : IsDist nbrs root through verts D)
    (h : Searched nbrs root through verts D done st) (hq : st.queue = now :: rest) :
    Searched nbrs root through verts D (done ++ [now])
      (expand nbrs through { st with queue := rest } now) := by
  have hv := h.visited
  have hmem : now ∈ done ++ st.queue := by simp [hq]
  have hin := hv.inner hmem
  have hverts := hv.mem_verts hd hmem
  have hnowD : (st.dist now).getD 0 = D now := by
    have hdist : st.dist now = some (D now) :=
      (hv.dist now _).mpr ⟨((hv.mem now).mp hmem).imp id And.right, rfl⟩
    rw [hdist, Option.getD_some]
  have hsorted := hv.sorted
  rw [hq] at hsorted
  have hpopped : Visited root through verts D (done.flatMap (arcsFrom nbrs)) (done ++ [now])
      { st with queue := rest } := by
    have hsplit : done ++ [now] ++ rest = done ++ st.queue := by
      rw [hq, List.append_assoc, List.singleton_append]
    constructor
    case arcs_mem =>
      exact fun a ha => ⟨List.mem_append_left _ (hv.arcs_mem a ha).1, (hv.arcs_mem a ha).2⟩
    case dist => exact hv.dist
    case preds => exact hv.preds
    case nodup => exact hsplit ▸ hv.nodup
    case mem => exact hsplit ▸ hv.mem
    case sorted => exact hsorted.tail
  have hlow : ∀ next ∈ nbrs now, next ∈ verts ∧ (st.dist next = none → D next = D now + 1) :=
    fun next hnext => ⟨hd.mem now hverts next hnext, h.dist_of_none hd hq hnext⟩
  obtain ⟨hvisits, hspan⟩ := hpopped.visits (List.mem_append_right _ (List.mem_singleton_self now))
    (fun v hv => ⟨List.rel_of_pairwise_cons hsorted hv,
      h.span now (by simp [hq]) v (by simp [hq, hv])⟩) hlow
  constructor
  · rw [Bfs.expand, hnowD, List.flatMap_append, List.flatMap_singleton]
    exact hvisits
  · intro v hv w hw
    rw [Bfs.expand, hnowD] at hv hw
    exact Nat.le_trans (hspan w hw).2 (Nat.succ_le_succ (hspan v hv).1)

/-- The search ends, as no vertex enters the queue twice. -/
theorem Searched.run (hd : IsDist nbrs root through verts D)
    (h : Searched nbrs root through verts D done st) (hfuel : verts.length < done.length + fuel) :
    ∃ done' st', run nbrs through fuel st = some st' ∧ st'.queue = [] ∧
      Searched nbrs root through verts D done' st' := by
  induction fuel generalizing done st with
  | zero =>
    have hnodup := (List.nodup_append.mp h.visited.nodup).1
    have hle := (List.subperm_of_subset hnodup fun v hv =>
      h.visited.mem_verts hd (List.mem_append_left _ hv)).length_le
    omega
  | succ fuel ih =>
    unfold Bfs.run
    split
    next hq => exact ⟨done, st, rfl, hq, h⟩
    next now rest hq =>
      refine ih (h.expand hd hq) ?_
      rw [List.length_append, List.length_singleton]
      omega

/-- When the queue is empty, all vertices were seen: by induction on the distance. -/
theorem Searched.seen (hd : IsDist nbrs root through verts D)
    (h : Searched nbrs root through verts D done st) (hq : st.queue = []) (hv : v ∈ verts) :
    v = root ∨ ∃ u, (u, v) ∈ done.flatMap (arcsFrom nbrs) := by
  generalize hk : D v = k
  induction k generalizing v with
  | zero =>
    refine .inl (by_contra fun hne => ?_)
    obtain ⟨u, -, -, -, hu⟩ := hd.pred v hv hne
    omega
  | succ k ih =>
    by_cases hroot : v = root
    · exact .inl hroot
    · obtain ⟨u, hu, huin, harc, hstep⟩ := hd.pred v hv hroot
      have hdone : u ∈ done := by
        have hmem := (h.visited.mem u).mpr (by
          rcases huin with huroot | ht
          · exact .inl huroot
          · exact (ih hu (by omega)).imp id fun harc => ⟨ht, harc⟩)
        rwa [hq, List.append_nil] at hmem
      exact .inr ⟨u, List.mem_flatMap.mpr ⟨u, hdone, List.mem_map_of_mem harc⟩⟩

/-- **Breadth-first search**: it finds the distance of every vertex, and as its predecessors the
vertices one step nearer from which the search goes on. -/
theorem run_spec (hd : IsDist nbrs root through verts D) (hfuel : verts.length < fuel) :
    ∃ st, run nbrs through fuel (start root) = some st ∧ ∀ v ∈ verts, st.dist v = some (D v) ∧
      (st.preds v).Nodup ∧ ∀ u, u ∈ st.preds v ↔
        u ∈ verts ∧ Inner root through u ∧ v ∈ nbrs u ∧ D v = D u + 1 := by
  obtain ⟨done, st, hrun, hq, h⟩ := (Searched.start hd).run hd
    (Nat.lt_of_lt_of_eq hfuel (Nat.zero_add fuel).symm)
  have hv := h.visited
  have hnodup := hv.nodup
  rw [hq, List.append_nil] at hnodup
  have hdone : ∀ u, u ∈ done ↔ u ∈ verts ∧ Inner root through u := by
    intro u
    constructor
    · intro hu
      exact ⟨hv.mem_verts hd (List.mem_append_left _ hu), hv.inner (List.mem_append_left _ hu)⟩
    · rintro ⟨hu, hin⟩
      have hmem := (hv.mem u).mpr (by
        rcases hin with hroot | ht
        · exact .inl hroot
        · exact (h.seen hd hq hu).imp id fun harc => ⟨ht, harc⟩)
      rwa [hq, List.append_nil] at hmem
  refine ⟨st, hrun, fun v hmem => ⟨(hv.dist v _).mpr ⟨h.seen hd hq hmem, rfl⟩, ?_, fun u => ?_⟩⟩
  · have harcs := nodup_arcs hnodup fun u hu => hd.nodup u ((hdone u).mp hu).1
    rw [hv.preds]
    refine (harcs.filter _).map_on fun a ha b hb hab => ?_
    have ha : a.2 = v := (by simpa using (List.mem_filter.mp ha).2 : _ ∧ _).1
    have hb : b.2 = v := (by simpa using (List.mem_filter.mp hb).2 : _ ∧ _).1
    exact Prod.ext hab (ha.trans hb.symm)
  · simp only [hv.preds, List.mem_map, List.mem_filter, decide_eq_true_eq, Prod.exists]
    constructor
    · rintro ⟨_, _, ⟨harc, rfl, hstep⟩, rfl⟩
      obtain ⟨hu, hnbr⟩ := mem_arcs.mp harc
      exact ⟨((hdone _).mp hu).1, ((hdone _).mp hu).2, hnbr, hstep⟩
    · rintro ⟨hu, hin, hnbr, hstep⟩
      exact ⟨u, v, ⟨mem_arcs.mpr ⟨(hdone u).mpr ⟨hu, hin⟩, hnbr⟩, rfl, hstep⟩, rfl⟩

end Bfs
end Roce
