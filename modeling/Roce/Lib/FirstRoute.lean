import Roce.Lib.Bfs
import Mathlib.Order.Lattice.Nat

/-! # The routes that a breadth-first search finds first

When the neighbours of each vertex are visited in an order, the first predecessor that a search
notes at a vertex is the one before it on the first of the shortest routes to it: routes are
compared at the first vertex where they differ. -/

namespace Roce

open Function

namespace Bfs

variable {α : Type u}

section
variable (nbrs : α → List α) (root : α) (through : α → Bool) (r : α → α → Prop)

/-- The vertices of a route from the root to a vertex, the last one first and without the root. -/
inductive Route : List α → α → Prop
  | nil : Route [] root
  | cons : Route p u → Inner root through u → v ∈ nbrs u → Route (v :: p) v

/-- The first of two routes, which differ first at the last position where they do. -/
inductive Earlier : List α → List α → Prop
  | head : r u v → Earlier (u :: p) (v :: p)
  | tail : Earlier p q → Earlier (u :: p) (v :: q)

def Shortest (p : List α) (v : α) : Prop :=
  Route nbrs root through p v ∧ ∀ q, Route nbrs root through q v → p.length ≤ q.length

def First (p : List α) (v : α) : Prop :=
  Shortest nbrs root through p v ∧ ∀ q, Shortest nbrs root through q v → q = p ∨ Earlier r p q

end

variable {nbrs : α → List α} {root : α} {through : α → Bool} {r : α → α → Prop}

theorem Earlier.asymm (hr : ∀ u v, r u v → ¬r v u) (h : Earlier r p q) : ¬Earlier r q p := by
  have hirrefl : ∀ p, ¬Earlier r p p := by
    intro p
    induction p with
    | nil => exact nofun
    | cons u p ih =>
      intro h
      cases h with
      | head h => exact hr u u h h
      | tail h => exact ih h
  induction h with
  | head h =>
    intro h'
    cases h' with
    | head h' => exact hr _ _ h h'
    | tail h' => exact hirrefl _ h'
  | tail h ih =>
    intro h'
    cases h' with
    | head h' => exact hirrefl _ h
    | tail h' => exact ih h'

theorem Earlier.trans (hr : ∀ u v w, r u v → r v w → r u w) (h : Earlier r p q)
    (h' : Earlier r q s) : Earlier r p s := by
  induction h generalizing s with
  | head h =>
    cases h' with
    | head h' => exact .head (hr _ _ _ h h')
    | tail h' => exact .tail h'
  | tail h ih =>
    cases h' with
    | head => exact .tail h
    | tail h' => exact .tail (ih h')

theorem First.unique (hr : ∀ u v, r u v → ¬r v u) (hp : First nbrs root through r p v)
    (hq : First nbrs root through r q v) : p = q := by
  rcases hp.2 q hq.1 with rfl | hpq
  · rfl
  rcases hq.2 p hp.1 with rfl | hqp
  · rfl
  exact absurd hqp (hpq.asymm hr)

/-! ## The distance along routes -/

section
variable (nbrs root through)

/-- The arcs that the search can take. -/
def innerNbrs [DecidableEq α] (u : α) : List α := if u = root ∨ through u = true then nbrs u else []

open Classical in
/-- The vertices that a route leads to, among some. -/
noncomputable def reached (verts : List α) : List α :=
  verts.filter fun v => ∃ p, Route nbrs root through p v

/-- The length of the shortest routes. -/
noncomputable def routeDist (v : α) : Nat :=
  sInf {k | ∃ p, Route nbrs root through p v ∧ p.length = k}

end

theorem mem_innerNbrs [DecidableEq α] : v ∈ innerNbrs nbrs root through u ↔ Inner root through u ∧
    v ∈ nbrs u := by
  unfold innerNbrs Inner
  split
  next h => simp [h]
  next h => simp [h]

theorem mem_reached : v ∈ reached nbrs root through verts ↔
    v ∈ verts ∧ ∃ p, Route nbrs root through p v := by
  simp [reached]

theorem Route.headD (h : Route nbrs root through p v) : p.headD root = v := by
  cases h with
  | nil => rfl
  | cons => rfl

theorem Route.exists_dist (h : Route nbrs root through p v) :
    ∃ q, Route nbrs root through q v ∧ q.length = routeDist nbrs root through v :=
  Nat.sInf_mem (s := {k | ∃ p, Route nbrs root through p v ∧ p.length = k}) ⟨p.length, p, h, rfl⟩

theorem Route.dist_le (h : Route nbrs root through p v) :
    routeDist nbrs root through v ≤ p.length :=
  Nat.sInf_le ⟨p, h, rfl⟩

theorem isDist_routeDist [DecidableEq α] {verts : List α} (hroot : root ∈ verts)
    (hmem : ∀ u ∈ verts, ∀ v ∈ nbrs u, v ∈ verts) (hnodup : ∀ u ∈ verts, (nbrs u).Nodup) :
    IsDist (innerNbrs nbrs root through) root through (reached nbrs root through verts)
      (routeDist nbrs root through) := by
  constructor
  case root_mem => exact mem_reached.mpr ⟨hroot, [], .nil⟩
  case mem =>
    intro u hu v hv
    obtain ⟨hu, p, hp⟩ := mem_reached.mp hu
    obtain ⟨hin, hv⟩ := mem_innerNbrs.mp hv
    exact mem_reached.mpr ⟨hmem u hu v hv, v :: p, hp.cons hin hv⟩
  case nodup =>
    intro u hu
    unfold innerNbrs
    split
    · exact hnodup u (mem_reached.mp hu).1
    · exact .nil
  case zero => exact Nat.le_zero.mp (Route.nil : Route nbrs root through [] root).dist_le
  case step =>
    intro u hu hin v hv
    obtain ⟨-, p, hp⟩ := mem_reached.mp hu
    obtain ⟨q, hq, hlen⟩ := hp.exists_dist
    rw [← hlen]
    exact (hq.cons hin (mem_innerNbrs.mp hv).2).dist_le
  case pred =>
    intro v hv hne
    obtain ⟨hmemv, p, hp⟩ := mem_reached.mp hv
    obtain ⟨q, hq, hlen⟩ := hp.exists_dist
    cases hq with
    | nil => exact absurd rfl hne
    | @cons q u _ hq hin hv =>
      have hu : u ∈ reached nbrs root through verts := by
        refine mem_reached.mpr ⟨?_, q, hq⟩
        clear hlen hin hv
        induction hq with
        | nil => exact hroot
        | cons _ _ hmem' ih => exact hmem _ ih _ hmem'
      refine ⟨u, hu, hin, mem_innerNbrs.mpr ⟨hin, hv⟩, le_antisymm ?_ ?_⟩
      · obtain ⟨q', hq', hlen'⟩ := hq.exists_dist
        rw [← hlen']
        exact (hq'.cons hin hv).dist_le
      · rw [← hlen]
        exact Nat.succ_le_succ hq.dist_le

theorem First.nil : First nbrs root through r [] root := by
  refine ⟨⟨.nil, fun q _ => Nat.zero_le _⟩, fun q hq => .inl ?_⟩
  exact List.eq_nil_of_length_eq_zero (Nat.le_zero.mp (hq.2 [] .nil))

/-! ## The order of the queue -/

variable {verts : List α} {D : α → Nat}

theorem IsDist.dist_le (hd : IsDist nbrs root through verts D) (h : Route nbrs root through p v) :
    v ∈ verts ∧ D v ≤ p.length := by
  induction h with
  | nil => exact ⟨hd.root_mem, hd.zero.le⟩
  | cons _ hin hv ih => exact ⟨hd.mem _ ih.1 _ hv,
      (hd.step _ ih.1 hin _ hv).trans (Nat.succ_le_succ ih.2)⟩

theorem IsDist.exists_route (hd : IsDist nbrs root through verts D) (hv : v ∈ verts) :
    ∃ p, Route nbrs root through p v ∧ p.length = D v := by
  generalize hk : D v = k
  induction k generalizing v with
  | zero =>
    have hroot : v = root := by
      by_contra hne
      obtain ⟨u, -, -, -, hu⟩ := hd.pred v hv hne
      omega
    exact ⟨[], hroot ▸ .nil, rfl⟩
  | succ k ih =>
    have hroot : v ≠ root := by
      rintro rfl
      rw [hd.zero] at hk
      cases hk
    obtain ⟨u, hu, hin, harc, hstep⟩ := hd.pred v hv hroot
    obtain ⟨p, hp, hlen⟩ := ih hu (by omega)
    exact ⟨v :: p, hp.cons hin harc, congrArg Nat.succ hlen⟩

theorem IsDist.shortest_iff (hd : IsDist nbrs root through verts D) (hv : v ∈ verts) :
    Shortest nbrs root through p v ↔ Route nbrs root through p v ∧ p.length = D v := by
  refine and_congr_right fun h => ⟨fun hmin => ?_, fun hlen q hq => hlen ▸ (hd.dist_le hq).2⟩
  obtain ⟨q, hq, hlen⟩ := hd.exists_route hv
  exact le_antisymm (hlen ▸ hmin q hq) (hd.dist_le h).2

/-- Every shortest route to the second vertex has an earlier one to the first, if they are as
long. -/
def Sooner (nbrs : α → List α) (root : α) (through : α → Bool) (r : α → α → Prop) (D : α → Nat)
    (u w : α) : Prop :=
  D u ≤ D w ∧ (D u = D w → ∀ q, Route nbrs root through q w → q.length = D w →
    ∃ p, Route nbrs root through p u ∧ p.length = D u ∧ Earlier r p q)

variable [DecidableEq α] {st st' : Bfs α} {now : α} {done : List α}

/-- What the loop over the arcs of a vertex appends to the queue. -/
theorem queue_visits (through : α → Bool) (now : α) (d : Nat) (nexts : List α) (st : Bfs α) :
    ∃ news, (nexts.foldl (visit through now d) st).queue = st.queue ++ news ∧
      news.Sublist nexts ∧ ∀ v ∈ news, st.dist v = none := by
  induction nexts generalizing st with
  | nil => exact ⟨[], (List.append_nil _).symm, .slnil, fun _ hv => absurd hv List.not_mem_nil⟩
  | cons next nexts ih =>
    obtain ⟨news, hqueue, hsub, hnone⟩ := ih (visit through now d st next)
    have hdist : ∀ v, (visit through now d st next).dist v = none → st.dist v = none := by
      intro v hv
      rw [visit, dist_record, discover] at hv
      split at hv
      · exact hv
      · by_cases hvn : v = next
        · simp [hvn] at hv
        · dsimp only at hv
          rwa [update_of_ne hvn] at hv
    rw [List.foldl_cons, hqueue, visit, queue_record, discover]
    split
    next => exact ⟨news, rfl, hsub.cons next, fun v hv => hdist v (hnone v hv)⟩
    next hs =>
      split
      next ht =>
        refine ⟨next :: news, ?_, hsub.cons_cons next, ?_⟩
        · rw [List.append_assoc, List.singleton_append]
        · refine List.forall_mem_cons.mpr ⟨by simpa using hs, fun v hv => hdist v (hnone v hv)⟩
      next => exact ⟨news, rfl, hsub.cons next, fun v hv => hdist v (hnone v hv)⟩

/-- A shortest route to a vertex that is seen now goes through the queue. -/
theorem Searched.through_queue (hd : IsDist nbrs root through verts D)
    (h : Searched nbrs root through verts D done st) (hq : st.queue = now :: rest)
    (hv : v ∈ nbrs now) (hnone : st.dist v = none) (hroute : Route nbrs root through q v)
    (hlen : q.length = D v) : ∃ u q', q = v :: q' ∧ Route nbrs root through q' u ∧
      Inner root through u ∧ v ∈ nbrs u ∧ q'.length = D u ∧ D u = D now ∧ u ∈ now :: rest := by
  have hstep := h.dist_of_none hd hq hv hnone
  cases hroute with
  | nil =>
    rw [hd.zero] at hstep
    cases hstep
  | @cons q u _ hroute hin harc =>
    obtain ⟨hu, hle⟩ := hd.dist_le hroute
    have hfar := hd.step u hu hin v harc
    rw [List.length_cons] at hlen
    have hnot := h.not_done hnone harc
    refine ⟨u, q, rfl, hroute, hin, harc, by omega, by omega, ?_⟩
    -- the vertices that are as near as `now` were seen from the done ones
    have hmem : u ∈ done ++ st.queue := by
      by_cases hroot : u = root
      · exact (h.visited.mem u).mpr (.inl hroot)
      · obtain ⟨x, hx, hxin, hxu, hxd⟩ := hd.pred u hu hroot
        refine (h.visited.mem u).mpr (.inr ⟨hin.resolve_left hroot, x,
          List.mem_flatMap.mpr ⟨x, ?_, List.mem_map_of_mem hxu⟩⟩)
        by_contra hxdone
        have := h.visited.le_of_not_done hd hq hx hxin hxdone
        omega
    rw [← hq]
    exact (List.mem_append.mp hmem).resolve_left hnot

/-- One turn of the loop over the queue, where the arcs of the vertex are visited in order. -/
theorem Searched.sooner (hd : IsDist nbrs root through verts D)
    (h : Searched nbrs root through verts D done st) (hq : st.queue = now :: rest)
    (hr : (nbrs now).Pairwise r)
    (hord : (done ++ st.queue).Pairwise (Sooner nbrs root through r D)) :
    (done ++ [now] ++ (Bfs.expand nbrs through { st with queue := rest } now).queue).Pairwise
      (Sooner nbrs root through r D) := by
  obtain ⟨news, hqueue, hsub, hnone⟩ :=
    queue_visits through now ((st.dist now).getD 0) (nbrs now) { st with queue := rest }
  have hsplit : done ++ [now] ++ rest = done ++ st.queue := by
    rw [hq, List.append_assoc, List.singleton_append]
  have hmem : now ∈ done ++ st.queue := by simp [hq]
  have hin := h.visited.inner hmem
  have hqueued : ∀ u ∈ now :: rest, u = now ∨ Sooner nbrs root through r D now u := by
    intro u hu
    refine (List.mem_cons.mp hu).imp id fun hu => ?_
    rw [hq] at hord
    exact List.rel_of_pairwise_cons (List.pairwise_append.mp hord).2.1 hu
  rw [Bfs.expand, hqueue, ← List.append_assoc, hsplit]
  refine List.pairwise_append.mpr ⟨hord, ?_, fun w hw v hv => ?_⟩
  · -- two vertices that are pushed now
    refine List.Pairwise.imp_of_mem ?_ (hr.sublist hsub)
    intro v w hv hw hvw
    have hdv := h.dist_of_none hd hq (hsub.subset hv) (hnone v hv)
    have hdw := h.dist_of_none hd hq (hsub.subset hw) (hnone w hw)
    refine ⟨by omega, fun _ q hroute hlen => ?_⟩
    obtain ⟨u, q, rfl, hroute, -, -, hlen, hu, hmemu⟩ :=
      h.through_queue hd hq (hsub.subset hw) (hnone w hw) hroute hlen
    rcases hqueued u hmemu with rfl | hsooner
    · exact ⟨v :: q, hroute.cons hin (hsub.subset hv), by rw [List.length_cons]; omega, .head hvw⟩
    · obtain ⟨p, hp, hplen, hearlier⟩ := hsooner.2 hu.symm q hroute hlen
      exact ⟨v :: p, hp.cons hin (hsub.subset hv), by rw [List.length_cons]; omega, hearlier.tail⟩
  · -- a vertex that was there was pushed from a vertex that is done
    have hdv := h.dist_of_none hd hq (hsub.subset hv) (hnone v hv)
    have hdone : ∀ x ∈ done, ∀ u ∈ now :: rest, Sooner nbrs root through r D x u := by
      rw [hq] at hord
      exact (List.pairwise_append.mp hord).2.2
    have hle : D w ≤ D now + 1 := by
      rcases List.mem_append.mp hw with hw | hw
      · exact (hdone w hw now List.mem_cons_self).1.trans (Nat.le_succ _)
      · exact h.span now (by simp [hq]) w hw
    refine ⟨by omega, fun heq q hroute hlen => ?_⟩
    obtain ⟨u, q, rfl, hroute, -, -, hlen, hu, hmemu⟩ :=
      h.through_queue hd hq (hsub.subset hv) (hnone v hv) hroute hlen
    obtain rfl | ⟨-, x, hx⟩ := (h.visited.mem w).mp hw
    · rw [hd.zero] at heq
      omega
    obtain ⟨hx, hxw⟩ := mem_arcs.mp hx
    have hxmem : x ∈ done ++ st.queue := List.mem_append_left _ hx
    have hxin := h.visited.inner hxmem
    have hfar := hd.step x (h.visited.mem_verts hd hxmem) hxin w hxw
    have hnear := (hdone x hx now List.mem_cons_self).1
    obtain ⟨p, hp, hplen, hearlier⟩ := (hdone x hx u hmemu).2 (by omega) q hroute hlen
    exact ⟨w :: p, hp.cons hxin hxw, by rw [List.length_cons]; omega, hearlier.tail⟩

theorem Searched.run_sooner (hd : IsDist nbrs root through verts D)
    (hr : ∀ u ∈ verts, (nbrs u).Pairwise r)
    (h : Searched nbrs root through verts D done st)
    (hord : (done ++ st.queue).Pairwise (Sooner nbrs root through r D))
    (hrun : Bfs.run nbrs through fuel st = some st') :
    ∃ done', Searched nbrs root through verts D done' st' ∧ st'.queue = [] ∧
      done'.Pairwise (Sooner nbrs root through r D) := by
  induction fuel generalizing done st with
  | zero => cases hrun
  | succ fuel ih =>
    unfold Bfs.run at hrun
    split at hrun
    next hq =>
      cases hrun
      rw [hq, List.append_nil] at hord
      exact ⟨done, h, hq, hord⟩
    next now rest hq =>
      have hnow := h.visited.mem_verts hd (v := now) (by simp [hq])
      exact ih (h.expand hd hq) (h.sooner hd hq (hr now hnow) hord) hrun

theorem run_seen (hd : IsDist nbrs root through verts D) (hfuel : verts.length < fuel)
    (hrun : run nbrs through fuel (start root) = some st) (hk : st.dist v = some k) :
      v ∈ verts := by
  obtain ⟨done, st, hst, -, h⟩ := (Searched.start hd).run hd
    (Nat.lt_of_lt_of_eq hfuel (Nat.zero_add fuel).symm)
  cases hst.symm.trans hrun
  rcases ((h.visited.dist v k).mp hk).1 with rfl | ⟨u, hu⟩
  · exact hd.root_mem
  · exact (h.visited.arcs_mem _ hu).2

/-- **The first predecessor** of a vertex is the one before it on the first of its shortest
routes. -/
theorem run_first (hd : IsDist nbrs root through verts D) (hr : ∀ u ∈ verts, (nbrs u).Pairwise r)
    (htrans : ∀ u v w, r u v → r v w → r u w) (hfuel : verts.length < fuel)
    (hrun : run nbrs through fuel (start root) = some st) (hv : v ∈ verts) (hne : v ≠ root) :
    ∃ u preds, st.preds v = u :: preds ∧ u ∈ verts ∧ v ∈ nbrs u ∧ D v = D u + 1 ∧
      ∀ p, First nbrs root through r p u → First nbrs root through r (v :: p) v := by
  obtain ⟨st, hst, hspec⟩ := run_spec hd hfuel
  cases hst.symm.trans hrun
  obtain ⟨-, -, hmem⟩ := hspec v hv
  obtain ⟨done, h, -, hord⟩ := (Searched.start hd).run_sooner hd hr
    (List.pairwise_singleton ..) hrun
  have hpreds : (st.preds v).Pairwise fun u w => u = w ∨ Sooner nbrs root through r D u w := by
    rw [h.visited.preds]
    refine List.pairwise_map.mpr (List.Pairwise.filter _ (List.pairwise_flatMap.mpr ⟨?_, ?_⟩))
    · intro u _
      refine List.pairwise_map.mpr (List.pairwise_of_forall fun _ _ => .inl rfl)
    · refine hord.imp fun hsooner a ha b hb => ?_
      obtain ⟨_, _, rfl⟩ := List.mem_map.mp ha
      obtain ⟨_, _, rfl⟩ := List.mem_map.mp hb
      exact .inr hsooner
  cases hlist : st.preds v with
  | nil =>
    obtain ⟨u, hu, hin, harc, hstep⟩ := hd.pred v hv hne
    rw [hlist] at hmem
    exact absurd ((hmem u).mpr ⟨hu, hin, harc, hstep⟩) List.not_mem_nil
  | cons u preds =>
    rw [hlist] at hmem hpreds
    obtain ⟨hu, hin, harc, hstep⟩ := (hmem u).mp List.mem_cons_self
    refine ⟨u, preds, rfl, hu, harc, hstep, fun p hp => ⟨?_, fun q hq => ?_⟩⟩
    · obtain ⟨hroute, hlen⟩ := (hd.shortest_iff hu).mp hp.1
      exact (hd.shortest_iff hv).mpr ⟨hroute.cons hin harc, by rw [List.length_cons, hlen, hstep]⟩
    · obtain ⟨hroute, hlen⟩ := (hd.shortest_iff hv).mp hq
      cases hroute with
      | nil => exact absurd rfl hne
      | @cons q w _ hroute hin' harc' =>
        obtain ⟨hw, hle⟩ := hd.dist_le hroute
        have hfar := hd.step w hw hin' v harc'
        rw [List.length_cons] at hlen
        have hwmem := (hmem w).mpr ⟨hw, hin', harc', by omega⟩
        have hfirst : w = u ∨ Sooner nbrs root through r D u w := by
          rcases List.mem_cons.mp hwmem with rfl | hwmem
          · exact .inl rfl
          · exact (List.rel_of_pairwise_cons hpreds hwmem).imp Eq.symm id
        rcases hfirst with rfl | hsooner
        · have hq := (hd.shortest_iff hw).mpr ⟨hroute, by omega⟩
          exact (hp.2 q hq).imp (congrArg (v :: ·)) .tail
        · obtain ⟨p', hp', hlen', hearlier⟩ := hsooner.2 (by omega) q hroute (by omega)
          have hp' := (hd.shortest_iff hu).mpr ⟨hp', hlen'⟩
          refine .inr (.tail ?_)
          rcases hp.2 p' hp' with rfl | hpp
          · exact hearlier
          · exact hpp.trans htrans hearlier

/-! ## Only the arcs from inner vertices matter -/

theorem route_innerNbrs :
    Route (innerNbrs nbrs root through) root through p v ↔ Route nbrs root through p v := by
  constructor
  · intro h
    induction h with
    | nil => exact .nil
    | cons _ hin hv ih => exact ih.cons hin (mem_innerNbrs.mp hv).2
  · intro h
    induction h with
    | nil => exact .nil
    | cons _ hin hv ih => exact ih.cons hin (mem_innerNbrs.mpr ⟨hin, hv⟩)

theorem first_innerNbrs :
    First (innerNbrs nbrs root through) root through r p v ↔ First nbrs root through r p v := by
  simp only [First, Shortest, route_innerNbrs]

theorem run_innerNbrs (hin : ∀ v ∈ st.queue, Inner root through v) :
    run (innerNbrs nbrs root through) through fuel st = run nbrs through fuel st := by
  induction fuel generalizing st with
  | zero => rfl
  | succ fuel ih =>
    unfold run
    cases hq : st.queue with
    | nil => rfl
    | cons now rest =>
      rw [hq] at hin
      have hnow : innerNbrs nbrs root through now = nbrs now :=
        if_pos (hin now List.mem_cons_self)
      have hexpand : ∀ nexts : List α, ∀ st' : Bfs α, (∀ v ∈ st'.queue, Inner root through v) →
          ∀ v ∈ (nexts.foldl (visit through now ((st.dist now).getD 0)) st').queue,
            Inner root through v := by
        intro nexts
        induction nexts with
        | nil => exact fun _ h => h
        | cons next nexts ih =>
          refine fun st' h => ih _ fun v hv => ?_
          rw [visit, queue_record] at hv
          rcases mem_queue_discover.mp hv with hv | ⟨rfl, -, ht⟩
          · exact h v hv
          · exact .inr ht
      simp only [expand, hnow]
      exact ih (hexpand _ _ fun v hv => hin v (List.mem_cons_of_mem _ hv))

/-- What a search among some vertices notes, by induction along the first routes. -/
theorem exists_run_first (hroot : root ∈ verts) (hmem : ∀ u ∈ verts, ∀ v ∈ nbrs u, v ∈ verts)
    (hnodup : ∀ u ∈ verts, (nbrs u).Nodup) (hr : ∀ u ∈ verts, (nbrs u).Pairwise r)
    (htrans : ∀ u v w, r u v → r v w → r u w) (hfuel : verts.length < fuel) :
    ∃ st, run nbrs through fuel (start root) = some st ∧
      (∀ v, (st.dist v).isSome ↔ ∃ p, Route nbrs root through p v) ∧
      ∀ P : α → List α → Prop, P root [] →
        (∀ u v preds p, st.preds v = u :: preds → v ≠ root → (st.dist v).isSome → v ∈ nbrs u →
          Route nbrs root through p u → P u p → P v (v :: p)) →
        ∀ v, (st.dist v).isSome → ∃ p, First nbrs root through r p v ∧ P v p := by
  have hd : IsDist (innerNbrs nbrs root through) root through _ _ :=
    isDist_routeDist hroot hmem hnodup
  have hinner : ∀ u ∈ reached nbrs root through verts,
      (innerNbrs nbrs root through u).Pairwise r := by
    intro u hu
    unfold innerNbrs
    split
    · exact hr u (mem_reached.mp hu).1
    · exact .nil
  have hfuel : (reached nbrs root through verts).length < fuel :=
    (List.length_filter_le ..).trans_lt hfuel
  obtain ⟨st, hrun, hspec⟩ := run_spec hd hfuel
  have hsome : ∀ v, (st.dist v).isSome ↔ v ∈ reached nbrs root through verts := by
    intro v
    constructor
    · intro hv
      obtain ⟨k, hk⟩ := Option.isSome_iff_exists.mp hv
      exact run_seen hd hfuel hrun hk
    · intro hv
      rw [(hspec v hv).1]
      rfl
  have hroute : ∀ v, (st.dist v).isSome ↔ ∃ p, Route nbrs root through p v := by
    intro v
    rw [hsome, mem_reached, and_iff_right_iff_imp]
    rintro ⟨p, hp⟩
    have hp := (hd.dist_le (route_innerNbrs.mpr hp)).1
    exact (mem_reached.mp hp).1
  refine ⟨st, ?_, hroute, fun P hP hstep v hv => ?_⟩
  · rw [← run_innerNbrs fun v hv => .inl (List.mem_singleton.mp hv)]
    exact hrun
  · generalize hk : routeDist nbrs root through v = k
    induction k generalizing v with
    | zero =>
      have hvroot : v = root := by
        by_contra hne
        obtain ⟨u, -, -, -, hu⟩ := hd.pred v ((hsome v).mp hv) hne
        omega
      exact ⟨[], hvroot ▸ .nil, hvroot ▸ hP⟩
    | succ k ih =>
      have hne : v ≠ root := by
        rintro rfl
        rw [hd.zero] at hk
        cases hk
      obtain ⟨u, preds, hpreds, hu, harc, hdist, hfirst⟩ :=
        run_first hd hinner htrans hfuel hrun ((hsome v).mp hv) hne
      obtain ⟨p, hp, hPu⟩ := ih u ((hsome u).mpr hu) (by omega)
      refine ⟨v :: p, first_innerNbrs.mp (hfirst p (first_innerNbrs.mpr hp)), ?_⟩
      exact hstep u v preds p hpreds hne hv (mem_innerNbrs.mp harc).2 hp.1.1 hPu

end Bfs
end Roce
