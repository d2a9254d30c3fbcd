import Roce.Flow.CallStack
import Mathlib.Data.Set.Card

/-! # Every flow runs once, and when it is due

The counter of a flow is the number of its distinct dependencies that have not completed or of
whose completion the flow has not been told. This needs that the counter and the set of the
targets are changed together, so no dependency is given twice; and that a flow is not both told of
its last dependency and started by its own event, at the very instant of its start time. -/

namespace Roce

open Function

/-- The flow whose completion a frame tells, or has still to tell. -/
def FlowFrame.telling : FlowFrame → Option Nat
  | .notifyComplete flow (_ + 1) => some flow
  | .onFlowFinish flow _ => some flow
  | _ => none

/-- The frame has still to tell the target of the completion of the flow. -/
def FlowFrame.Untold (s : FlowScheduler) (target : FlowPtr) (d : Nat) : FlowFrame → Prop
  | .notifyComplete flow n => flow = d ∧ 0 < n ∧ target ∈ s.dependencies d
  | .onFlowFinish flow targets => flow = d ∧ target ∈ targets
  | .outside => False

namespace FlowSimulation

open FlowScheduler (Scheduled Foreground)

/-- The list gives no dependency twice, and none to a flow that is not enabled. -/
structure OnceEach (infos : List SerializedFlow) : Prop where
  nodup : (FlowScheduler.dependencyCalls infos).Nodup
  target : ∀ call ∈ FlowScheduler.dependencyCalls infos, call.1 ≠ none

/-- The scheduler is used as it expects. A flow is added once, and before it has run; a dependency
is declared once, before the target has run, and not while its completion is being told; and when
the last dependency of a flow completes at or after the start time of the flow, the event of
`AddFlow` has run. -/
def Orderly (x : FlowSimulation) : FlowCall → Prop
  | .addFlow flow => x.scheduler.callbacks flow = 0 ∧ ¬Scheduled x.scheduler.events flow
  | .addDependency target dependency => target ≠ none ∧ ∀ d ∈ dependency,
    if x.scheduler.completed d then
      target ∈ x.scheduler.dependencies d ∨ ∀ frame ∈ x.frames, frame.telling ≠ some d
    else target ∉ x.scheduler.dependencies d ∧ ∀ flow ∈ target, x.scheduler.callbacks flow = 0
  | .tell target => x.scheduler.remDependencies target = 1 → ∀ flow ∈ target,
    (x.scheduler.info flow).startTime ≤ x.scheduler.now → ¬Scheduled x.scheduler.events flow
  | _ => True

variable {s s' : FlowScheduler} {frames : List FlowFrame} {frame : FlowFrame} {flow n : Nat}
  {target : FlowPtr} {targets : List FlowPtr}

theorem telling_of_untold (h : frame.Untold s target d) : frame.telling = some d := by
  cases frame with
  | outside => exact h.elim
  | notifyComplete flow n =>
    obtain ⟨rfl, hn, -⟩ := h
    obtain ⟨n, rfl⟩ := Nat.exists_eq_succ_of_ne_zero (Nat.ne_of_gt hn)
    rfl
  | onFlowFinish flow targets =>
    obtain ⟨rfl, -⟩ := h
    rfl

/-! ## The counters -/

/-- The target waits for the flow. -/
def Waits (s : FlowScheduler) (frames : List FlowFrame) (target : FlowPtr) (d : Nat) : Prop :=
  (s.completed d = false ∧ target ∈ s.dependencies d) ∨
    ∃ frame ∈ frames, frame.Untold s target d

/-- The counters are right. -/
structure Counts (s : FlowScheduler) (frames : List FlowFrame) : Prop where
  rem : ∀ target, {d | Waits s frames target d}.encard = s.remDependencies target
  nodup : ∀ d, (s.dependencies d).Nodup
  nonnull : ∀ d, none ∉ s.dependencies d
  completed : ∀ frame ∈ frames, ∀ d ∈ frame.telling, s.completed d = true
  targets : ∀ flow targets, .onFlowFinish flow targets ∈ frames →
    targets.Nodup ∧ targets ⊆ s.dependencies flow
  single : (frames.filterMap FlowFrame.telling).Nodup
  callbacks : ∀ flow n, .notifyComplete flow n ∈ frames → n ≤ 1

theorem untold_congr (hd : s'.dependencies = s.dependencies) :
    frame.Untold s' target d ↔ frame.Untold s target d := by
  cases frame <;> simp [FlowFrame.Untold, hd]

theorem waits_congr (hd : s'.dependencies = s.dependencies) (hc : s'.completed = s.completed) :
    Waits s' frames target d ↔ Waits s frames target d := by
  simp only [Waits, untold_congr hd, hd, hc]

theorem Counts.congr (h : Counts s frames) (hd : s'.dependencies = s.dependencies)
    (hc : s'.completed = s.completed) (hr : s'.remDependencies = s.remDependencies) :
    Counts s' frames := by
  constructor
  case rem =>
    intro target
    rw [hr, ← h.rem target]
    simp only [waits_congr hd hc]
  case nodup => exact hd ▸ h.nodup
  case nonnull => exact hd ▸ h.nonnull
  case completed => exact hc ▸ h.completed
  case targets => exact hd ▸ h.targets
  case single => exact h.single
  case callbacks => exact h.callbacks

theorem waits_cons : Waits s (frame :: frames) target d ↔
    frame.Untold s target d ∨ Waits s frames target d := by
  simp only [Waits, List.exists_mem_cons_iff, or_left_comm]

/-- A frame that has nothing to tell. -/
theorem waits_cons_of_not (hf : ∀ target d, ¬frame.Untold s target d) :
    Waits s (frame :: frames) target d ↔ Waits s frames target d :=
  waits_cons.trans (or_iff_right (hf target d))

theorem Counts.outside (h : Counts s frames) : Counts s (.outside :: frames) := by
  constructor
  case rem =>
    intro target
    have hwaits : ∀ d, Waits s (.outside :: frames) target d ↔ Waits s frames target d := fun d =>
      waits_cons_of_not fun _ _ hf => hf
    simp only [hwaits, h.rem]
  case nodup => exact h.nodup
  case nonnull => exact h.nonnull
  case completed =>
    exact List.forall_mem_cons.mpr ⟨fun d hd => (Option.not_mem_none d hd).elim, h.completed⟩
  case targets =>
    exact fun flow targets hmem =>
      h.targets flow targets (List.mem_of_ne_of_mem FlowFrame.noConfusion hmem)
  case single => exact h.single
  case callbacks =>
    exact fun flow n hmem => h.callbacks flow n (List.mem_of_ne_of_mem FlowFrame.noConfusion hmem)

theorem Counts.leave (h : Counts s (frame :: frames)) (hf : ∀ target d, ¬frame.Untold s target d) :
    Counts s frames := by
  constructor
  case rem =>
    intro target
    rw [← h.rem target]
    simp only [waits_cons_of_not hf]
  case nodup => exact h.nodup
  case nonnull => exact h.nonnull
  case completed => exact (List.forall_mem_cons.mp h.completed).2
  case targets =>
    exact fun flow targets hmem => h.targets flow targets (List.mem_cons_of_mem _ hmem)
  case single => exact h.single.sublist ((List.sublist_cons_self ..).filterMap _)
  case callbacks => exact fun flow n hmem => h.callbacks flow n (List.mem_cons_of_mem _ hmem)

/-- No frame of the others tells the flow of the innermost one. -/
theorem Counts.not_untold (h : Counts s (frame :: frames)) (hf : frame.telling = some flow) :
    ∀ other ∈ frames, other.telling ≠ some flow := by
  intro other hmem heq
  have hs := h.single
  rw [List.filterMap_cons_some hf, List.nodup_cons] at hs
  exact hs.1 (List.mem_filterMap.mpr ⟨other, hmem, heq⟩)

theorem Counts.not_mem_notifyComplete (h : Counts s frames) (hc : s.completed flow = false) :
    ∀ frame ∈ frames, frame.telling ≠ some flow := by
  intro frame hmem heq
  have := h.completed frame hmem flow heq
  rw [hc] at this
  cases this

/-- The flow completes, and its targets have still to be told. -/
theorem Counts.notifyComplete (h : Counts s frames) (hc : s.completed flow = false) :
    Counts { s with completed := update s.completed flow true }
      (.notifyComplete flow 1 :: frames) := by
  constructor
  case rem =>
    intro target
    rw [← h.rem target]
    congr 1
    ext d
    have hsame : ∀ frame, FlowFrame.Untold { s with completed := update s.completed flow true }
        target d frame ↔ frame.Untold s target d := fun _ => untold_congr rfl
    simp only [Set.mem_ofPred_eq, Waits, hsame, List.exists_mem_cons_iff]
    by_cases hd : d = flow
    · simp [FlowFrame.Untold, hd, hc]
    · simp [FlowFrame.Untold, hd, Ne.symm hd]
  case nodup => exact h.nodup
  case nonnull => exact h.nonnull
  case completed =>
    refine List.forall_mem_cons.mpr ⟨fun d hd => ?_, fun frame hmem d hd => ?_⟩
    · cases hd
      exact update_self ..
    · refine (update_apply ..).trans ?_
      rw [h.completed frame hmem d hd, ite_self]
  case targets =>
    exact fun flow' targets hmem =>
      h.targets flow' targets (List.mem_of_ne_of_mem FlowFrame.noConfusion hmem)
  case single =>
    refine List.nodup_cons.mpr ⟨fun hmem => ?_, h.single⟩
    obtain ⟨frame, hmem, heq⟩ := List.mem_filterMap.mp hmem
    exact h.not_mem_notifyComplete hc frame hmem heq
  case callbacks =>
    intro flow' n hmem
    rcases List.mem_cons.mp hmem with heq | hmem
    · cases heq
      exact Nat.le_refl 1
    · exact h.callbacks flow' n hmem

/-- The loop over the targets is entered. -/
theorem Counts.onFlowFinish (h : Counts s (.notifyComplete flow 1 :: frames))
    (hperm : targets.Perm (s.dependencies flow)) :
    Counts s (.onFlowFinish flow targets :: .notifyComplete flow 0 :: frames) := by
  constructor
  case rem =>
    intro target
    rw [← h.rem target]
    simp only [waits_cons, FlowFrame.Untold, hperm.mem_iff, Nat.lt_irrefl, Nat.zero_lt_one,
      false_and, true_and, and_false, false_or]
    congr 1
    ext d
    refine or_congr_left (and_congr_right fun heq => ?_)
    rw [heq]
  case nodup => exact h.nodup
  case nonnull => exact h.nonnull
  case completed =>
    obtain ⟨hflow, hrest⟩ := List.forall_mem_cons.mp h.completed
    refine List.forall_mem_cons.mpr ⟨hflow, List.forall_mem_cons.mpr ⟨fun d hd => ?_, hrest⟩⟩
    cases hd
  case targets =>
    intro flow' targets' hmem
    rcases List.mem_cons.mp hmem with heq | hmem
    · cases heq
      exact ⟨hperm.nodup_iff.mpr (h.nodup flow), hperm.subset⟩
    · exact h.targets flow' targets'
        (List.mem_cons_of_mem _ (List.mem_of_ne_of_mem FlowFrame.noConfusion hmem))
  case single => exact h.single
  case callbacks =>
    intro flow' n hmem
    rcases List.mem_cons.mp (List.mem_of_ne_of_mem FlowFrame.noConfusion hmem) with heq | hmem
    · cases heq
      exact Nat.zero_le 1
    · exact h.callbacks flow' n (List.mem_cons_of_mem _ hmem)

/-- A target that has still to be told waits for the flow. -/
theorem Counts.rem_pos (h : Counts s (.onFlowFinish flow (target :: targets) :: frames)) :
    0 < s.remDependencies target := by
  have hmem : flow ∈ {d | Waits s (.onFlowFinish flow (target :: targets) :: frames) target d} :=
    waits_cons.mpr (.inl ⟨rfl, List.mem_cons_self⟩)
  have hpos := Set.encard_pos.mpr ⟨flow, hmem⟩
  rw [h.rem target] at hpos
  exact_mod_cast hpos

/-- What the scheduler does when a target is told. -/
structure Told (s s' : FlowScheduler) (target : FlowPtr) : Prop where
  pos : 0 < s.remDependencies target
  rem : s'.remDependencies = update s.remDependencies target (s.remDependencies target - 1)
  rest : s' = { s with remDependencies := s'.remDependencies }

theorem resolve_spec (h : s.resolve target = some s') : Told s s' target := by
  unfold FlowScheduler.resolve at h
  split at h
  next => cases h
  next hpos =>
    cases h
    exact ⟨Nat.pos_of_ne_zero hpos, rfl, rfl⟩

theorem Told.dependencies (h : Told s s' target) : s'.dependencies = s.dependencies := by
  rw [h.rest]

theorem Told.completed (h : Told s s' target) : s'.completed = s.completed := by rw [h.rest]

theorem Told.eq_one (h : Told s s' target) (hzero : s'.remDependencies target = 0) :
    s.remDependencies target = 1 := by
  rw [h.rem, update_self] at hzero
  exact Nat.le_antisymm (Nat.le_of_sub_eq_zero hzero) h.pos

/-- A target is told: it waits for one flow less. -/
theorem Counts.tell (h : Counts s (.onFlowFinish flow (target :: targets) :: frames))
    (hr : Told s s' target) : Counts s' (.onFlowFinish flow targets :: frames) := by
  have hc : s.completed flow = true := h.completed _ List.mem_cons_self flow rfl
  have hd' := hr.dependencies
  have hc' := hr.completed
  obtain ⟨hnodup, hsub⟩ := h.targets flow _ List.mem_cons_self
  obtain ⟨hnew, hnodup⟩ := List.nodup_cons.mp hnodup
  have hwaits : ∀ t d, Waits s' (.onFlowFinish flow targets :: frames) t d ↔
      Waits s (.onFlowFinish flow (target :: targets) :: frames) t d ∧
        ¬(t = target ∧ d = flow) := by
    intro t d
    have hother : d = flow → ¬Waits s frames t d := by
      rintro rfl (⟨hfalse, -⟩ | ⟨frame, hmem, hu⟩)
      · rw [hc] at hfalse
        cases hfalse
      · exact h.not_untold rfl frame hmem (telling_of_untold hu)
    rw [waits_cons, waits_cons, waits_congr hd' hc', untold_congr hd']
    by_cases hd : d = flow
    · subst hd
      by_cases ht : t = target
      · subst ht
        simp [FlowFrame.Untold, hnew, hother rfl]
      · simp [FlowFrame.Untold, ht]
    · simp [FlowFrame.Untold, hd, Ne.symm hd]
  constructor
  case rem =>
    intro t
    have hset : {d | Waits s' (.onFlowFinish flow targets :: frames) t d} =
        {d | Waits s (.onFlowFinish flow (target :: targets) :: frames) t d} \
          {d | t = target ∧ d = flow} := by
      ext d
      exact hwaits t d
    rw [hset, hr.rem]
    by_cases ht : t = target
    · subst ht
      have hmem : flow ∈ {d | Waits s (.onFlowFinish flow (t :: targets) :: frames) t d} :=
        waits_cons.mpr (.inl ⟨rfl, List.mem_cons_self⟩)
      have hsingle : {d | t = t ∧ d = flow} = {flow} := by simp
      rw [hsingle, Set.encard_sdiff_singleton_of_mem hmem, h.rem t, update_self]
      exact_mod_cast rfl
    · have hempty : {d | t = target ∧ d = flow} = ∅ := by simp [ht]
      rw [hempty, Set.sdiff_empty, h.rem t, update_of_ne ht]
  case nodup => exact hd' ▸ h.nodup
  case nonnull => exact hd' ▸ h.nonnull
  case completed =>
    obtain ⟨hflow, hrest⟩ := List.forall_mem_cons.mp h.completed
    exact hc' ▸ List.forall_mem_cons.mpr ⟨hflow, hrest⟩
  case targets =>
    intro flow' targets' hmem
    rcases List.mem_cons.mp hmem with heq | hmem
    · cases heq
      exact ⟨hnodup, hd' ▸ List.Subset.trans (List.subset_cons_self ..) hsub⟩
    · exact hd' ▸ h.targets flow' targets' (List.mem_cons_of_mem _ hmem)
  case single => exact h.single
  case callbacks =>
    intro flow' n hmem
    exact h.callbacks flow' n
      (List.mem_cons_of_mem _ (List.mem_of_ne_of_mem FlowFrame.noConfusion hmem))

/-- What a frame has still to tell, when another flow gets a target. -/
theorem untold_update (hf : frame.telling ≠ some d)
    (hd : s'.dependencies = update s.dependencies d ts) :
    frame.Untold s' target e ↔ frame.Untold s target e := by
  cases frame with
  | outside | onFlowFinish => exact Iff.rfl
  | notifyComplete flow n =>
    refine and_congr_right fun heq => and_congr_right fun hn => ?_
    subst heq
    obtain ⟨n, rfl⟩ := Nat.exists_eq_succ_of_ne_zero (Nat.ne_of_gt hn)
    have hne : flow ≠ d := fun heq => hf (congrArg some heq)
    rw [hd, update_of_ne hne]

/-- What `AddDependency` does. -/
structure Declares (s s' : FlowScheduler) (target : FlowPtr) (d : Nat) : Prop where
  dependencies : s'.dependencies = update s.dependencies d ((s.dependencies d).insert target)
  rem : s'.remDependencies = if s.completed d then s.remDependencies else
    update s.remDependencies target (s.remDependencies target + 1)
  rest : s' = { s with dependencies := s'.dependencies, remDependencies := s'.remDependencies }

theorem addDependency_spec (h : s.addDependency target dependency = some s') :
    ∃ d, dependency = some d ∧ Declares s s' target d := by
  obtain ⟨d, rfl, h⟩ := Option.bind_eq_some_iff.mp h
  cases h
  exact ⟨d, rfl, rfl, rfl, rfl⟩

theorem Declares.completed (h : Declares s s' target d) : s'.completed = s.completed := by
  rw [h.rest]

theorem Declares.nodup (h : Declares s s' target d) (hs : ∀ e, (s.dependencies e).Nodup) (e : Nat) :
    (s'.dependencies e).Nodup := by
  rw [h.dependencies, update_apply]
  split
  · exact (hs d).insert
  · exact hs e

theorem Declares.mem (h : Declares s s' target d) :
    t ∈ s'.dependencies e ↔ t ∈ s.dependencies e ∨ t = target ∧ e = d := by
  rw [h.dependencies, update_apply]
  split
  next heq => simp [heq, List.mem_insert_iff, or_comm]
  next hne => simp [hne]

theorem Declares.subset (h : Declares s s' target d) (hl : l ⊆ s.dependencies e) :
    l ⊆ s'.dependencies e := fun _ ht => h.mem.mpr (.inl (hl ht))

/-- No frame has been told of the new target, unless it tells the targets of `d`. -/
theorem Declares.untold (h : Declares s s' target d)
    (hno : ∀ frame ∈ frames, frame.telling ≠ some d) (t : FlowPtr) (e : Nat) :
    (∃ frame ∈ frames, frame.Untold s' t e) ↔ ∃ frame ∈ frames, frame.Untold s t e :=
  exists_congr fun frame => and_congr_right fun hframe =>
    untold_update (hno frame hframe) h.dependencies

/-- Only the number of the flows that a target waits for can be wrong. -/
theorem Counts.of_rem (h : Counts s frames) (hd : Declares s s' target d) (htarget : target ≠ none)
    (hrem : ∀ t, {e | Waits s' frames t e}.encard = s'.remDependencies t) : Counts s' frames := by
  constructor
  case rem => exact hrem
  case nodup => exact hd.nodup h.nodup
  case nonnull => exact fun e hn => (hd.mem.mp hn).elim (h.nonnull e) fun heq => htarget heq.1.symm
  case completed => exact hd.completed ▸ h.completed
  case targets => exact fun flow targets hmem => (h.targets flow targets hmem).imp id hd.subset
  case single => exact h.single
  case callbacks => exact h.callbacks

/-- A dependency on a flow that has completed makes nothing wait. -/
theorem Counts.declare_completed (h : Counts s frames) (hd : Declares s s' target d)
    (htarget : target ≠ none) (hc : s.completed d = true)
    (ho : target ∈ s.dependencies d ∨ ∀ frame ∈ frames, frame.telling ≠ some d) :
    Counts s' frames := by
  have hrem := hd.rem
  rw [hc, if_pos rfl] at hrem
  by_cases hmem : target ∈ s.dependencies d
  · refine h.congr ?_ hd.completed hrem
    rw [hd.dependencies, List.insert_of_mem hmem, update_eq_self]
  · refine h.of_rem hd htarget fun t => ?_
    rw [hrem, ← h.rem t]
    congr 1
    ext e
    refine or_congr ?_ (hd.untold (ho.resolve_left hmem) t e)
    rw [hd.completed, hd.mem]
    refine and_congr_right fun he => or_iff_left fun heq => ?_
    rw [heq.2, hc] at he
    cases he

/-- The target waits for one flow more. -/
theorem Counts.declare (h : Counts s frames) (hd : Declares s s' target d) (htarget : target ≠ none)
    (hc : s.completed d = false) (hnew : target ∉ s.dependencies d) : Counts s' frames := by
  have hrem := hd.rem
  rw [hc, if_neg Bool.false_ne_true] at hrem
  have hno := h.not_mem_notifyComplete hc
  have hwaits : ∀ t e, Waits s' frames t e ↔ Waits s frames t e ∨ t = target ∧ e = d := by
    intro t e
    rw [Waits, Waits, hd.untold hno, hd.completed, hd.mem, and_or_left, or_right_comm]
    refine or_congr_right (and_iff_right_of_imp fun heq => ?_)
    rw [heq.2, hc]
  refine h.of_rem hd htarget fun t => ?_
  have hset : {e | Waits s' frames t e} = {e | Waits s frames t e} ∪ {e | t = target ∧ e = d} := by
    ext e
    exact hwaits t e
  rw [hset, hrem]
  by_cases ht : t = target
  · subst ht
    have hsingle : {e | t = t ∧ e = d} = {d} := by simp
    have hmem : d ∉ {e | Waits s frames t e} := by
      rintro (⟨-, hmem⟩ | ⟨frame, hframe, hu⟩)
      · exact hnew hmem
      · exact hno frame hframe (telling_of_untold hu)
    rw [hsingle, Set.union_singleton, Set.encard_insert_of_notMem hmem, h.rem t, update_self]
    exact_mod_cast rfl
  · have hempty : {e | t = target ∧ e = d} = ∅ := by simp [ht]
    rw [hempty, Set.union_empty, h.rem t, update_of_ne ht]

end FlowSimulation
end Roce
