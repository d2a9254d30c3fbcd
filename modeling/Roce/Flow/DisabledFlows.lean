import Mathlib.Data.List.Dedup
import Roce.Flow.CallStack

/-! # Disabled flows

The constructor creates no flow for an entry that is not enabled, but it declares the dependencies
of all entries, where such an entry is a null pointer. A null pointer as a dependency is read at
once, and as a target when all of its dependencies have completed. -/

namespace Roce

open Function

namespace FlowScheduler

variable (infos : List SerializedFlow)

/-- The id is that of a disabled entry. -/
def NamesDisabled (id : String) : Prop :=
  findFlow infos id = none ∧ ∃ info ∈ infos, info.enable = false ∧ info.id = id

instance : DecidablePred (NamesDisabled infos) := fun _ => inferInstanceAs (Decidable (_ ∧ _))

/-- The list without the disabled entries, and without the dependencies that name them. -/
def withoutDisabled : List SerializedFlow :=
  (infos.filter (·.enable)).map fun info =>
    { info with dependencies := info.dependencies.filter (¬NamesDisabled infos ·) }

/-- The flows that disabled entries depend on. -/
def disabledDependencies : List Nat :=
  (dependencyCalls infos).filterMap fun call => if call.1 = none then call.2 else none

/-- A dependency always names an enabled entry, and a disabled entry with dependencies does not
have the id of an enabled one. -/
structure DisabledApart : Prop where
  named : ∀ info ∈ infos, ∀ dep ∈ info.dependencies, findFlow infos dep ≠ none
  apart : ∀ info ∈ infos, info.enable = false → info.dependencies ≠ [] →
    findFlow infos info.id = none

end FlowScheduler

namespace FlowSimulation

/-- Every step but telling a null pointer of a completion. -/
def visible : FlowCall → Bool
  | .tell none => false
  | _ => true

/-- What a run shows: its steps, and after each of them the time, the flows that have been started
and those that have completed, the completion times and the calls of `m_on_all_completed`. -/
def shows (tr : List (Machine.Taken FlowSimulation FlowCall)) :
    List (FlowCall × Int × (Nat → Nat) × (Nat → Bool) × (String → Option Int) ×
      List (Nat → Bool)) :=
  (tr.filter (visible ·.event)).map fun ⟨_, call, x⟩ =>
    (call, x.scheduler.now, x.scheduler.callbacks, x.scheduler.completed,
      x.scheduler.completionTimes, x.scheduler.calls)

/-- The scheduler of the list can be built, and as long as the steps meet the condition it does what
the scheduler of the list without the disabled entries does: what it shows the other one can show,
and however the other one can go on from there, it can go on. -/
structure NoEffect (infos : List SerializedFlow) (C : FlowSimulation → FlowCall → Prop) : Prop where
  constructed : (FlowScheduler.construct infos).isSome
  sameRuns : ∀ x₀ tr x, (machine infos).init x₀ → ((machine infos).restrict C).Trace x₀ tr x →
    let without := (machine (FlowScheduler.withoutDisabled infos)).restrict C
    ∃ y₀ tr' y, without.init y₀ ∧ without.Trace y₀ tr' y ∧ shows tr' = shows tr ∧
      ∀ tr' y', without.Trace y tr' y' →
        ∃ tr x', ((machine infos).restrict C).Trace x tr x' ∧ shows tr = shows tr'

/-- The flows that disabled entries depend on do not all complete, unless one of them is named
twice; they are run once; and a running flow has pointers to the flows that it declares
dependencies of. -/
def Spares (infos : List SerializedFlow) (x : FlowSimulation) : FlowCall → Prop
  | .notifyComplete flow => flow ∈ FlowScheduler.disabledDependencies infos →
    x.scheduler.callbacks flow = 1 ∧
      (FlowScheduler.disabledDependencies infos).dedup.countP (x.scheduler.completed ·) + 1 <
        (FlowScheduler.disabledDependencies infos).length
  | .addDependency target _ => target ≠ none
  | _ => True

end FlowSimulation

/-! ## The null pointers are forgotten -/

namespace FlowScheduler

variable {infos : List SerializedFlow} {s s' : FlowScheduler} {flow : Nat}

/-- The scheduler without what it has for null pointers. -/
def forget (s : FlowScheduler) : FlowScheduler :=
  { s with
    dependencies := fun d => (s.dependencies d).filter Option.isSome
    remDependencies := update s.remDependencies none 0 }

theorem forget_remDependencies (s : FlowScheduler) (flow : Nat) :
    s.forget.remDependencies (some flow) = s.remDependencies (some flow) := by
  simp [forget]

theorem forget_checkForeground (s : FlowScheduler) :
    s.checkForeground.forget = s.forget.checkForeground := by
  unfold checkForeground
  exact apply_ite forget ..

theorem forget_finishFlow (s : FlowScheduler) (flow : Nat) :
    s.forget.finishFlow flow = (s.finishFlow flow).map forget := by
  unfold finishFlow
  rw [apply_ite (Option.map forget)]
  rfl

theorem forget_resolve (s : FlowScheduler) (flow : Nat) :
    s.forget.resolve (some flow) = (s.resolve (some flow)).map forget := by
  unfold resolve
  rw [forget_remDependencies, apply_ite (Option.map forget)]
  simp [forget, update_comm]

theorem forget_resolve_none (h : s.resolve none = some s') : s'.forget = s.forget := by
  unfold resolve at h
  split at h
  next => cases h
  next =>
    cases h
    simp [forget]

theorem filter_insert_some (flow : Nat) (targets : List FlowPtr) :
    (targets.insert (some flow)).filter Option.isSome =
      (targets.filter Option.isSome).insert (some flow) := by
  by_cases h : some flow ∈ targets <;> simp [List.insert, h]

theorem filter_insert_none (targets : List FlowPtr) :
    (targets.insert none).filter Option.isSome = targets.filter Option.isSome := by
  by_cases h : none ∈ targets <;> simp [List.insert, h]

theorem forget_addDependency (s : FlowScheduler) (flow : Nat) (dependency : FlowPtr) :
    s.forget.addDependency (some flow) dependency =
      (s.addDependency (some flow) dependency).map forget := by
  cases dependency with
  | none => rfl
  | some d =>
    simp only [addDependency, Option.bind_eq_bind, Option.bind_some, Option.pure_def,
      Option.map_some, Option.some.injEq]
    have hdependencies : ∀ e,
      (update s.dependencies d ((s.dependencies d).insert (some flow)) e).filter
        Option.isSome = update (fun e => (s.dependencies e).filter Option.isSome) d
          (((s.dependencies d).filter Option.isSome).insert (some flow)) e := by
      intro e
      rcases eq_or_ne e d with rfl | he
      · rw [update_self, update_self, filter_insert_some]
      · rw [update_of_ne he, update_of_ne he]
    cases hc : s.completed d <;> simp [forget, hdependencies, hc, update_comm]

theorem forget_addDependency_none (s : FlowScheduler) (d : Nat) :
    (s.addDependency none (some d)).map forget = some s.forget := by
  simp only [addDependency, Option.bind_eq_bind, Option.bind_some, Option.pure_def, Option.map_some,
    Option.some.injEq]
  have hdependencies : ∀ e, (update s.dependencies d ((s.dependencies d).insert none) e).filter
      Option.isSome = (s.dependencies e).filter Option.isSome := by
    intro e
    rcases eq_or_ne e d with rfl | he
    · rw [update_self, filter_insert_none]
    · rw [update_of_ne he]
  cases hc : s.completed d <;> simp [forget, hdependencies]

end FlowScheduler

namespace FlowFrame

/-- A frame without the null pointers that it has still to tell. -/
def forget : FlowFrame → FlowFrame
  | .onFlowFinish flow targets => .onFlowFinish flow (targets.filter Option.isSome)
  | frame => frame

theorem forget_eq_outside {frame : FlowFrame} : frame.forget = .outside ↔ frame = .outside := by
  cases frame <;> simp [forget]

theorem forget_eq_notifyComplete {frame : FlowFrame} :
    frame.forget = .notifyComplete flow n ↔ frame = .notifyComplete flow n := by
  cases frame <;> simp [forget]

theorem forget_eq_onFlowFinish {frame : FlowFrame} : frame.forget = .onFlowFinish flow targets ↔
    ∃ targets', frame = .onFlowFinish flow targets' ∧ targets'.filter Option.isSome = targets := by
  cases frame <;> simp [forget]

theorem onFlowFinish_mem_map_forget {frames : List FlowFrame} :
    (∃ targets, .onFlowFinish flow targets ∈ frames.map forget) ↔
      ∃ targets, .onFlowFinish flow targets ∈ frames := by
  simp only [List.mem_map, forget_eq_onFlowFinish]
  constructor
  · rintro ⟨_, _, hmem, targets, rfl, -⟩
    exact ⟨targets, hmem⟩
  · rintro ⟨targets, hmem⟩
    exact ⟨_, _, hmem, targets, rfl, rfl⟩

end FlowFrame

namespace FlowSimulation

open FlowFrame

variable {infos : List SerializedFlow} {x y : FlowSimulation} {call : FlowCall}

def forget (x : FlowSimulation) : FlowSimulation :=
  ⟨x.scheduler.forget, x.addedFlows, x.frames.map FlowFrame.forget⟩

/-- A step that is visible is also one without the null pointers. -/
theorem Step.forget (h : Step x call y) (hvisible : visible call = true)
    (htarget : ∀ dependency, call ≠ .addDependency none dependency) :
    Step x.forget call y.forget := by
  cases h with
  | start hstop hevents hbefore hafter hrem =>
    exact .start hstop hevents hbefore hafter ((FlowScheduler.forget_remDependencies ..).trans hrem)
  | hold hstop hevents hbefore hafter hrem =>
    refine .hold hstop hevents hbefore hafter ?_
    rwa [FlowScheduler.forget_remDependencies]
  | test hstop hevents hbefore hafter =>
    unfold FlowSimulation.forget
    rw [FlowScheduler.forget_checkForeground]
    exact .test hstop hevents hbefore hafter
  | event hstop hnow hevents => exact .event hstop hnow hevents
  | create => exact .create
  | addFlow hlt => exact .addFlow hlt
  | @addDependency target _ _ _ _ s' htargets hdependencies hs' =>
    cases target with
    | none => exact absurd rfl (htarget _)
    | some flow =>
      refine .addDependency htargets (fun d hd => ?_) ?_
      · refine (hdependencies d hd).imp id fun hor => hor.imp (fun hmem => ?_)
          fun hno targets hmem => ?_
        · exact List.mem_filter.mpr ⟨hmem, rfl⟩
        · obtain ⟨targets', hmem'⟩ := onFlowFinish_mem_map_forget.mp ⟨targets, hmem⟩
          exact hno targets' hmem'
      · rw [FlowScheduler.forget_addDependency, hs', Option.map_some]
  | notifyComplete hcallbacks hcompleted => exact .notifyComplete hcallbacks hcompleted
  | callback => exact .callback
  | onFlowFinish hfinish hperm =>
    refine .onFlowFinish ?_ (hperm.filter _)
    rw [FlowScheduler.forget_finishFlow, hfinish, Option.map_some]
  | @wait target _ _ _ _ s s' hresolve hwait =>
    cases target with
    | none => cases hvisible
    | some flow =>
      have hresolve' : s.forget.resolve (some flow) = some s'.forget := by
        rw [FlowScheduler.forget_resolve, hresolve, Option.map_some]
      refine .wait hresolve' ?_
      rwa [FlowScheduler.forget_remDependencies]
  | @run flow _ _ _ _ s s' hresolve hrem hstart =>
    have hresolve' : s.forget.resolve (some flow) = some s'.forget := by
      rw [FlowScheduler.forget_resolve, hresolve, Option.map_some]
    exact .run hresolve' ((FlowScheduler.forget_remDependencies ..).trans hrem) hstart
  | finish =>
    unfold FlowSimulation.forget
    rw [FlowScheduler.forget_checkForeground]
    exact .finish
  | leave => exact .leave
  | completed => exact .completed

/-- Telling a null pointer is not seen. -/
theorem Step.forget_eq (h : Step x call y) (hvisible : visible call = false) :
    y.forget = x.forget := by
  cases h with
  | @wait target _ _ _ _ s s' hresolve _ =>
    cases target with
    | none =>
      simp [FlowSimulation.forget, FlowScheduler.forget_resolve_none hresolve, FlowFrame.forget]
    | some flow => cases hvisible
  | _ => cases hvisible

/-- The null pointer is not what has to be told next. -/
def Ready (x : FlowSimulation) : Prop :=
  ∀ flow targets stack, x.frames ≠ .onFlowFinish flow (none :: targets) :: stack

/-- What has to be told next when the null pointers are forgotten. -/
theorem Ready.targets {targets rest : List FlowPtr}
    (h : Ready ⟨s, added, .onFlowFinish flow targets :: stack⟩)
    (heq : targets.filter Option.isSome = target :: rest) :
    ∃ t targets', target = some t ∧ targets = some t :: targets' ∧
      targets'.filter Option.isSome = rest := by
  match targets, h, heq with
  | some t :: targets', _, heq =>
    obtain ⟨rfl, hrest⟩ := List.cons.inj heq
    exact ⟨t, targets', rfl, rfl, hrest⟩
  | none :: targets', h, _ => exact absurd rfl (h flow targets' stack)

theorem forget_eq_nil (h : x.forget = ⟨t, added, []⟩) : ∃ s, x = ⟨s, added, []⟩ ∧ s.forget = t := by
  obtain ⟨s, added', frames⟩ := x
  obtain ⟨hs, rfl, hframes⟩ := FlowSimulation.mk.inj h
  cases List.map_eq_nil_iff.mp hframes
  exact ⟨s, rfl, hs⟩

theorem forget_eq_cons {stack' : List FlowFrame} (h : x.forget = ⟨t, added, frame' :: stack'⟩) :
    ∃ s frame stack, x = ⟨s, added, frame :: stack⟩ ∧ s.forget = t ∧ frame.forget = frame' ∧
      stack.map FlowFrame.forget = stack' := by
  obtain ⟨s, added', frames⟩ := x
  obtain ⟨hs, rfl, hframes⟩ := FlowSimulation.mk.inj h
  obtain ⟨frame, stack, rfl, hframe, hstack⟩ := List.map_eq_cons_iff.mp hframes
  exact ⟨s, frame, stack, rfl, hs, hframe, hstack⟩

/-- A step without the null pointers is also one with them, if it is not their turn. -/
theorem Step.remember (h : Step x.forget call y) (hready : Ready x)
    (htarget : ∀ dependency, call ≠ .addDependency none dependency) :
    ∃ x', Step x call x' ∧ x'.forget = y ∧ visible call = true := by
  generalize hx : x.forget = z at h
  cases h with
  | start hstop hevents hbefore hafter hrem =>
    obtain ⟨s, rfl, rfl⟩ := forget_eq_nil hx
    rw [FlowScheduler.forget_remDependencies] at hrem
    exact ⟨_, .start hstop hevents hbefore hafter hrem, rfl, rfl⟩
  | hold hstop hevents hbefore hafter hrem =>
    obtain ⟨s, rfl, rfl⟩ := forget_eq_nil hx
    rw [FlowScheduler.forget_remDependencies] at hrem
    exact ⟨_, .hold hstop hevents hbefore hafter hrem, rfl, rfl⟩
  | test hstop hevents hbefore hafter =>
    obtain ⟨s, rfl, rfl⟩ := forget_eq_nil hx
    refine ⟨_, .test hstop hevents hbefore hafter, ?_, rfl⟩
    unfold FlowSimulation.forget
    rw [FlowScheduler.forget_checkForeground]
    rfl
  | event hstop hnow hevents =>
    obtain ⟨s, rfl, rfl⟩ := forget_eq_nil hx
    exact ⟨_, .event hstop hnow hevents, rfl, rfl⟩
  | create =>
    obtain ⟨s, frame, stack, rfl, rfl, hframe, rfl⟩ := forget_eq_cons hx
    cases forget_eq_outside.mp hframe
    exact ⟨_, .create, rfl, rfl⟩
  | addFlow hlt =>
    obtain ⟨s, frame, stack, rfl, rfl, hframe, rfl⟩ := forget_eq_cons hx
    cases forget_eq_outside.mp hframe
    exact ⟨_, .addFlow hlt, rfl, rfl⟩
  | @addDependency target dependency _ _ _ s' htargets hdependencies hs' =>
    obtain ⟨s, frame, stack, rfl, rfl, hframe, rfl⟩ := forget_eq_cons hx
    cases forget_eq_outside.mp hframe
    cases target with
    | none => exact absurd rfl (htarget dependency)
    | some flow =>
      rw [FlowScheduler.forget_addDependency] at hs'
      obtain ⟨s'', hs'', rfl⟩ := Option.map_eq_some_iff.mp hs'
      refine ⟨_, .addDependency htargets (fun d hd => ?_) hs'', rfl, rfl⟩
      refine (hdependencies d hd).imp id fun hor => hor.imp (fun hmem => ?_)
        fun hno targets hmem => ?_
      · exact (List.mem_filter.mp hmem).1
      · obtain ⟨targets', hmem'⟩ := onFlowFinish_mem_map_forget.mpr ⟨targets, hmem⟩
        exact hno targets' hmem'
  | notifyComplete hcallbacks hcompleted =>
    obtain ⟨s, frame, stack, rfl, rfl, hframe, rfl⟩ := forget_eq_cons hx
    cases forget_eq_outside.mp hframe
    exact ⟨_, .notifyComplete hcallbacks hcompleted, rfl, rfl⟩
  | callback =>
    obtain ⟨s, frame, stack, rfl, rfl, hframe, rfl⟩ := forget_eq_cons hx
    cases forget_eq_notifyComplete.mp hframe
    exact ⟨_, .callback, rfl, rfl⟩
  | @onFlowFinish flow _ _ _ targets _ s' hfinish hperm =>
    obtain ⟨s, frame, stack, rfl, rfl, hframe, rfl⟩ := forget_eq_cons hx
    cases forget_eq_notifyComplete.mp hframe
    rw [FlowScheduler.forget_finishFlow] at hfinish
    obtain ⟨s'', hs'', rfl⟩ := Option.map_eq_some_iff.mp hfinish
    -- the null pointers are told last
    have hparts := (hperm.append_right _).trans
      (List.filter_append_perm Option.isSome (s''.dependencies flow))
    refine ⟨_, .onFlowFinish hs'' hparts, ?_, rfl⟩
    have hsome : targets.filter Option.isSome = targets :=
      List.filter_eq_self.mpr fun t ht => (List.mem_filter.mp (hperm.mem_iff.mp ht)).2
    have hnone : ∀ t ∈ s''.dependencies flow, t.isSome = true → ¬t = none := fun t _ ht heq => by
      rw [heq] at ht
      cases ht
    simpa [FlowSimulation.forget, FlowFrame.forget, List.filter_filter, hsome] using hnone
  | @wait target _ _ _ _ _ s' hresolve hwait =>
    obtain ⟨s, frame, stack, rfl, rfl, hframe, rfl⟩ := forget_eq_cons hx
    obtain ⟨targets, rfl, htargets⟩ := forget_eq_onFlowFinish.mp hframe
    obtain ⟨t, targets, rfl, rfl, rfl⟩ := hready.targets htargets
    rw [FlowScheduler.forget_resolve] at hresolve
    obtain ⟨s'', hs'', rfl⟩ := Option.map_eq_some_iff.mp hresolve
    rw [FlowScheduler.forget_remDependencies] at hwait
    exact ⟨_, .wait hs'' hwait, rfl, rfl⟩
  | run hresolve hrem hstart =>
    obtain ⟨s, frame, stack, rfl, rfl, hframe, rfl⟩ := forget_eq_cons hx
    obtain ⟨targets, rfl, htargets⟩ := forget_eq_onFlowFinish.mp hframe
    obtain ⟨t, targets, ht, rfl, rfl⟩ := hready.targets htargets
    cases ht
    rw [FlowScheduler.forget_resolve] at hresolve
    obtain ⟨s'', hs'', rfl⟩ := Option.map_eq_some_iff.mp hresolve
    rw [FlowScheduler.forget_remDependencies] at hrem
    exact ⟨_, .run hs'' hrem hstart, rfl, rfl⟩
  | finish =>
    obtain ⟨s, frame, stack, rfl, rfl, hframe, rfl⟩ := forget_eq_cons hx
    obtain ⟨targets, rfl, htargets⟩ := forget_eq_onFlowFinish.mp hframe
    match targets, htargets, hready with
    | [], _, _ =>
      refine ⟨_, .finish, ?_, rfl⟩
      unfold FlowSimulation.forget
      rw [FlowScheduler.forget_checkForeground]
    | none :: targets, _, hready => exact absurd rfl (hready _ targets stack)
  | leave =>
    obtain ⟨s, frame, stack, rfl, rfl, hframe, rfl⟩ := forget_eq_cons hx
    cases forget_eq_outside.mp hframe
    exact ⟨_, .leave, rfl, rfl⟩
  | completed =>
    obtain ⟨s, frame, stack, rfl, rfl, hframe, rfl⟩ := forget_eq_cons hx
    cases forget_eq_notifyComplete.mp hframe
    exact ⟨_, .completed, rfl, rfl⟩

/-! ## The counter of the null pointer -/

open FlowScheduler (disabledDependencies)

/-- How often a frame has still to tell the null pointer of a completion. -/
def pendingNull (ds : List Nat) : FlowFrame → Nat
  | .outside => 0
  | .notifyComplete flow n => if flow ∈ ds then n else 0
  | .onFlowFinish _ targets => targets.count none

/-- The counter of the null pointer stays positive. -/
structure Sparing (ds : List Nat) (s : FlowScheduler) (frames : List FlowFrame) : Prop where
  dependencies : ∀ d, none ∈ s.dependencies d → d ∈ ds
  once : ∀ d, (s.dependencies d).count none ≤ 1
  nonempty : ∀ frame ∈ frames, 0 < pendingNull ds frame → ds ≠ []
  completed : ds = [] ∨ ds.dedup.countP (s.completed ·) < ds.length
  count : ds.length + (frames.map (pendingNull ds)).sum ≤
    s.remDependencies none + ds.dedup.countP (s.completed ·)

section
variable {ds : List Nat} {s s' : FlowScheduler} {frames : List FlowFrame} {frame : FlowFrame}

theorem Sparing.congr (h : Sparing ds s frames) (hd : s'.dependencies = s.dependencies)
    (hr : s'.remDependencies none = s.remDependencies none) (hc : s'.completed = s.completed) :
    Sparing ds s' frames :=
  ⟨hd ▸ h.dependencies, hd ▸ h.once, h.nonempty, hc ▸ h.completed, hr ▸ hc ▸ h.count⟩

/-- A frame that has nothing to tell the null pointer. -/
theorem sparing_cons (hf : pendingNull ds frame = 0) :
    Sparing ds s (frame :: frames) ↔ Sparing ds s frames := by
  have hsum : ((frame :: frames).map (pendingNull ds)).sum = (frames.map (pendingNull ds)).sum := by
    rw [List.map_cons, List.sum_cons, hf, Nat.zero_add]
  constructor
  · rintro ⟨hd, ho, hn, hc, hcount⟩
    exact ⟨hd, ho, (List.forall_mem_cons.mp hn).2, hc, hsum ▸ hcount⟩
  · rintro ⟨hd, ho, hn, hc, hcount⟩
    refine ⟨hd, ho, List.forall_mem_cons.mpr ⟨fun hpos => ?_, hn⟩, hc, hsum.symm ▸ hcount⟩
    rw [hf] at hpos
    cases hpos

theorem Sparing.checkForeground (h : Sparing ds s frames) :
    Sparing ds s.checkForeground frames := by
  unfold FlowScheduler.checkForeground
  split
  · exact h.congr rfl rfl rfl
  · exact h

theorem Sparing.declare (h : Sparing ds s frames)
    (hs' : s.addDependency (some flow) dependency = some s') : Sparing ds s' frames := by
  obtain ⟨d, rfl, hs'⟩ := Option.bind_eq_some_iff.mp hs'
  cases hs'
  have hcount : ∀ e,
      (update s.dependencies d ((s.dependencies d).insert (some flow)) e).count none =
      (s.dependencies e).count none := by
    intro e
    rcases eq_or_ne e d with rfl | he
    · rw [update_self]
      by_cases hmem : some flow ∈ s.dependencies e <;> simp [List.insert, hmem]
    · rw [update_of_ne he]
  refine ⟨fun e hmem => h.dependencies e ?_, fun e => ?_, h.nonempty, h.completed, ?_⟩
  · exact List.count_pos_iff.mp (hcount e ▸ List.count_pos_iff.mpr hmem)
  · exact hcount e ▸ h.once e
  · have hrem : (if s.completed d then s.remDependencies else
        update s.remDependencies (some flow) (s.remDependencies (some flow) + 1)) none =
        s.remDependencies none := by
      split
      · rfl
      · exact update_of_ne (Option.some_ne_none flow).symm ..
    dsimp only
    rw [hrem]
    exact h.count

/-- A flow completes. -/
theorem Sparing.notifyComplete (h : Sparing ds s frames) (hc : s.completed flow = false)
    (hspares : flow ∈ ds → s.callbacks flow = 1 ∧ ds.dedup.countP (s.completed ·) + 1 < ds.length) :
    Sparing ds { s with completed := update s.completed flow true }
      (.notifyComplete flow (s.callbacks flow) :: frames) := by
  by_cases hflow : flow ∈ ds
  · obtain ⟨hone, hlt⟩ := hspares hflow
    have hsucc : ds.dedup.countP (update s.completed flow true ·) =
      ds.dedup.countP (s.completed ·) + 1 := by
      refine countP_eq_succ_of_nodup (List.nodup_dedup ds) (List.mem_dedup.mpr hflow)
        (fun t _ ht => ?_) hc (update_self ..)
      rw [update_of_ne ht]
    refine ⟨h.dependencies, h.once, ?_, .inr (hsucc ▸ hlt), ?_⟩
    · exact List.forall_mem_cons.mpr ⟨fun _ => List.ne_nil_of_mem hflow, h.nonempty⟩
    · have hcount := h.count
      rw [List.map_cons, List.sum_cons, pendingNull, if_pos hflow, hone]
      dsimp only
      omega
  · rw [sparing_cons (by rw [pendingNull, if_neg hflow])]
    have hsame : ds.dedup.countP (update s.completed flow true ·) =
      ds.dedup.countP (s.completed ·) := by
      refine List.countP_congr fun t ht => ?_
      have hne : t ≠ flow := fun heq => hflow (heq ▸ List.mem_dedup.mp ht)
      rw [update_of_ne hne]
    exact ⟨h.dependencies, h.once, h.nonempty, hsame.symm ▸ h.completed, hsame.symm ▸ h.count⟩

/-- The loop over the targets is entered. -/
theorem Sparing.onFlowFinish (h : Sparing ds s (.notifyComplete flow (n + 1) :: frames))
    (hperm : targets.Perm (s.dependencies flow)) :
    Sparing ds s (.onFlowFinish flow targets :: .notifyComplete flow n :: frames) := by
  obtain ⟨-, hrest⟩ := List.forall_mem_cons.mp h.nonempty
  have hle : targets.count none + (if flow ∈ ds then n else 0) ≤
    if flow ∈ ds then n + 1 else 0 := by
    have honce := h.once flow
    have hmem := h.dependencies flow
    rw [← List.count_pos_iff] at hmem
    rw [← hperm.count_eq] at honce hmem
    split <;> grind
  refine ⟨h.dependencies, h.once, ?_, h.completed, ?_⟩
  · refine List.forall_mem_cons.mpr ⟨fun hpos => ?_,
      List.forall_mem_cons.mpr ⟨fun hpos => ?_, hrest⟩⟩
    · rw [pendingNull, hperm.count_eq, List.count_pos_iff] at hpos
      exact List.ne_nil_of_mem (h.dependencies flow hpos)
    · rw [pendingNull] at hpos
      split at hpos
      next hflow => exact List.ne_nil_of_mem hflow
      next => cases hpos
  · have hcount := h.count
    simp only [List.map_cons, List.sum_cons, pendingNull] at hcount ⊢
    omega

/-- A target is told. -/
theorem Sparing.tell (h : Sparing ds s (.onFlowFinish flow (target :: targets) :: frames))
    (hs' : s.resolve target = some s') : Sparing ds s' (.onFlowFinish flow targets :: frames) := by
  obtain ⟨hhead, hrest⟩ := List.forall_mem_cons.mp h.nonempty
  unfold FlowScheduler.resolve at hs'
  split at hs'
  next => cases hs'
  next hrem =>
    cases hs'
    refine ⟨h.dependencies, h.once, ?_, h.completed, ?_⟩
    · refine List.forall_mem_cons.mpr ⟨fun hpos => hhead (hpos.trans_le ?_), hrest⟩
      exact List.count_le_count_cons
    · have hcount := h.count
      simp only [List.map_cons, List.sum_cons, pendingNull, List.count_cons] at hcount ⊢
      rcases eq_or_ne target none with rfl | ht
      · simp only [update_self, beq_self_eq_true, if_true] at hcount ⊢
        omega
      · rw [update_of_ne ht.symm]
        have hbeq : (target == none) = false := beq_false_of_ne ht
        simp only [hbeq, Bool.false_eq_true, if_false] at hcount
        omega

/-- The null pointer is told of a completion, and still waits. -/
theorem Sparing.resolve_none (h : Sparing ds s (.onFlowFinish flow (none :: targets) :: frames)) :
    ∃ s', s.resolve none = some s' ∧ s'.remDependencies none ≠ 0 := by
  have hcount := h.count
  have hnonempty := h.nonempty _ List.mem_cons_self (by simp [pendingNull])
  have hlt := h.completed.resolve_left hnonempty
  simp only [List.map_cons, List.sum_cons, pendingNull, List.count_cons_self] at hcount
  have hrem : s.remDependencies none ≠ 0 := by omega
  refine ⟨_, if_neg hrem, ?_⟩
  dsimp only
  rw [update_self]
  omega

end

theorem Sparing.step (h : Sparing (disabledDependencies infos) x.scheduler x.frames)
    (hspares : Spares infos x call) (hs : Step x call y) :
    Sparing (disabledDependencies infos) y.scheduler y.frames := by
  cases hs with
  | start | event => exact (sparing_cons rfl).mpr (h.congr rfl rfl rfl)
  | hold => exact h.congr rfl rfl rfl
  | test =>
    refine Sparing.checkForeground ?_
    exact h.congr rfl rfl rfl
  | create | addFlow => exact h.congr rfl rfl rfl
  | @addDependency target _ _ _ _ _ _ _ hs' =>
    cases target with
    | none => exact absurd rfl hspares
    | some flow => exact h.declare hs'
  | notifyComplete _ hc => exact h.notifyComplete hc hspares
  | callback => exact (sparing_cons rfl).mpr h
  | onFlowFinish hfinish hperm =>
    unfold FlowScheduler.finishFlow at hfinish
    split at hfinish
    next => cases hfinish
    next =>
      cases hfinish
      refine Sparing.onFlowFinish ?_ hperm
      exact h.congr rfl rfl rfl
  | wait hs' => exact h.tell hs'
  | run hs' =>
    refine (sparing_cons rfl).mpr ?_
    exact (h.tell hs').congr rfl rfl rfl
  | finish =>
    refine Sparing.checkForeground ?_
    exact (sparing_cons rfl).mp h
  | leave => exact (sparing_cons rfl).mp h
  | completed => exact (sparing_cons (by simp [pendingNull])).mp h

/-- The null pointers whose turn it is can be told. -/
theorem Sparing.ready_of_onFlowFinish {s : FlowScheduler} (added : List Nat)
    (h : Sparing (disabledDependencies infos) s (.onFlowFinish flow targets :: stack)) :
    ∃ tr x', ((machine infos).restrict (Spares infos)).Trace
      ⟨s, added, .onFlowFinish flow targets :: stack⟩ tr x' ∧ Ready x' ∧
      x'.forget = forget ⟨s, added, .onFlowFinish flow targets :: stack⟩ ∧
      Machine.visible visible forget tr = [] := by
  induction targets generalizing s with
  | nil =>
    refine ⟨[], _, .nil, ?_, rfl, rfl⟩
    rintro flow' targets stack' ⟨⟩
  | cons target targets ih =>
    cases target with
    | some t =>
      refine ⟨[], _, .nil, ?_, rfl, rfl⟩
      rintro flow' targets' stack' ⟨⟩
    | none =>
      obtain ⟨s', hs', hrem⟩ := h.resolve_none
      have hstep : ((machine infos).restrict (Spares infos)).step
          ⟨s, added, .onFlowFinish flow (none :: targets) :: stack⟩ (.tell none)
          ⟨s', added, .onFlowFinish flow targets :: stack⟩ := ⟨trivial, .wait hs' (.inl hrem)⟩
      obtain ⟨tr, x', htrace, hready, hforget, hv⟩ := ih (h.tell hs')
      refine ⟨_, x', (Machine.Trace.snoc .nil hstep).append htrace, hready,
        hforget.trans (hstep.2.forget_eq rfl), ?_⟩
      rw [Machine.visible_append, hv]
      rfl

theorem Sparing.ready (h : Sparing (disabledDependencies infos) x.scheduler x.frames) :
    ∃ tr x', ((machine infos).restrict (Spares infos)).Trace x tr x' ∧ Ready x' ∧
      x'.forget = x.forget ∧ Machine.visible visible forget tr = [] := by
  obtain ⟨s, added, frames⟩ := x
  by_cases hready : Ready ⟨s, added, frames⟩
  · exact ⟨[], _, .nil, hready, rfl, rfl⟩
  · simp only [Ready, not_forall, not_not] at hready
    obtain ⟨flow, targets, stack, rfl⟩ := hready
    exact h.ready_of_onFlowFinish added

theorem Sparing.lift (h : Sparing (disabledDependencies infos) x.scheduler x.frames)
    (hstep : ((machine (FlowScheduler.withoutDisabled infos)).restrict (Spares infos)).step
      x.forget call y) :
    ∃ tr x', ((machine infos).restrict (Spares infos)).Trace x tr x' ∧ x'.forget = y ∧
      Machine.visible visible forget tr = [⟨x.forget, call, y⟩] := by
  obtain ⟨hspares, hstep⟩ := hstep
  obtain ⟨tr, x₁, htrace, hready, hforget, hv⟩ := h.ready
  have htarget : ∀ dependency, call ≠ .addDependency none dependency := by
    rintro dependency rfl
    exact hspares rfl
  rw [← hforget] at hstep hspares
  obtain ⟨x₂, hstep₂, rfl, hvisible⟩ := hstep.remember hready htarget
  refine ⟨_, x₂, htrace.snoc ⟨hspares, hstep₂⟩, rfl, ?_⟩
  rw [Machine.visible_append, hv, ← hforget]
  simp [Machine.visible, hvisible]

end FlowSimulation

/-! ## The constructor -/

namespace FlowScheduler

variable {infos : List SerializedFlow} {s s' : FlowScheduler}

theorem assignIds_filter (n : Nat) (infos : List SerializedFlow) :
    assignIds n (infos.filter (·.enable)) = (assignIds n infos).filter (·.enable) := by
  induction infos generalizing n with
  | nil => rfl
  | cons info infos ih =>
    cases he : info.enable <;> by_cases hid : info.id.isEmpty <;> simp [assignIds, he, hid, ih]

/-- The entries that get an id are enabled. -/
theorem mem_assignIds {info : SerializedFlow} (h : info ∈ assignIds n infos) : ∃ info' ∈ infos,
    info.dependencies = info'.dependencies ∧ info.enable = info'.enable ∧
      (info.enable = false → info = info') := by
  induction infos generalizing n with
  | nil => cases h
  | cons info' infos ih =>
    have hrest : ∀ n, info ∈ assignIds n infos → ∃ info'' ∈ info' :: infos,
        info.dependencies = info''.dependencies ∧ info.enable = info''.enable ∧
          (info.enable = false → info = info'') := by
      intro n hmem
      obtain ⟨info'', hmem, h⟩ := ih hmem
      exact ⟨info'', List.mem_cons_of_mem _ hmem, h⟩
    rw [assignIds] at h
    split at h
    next hid =>
      rcases List.mem_cons.mp h with rfl | h
      · refine ⟨info', List.mem_cons_self, rfl, rfl, fun he => ?_⟩
        rw [Bool.and_eq_true] at hid
        exact absurd (hid.1.symm.trans he) (by decide)
      · exact hrest _ h
    next =>
      rcases List.mem_cons.mp h with rfl | h
      · exact ⟨info, List.mem_cons_self, rfl, rfl, fun _ => rfl⟩
      · exact hrest _ h

/-- Every entry keeps its dependencies. -/
theorem dependencies_assignIds (n : Nat) (infos : List SerializedFlow) :
    (assignIds n infos).map (·.dependencies) = infos.map (·.dependencies) := by
  induction infos generalizing n with
  | nil => rfl
  | cons info infos ih =>
    rw [assignIds]
    split <;> simp [ih]

theorem foldl_findFlow (id : String) (l : List (SerializedFlow × Nat)) (ptr : FlowPtr)
    (h : ptr ≠ none ∨ ∃ p ∈ l, p.1.id = id) :
    l.foldl (fun ptr (info, flow) => if info.id = id then some flow else ptr) ptr ≠ none := by
  induction l generalizing ptr with
  | nil => exact h.resolve_right fun ⟨p, hmem, _⟩ => absurd hmem List.not_mem_nil
  | cons p l ih =>
    refine ih _ ?_
    dsimp only
    split
    next => exact .inl (Option.some_ne_none _)
    next hne =>
      refine h.imp_right fun ⟨p', hmem, hid⟩ => ⟨p', (List.mem_cons.mp hmem).resolve_left ?_, hid⟩
      rintro rfl
      exact hne hid

theorem findFlow_ne_none {info : SerializedFlow} (h : info ∈ created infos) :
    findFlow infos info.id ≠ none := by
  refine foldl_findFlow _ _ _ (.inr ?_)
  obtain ⟨n, hn⟩ := List.mem_iff_getElem?.mp h
  exact ⟨(info, n), List.mk_mem_zipIdx_iff_getElem?.mpr hn, rfl⟩

theorem mem_dependencyCalls (h : call ∈ dependencyCalls infos) : ∃ info ∈ assignIds 0 infos,
    ∃ dep ∈ info.dependencies, call = (findFlow infos info.id, findFlow infos dep) := by
  obtain ⟨info, hinfo, hcall⟩ := List.mem_flatMap.mp h
  obtain ⟨dep, hdep, rfl⟩ := List.mem_map.mp hcall
  exact ⟨info, hinfo, dep, hdep, rfl⟩

theorem dependencyCalls_ne_none : (∀ call ∈ dependencyCalls infos, call.2 ≠ none) ↔
    ∀ info ∈ infos, ∀ dep ∈ info.dependencies, findFlow infos dep ≠ none := by
  constructor
  · intro h info hinfo dep hdep
    have hmem : info.dependencies ∈ (assignIds 0 infos).map (·.dependencies) := by
      rw [dependencies_assignIds]
      exact List.mem_map_of_mem hinfo
    obtain ⟨info', hinfo', heq⟩ := List.mem_map.mp hmem
    have hcall : (findFlow infos info'.id, findFlow infos dep) ∈ dependencyCalls infos := by
      refine List.mem_flatMap.mpr ⟨info', hinfo', List.mem_map_of_mem ?_⟩
      rwa [heq]
    exact h _ hcall
  · intro h call hcall
    obtain ⟨info, hinfo, dep, hdep, rfl⟩ := mem_dependencyCalls hcall
    obtain ⟨info', hinfo', heq, -⟩ := mem_assignIds hinfo
    exact h info' hinfo' dep (heq ▸ hdep)

/-- The dependencies can be declared, and are the same when the null pointers are forgotten. -/
theorem forget_foldlM {calls : List (FlowPtr × FlowPtr)} (h : ∀ call ∈ calls, call.2 ≠ none)
    (s : FlowScheduler) : ∃ s',
      calls.foldlM (fun s call => s.addDependency call.1 call.2) s = some s' ∧
      (calls.filter (·.1.isSome)).foldlM (fun s call => s.addDependency call.1 call.2) s.forget =
        some s'.forget := by
  induction calls generalizing s with
  | nil => exact ⟨s, rfl, rfl⟩
  | cons call calls ih =>
    obtain ⟨hcall, hcalls⟩ := List.forall_mem_cons.mp h
    obtain ⟨target, dependency⟩ := call
    obtain ⟨d, rfl⟩ := Option.ne_none_iff_exists'.mp hcall
    obtain ⟨s', hs', hforget⟩ := ih hcalls _
    refine ⟨s', hs', ?_⟩
    cases target with
    | none =>
      rw [List.filter_cons_of_neg Bool.false_ne_true, ← hforget]
      exact congrArg (fun s => (calls.filter (·.1.isSome)).foldlM
        (fun s call => s.addDependency call.1 call.2) s)
        (Option.some.inj (forget_addDependency_none s d)).symm
    | some flow =>
      rw [List.filter_cons_of_pos rfl, List.foldlM_cons, forget_addDependency]
      exact hforget

/-- The scheduler can be built if and only if every dependency names an enabled entry. -/
theorem construct_isSome_iff : (construct infos).isSome ↔
    ∀ info ∈ infos, ∀ dep ∈ info.dependencies, findFlow infos dep ≠ none := by
  rw [← dependencyCalls_ne_none]
  constructor
  · intro h
    obtain ⟨s, hs⟩ := Option.isSome_iff_exists.mp h
    obtain ⟨s₁, hs₁, -⟩ := Option.bind_eq_some_iff.mp hs
    have hadd := added_foldl (created infos) {}
    exact (declared_foldlM _ (fun flow => by rw [hadd.rest]) hs₁).dependency
  · intro h
    obtain ⟨s, hs, -⟩ := forget_foldlM h { (created infos).foldl addFlow {} with
      names := fun flow => (created infos)[flow]?.map (·.id) }
    simp [construct, hs]

theorem DisabledApart.withoutDisabled_eq (h : DisabledApart infos) :
    withoutDisabled infos = infos.filter (·.enable) := by
  have hsame : ∀ info ∈ infos.filter (·.enable), { info with
      dependencies := info.dependencies.filter (¬NamesDisabled infos ·) } = info := by
    intro info hinfo
    have hnamed := h.named info (List.mem_filter.mp hinfo).1
    have hall : info.dependencies.filter (¬NamesDisabled infos ·) = info.dependencies :=
      List.filter_eq_self.mpr fun dep hdep => decide_eq_true fun hnames => hnamed dep hdep hnames.1
    rw [hall]
  exact (List.map_congr_left hsame).trans (List.map_id _)

theorem DisabledApart.created (h : DisabledApart infos) :
    FlowScheduler.created (withoutDisabled infos) = FlowScheduler.created infos := by
  rw [FlowScheduler.created, h.withoutDisabled_eq, assignIds_filter, List.filter_filter]
  simp [FlowScheduler.created]

theorem flatMap_filter (p : α → Bool) (f : α → List β) (l : List α) :
    (l.filter p).flatMap f = l.flatMap fun a => if p a then f a else [] := by
  induction l with
  | nil => rfl
  | cons a l ih => cases hp : p a <;> simp [hp, ih]

theorem DisabledApart.dependencyCalls (h : DisabledApart infos) :
    FlowScheduler.dependencyCalls (withoutDisabled infos) =
      (FlowScheduler.dependencyCalls infos).filter (·.1.isSome) := by
  have hfind : findFlow (withoutDisabled infos) = findFlow infos := by
    funext id
    rw [findFlow, h.created, findFlow]
  rw [FlowScheduler.dependencyCalls, hfind, h.withoutDisabled_eq, assignIds_filter,
    FlowScheduler.dependencyCalls, List.filter_flatMap, flatMap_filter]
  refine List.flatMap_congr fun info hinfo => ?_
  obtain ⟨info', hinfo', hdeps, -, hdisabled⟩ := mem_assignIds hinfo
  split
  next he =>
    have hsome : findFlow infos info.id ≠ none :=
      findFlow_ne_none (List.mem_filter.mpr ⟨hinfo, he⟩)
    refine (List.filter_eq_self.mpr fun call hcall => ?_).symm
    obtain ⟨dep, -, rfl⟩ := List.mem_map.mp hcall
    exact Option.isSome_iff_ne_none.mpr hsome
  next he =>
    cases hdisabled (Bool.eq_false_iff.mpr he)
    refine (List.filter_eq_nil_iff.mpr fun call hcall => ?_).symm
    obtain ⟨dep, hdep, rfl⟩ := List.mem_map.mp hcall
    rw [h.apart info hinfo' (Bool.eq_false_iff.mpr he) (List.ne_nil_of_mem hdep)]
    exact Bool.false_ne_true

theorem forget_foldl_addFlow (infos : List SerializedFlow) (s : FlowScheduler) :
    (infos.foldl addFlow s).forget = infos.foldl addFlow s.forget := by
  induction infos generalizing s with
  | nil => rfl
  | cons info infos ih => exact ih (s.addFlow info)

/-- Without the disabled entries the scheduler is the same, up to the null pointers. -/
theorem DisabledApart.construct (h : DisabledApart infos)
    (hs : FlowScheduler.construct infos = some s) :
    FlowScheduler.construct (withoutDisabled infos) = some s.forget := by
  obtain ⟨s₁, hs₁, hs⟩ := Option.bind_eq_some_iff.mp hs
  cases hs
  let named (s : FlowScheduler) : FlowScheduler :=
    { s with names := fun flow => (FlowScheduler.created infos)[flow]?.map (·.id) }
  obtain ⟨s₂, hs₂, hforget⟩ := forget_foldlM (dependencyCalls_ne_none.mpr h.named)
    (named ((FlowScheduler.created infos).foldl addFlow {}))
  obtain rfl := Option.some.inj (hs₁.symm.trans hs₂)
  have hempty : forget {} = {} := by simp [forget]
  have hstart := congrArg named (forget_foldl_addFlow (FlowScheduler.created infos) {})
  rw [hempty] at hstart
  rw [FlowScheduler.construct, h.created, h.dependencyCalls]
  refine Option.bind_eq_some_iff.mpr ⟨s₁.forget, ?_, rfl⟩
  exact (congrArg (fun s => ((FlowScheduler.dependencyCalls infos).filter (·.1.isSome)).foldlM
    (fun s call => s.addDependency call.1 call.2) s) hstart.symm).trans hforget

end FlowScheduler

namespace FlowSimulation

variable {infos : List SerializedFlow} {x y : FlowSimulation} {call : FlowCall}

open FlowScheduler (disabledDependencies)

theorem Sparing.construct (h : FlowScheduler.construct infos = some s) :
    Sparing (disabledDependencies infos) s [] := by
  obtain ⟨s₁, hs₁, h⟩ := Option.bind_eq_some_iff.mp h
  cases h
  have hadd := FlowScheduler.added_foldl (FlowScheduler.created infos) {}
  have hdecl := FlowScheduler.declared_foldlM _ (fun flow => by rw [hadd.rest]) hs₁
  have hrest := hdecl.rest
  rw [hadd.rest] at hdecl hrest
  have hcompleted : s₁.completed = fun _ => false := congrArg FlowScheduler.completed hrest
  have hzero : (disabledDependencies infos).dedup.countP (s₁.completed ·) = 0 := by
    simp [hcompleted]
  have hlength : (disabledDependencies infos).length =
      (FlowScheduler.dependencyCalls infos).countP (·.1 = none) := by
    rw [disabledDependencies, List.length_filterMap_eq_countP]
    refine List.countP_congr fun call hcall => ?_
    have hsome := hdecl.dependency call hcall
    by_cases hnone : call.1 = none <;> simp [hnone, Option.isSome_iff_ne_none, hsome]
  constructor
  case dependencies =>
    intro d hd
    have hmem := ((hdecl.mem_dependencies d none).mp hd).resolve_left List.not_mem_nil
    exact List.mem_filterMap.mpr ⟨_, hmem, rfl⟩
  case once =>
    exact fun d => List.nodup_iff_count_le_one.mp (hdecl.nodup (fun _ => List.nodup_nil) d) none
  case nonempty => exact fun frame hmem => absurd hmem List.not_mem_nil
  case completed =>
    refine (List.eq_nil_or_concat _).imp_right fun ⟨ds, d, heq⟩ => ?_
    dsimp only
    rw [hzero, heq, List.concat_eq_append, List.length_append]
    exact Nat.succ_pos _
  case count =>
    dsimp only
    rw [hzero, hlength, hdecl.rem none]
    simp

theorem shows_visible (tr : List (Machine.Taken FlowSimulation FlowCall)) :
    shows (Machine.visible visible forget tr) = shows tr := by
  have hfilter : (Machine.visible visible forget tr).filter (visible ·.event) =
      Machine.visible visible forget tr := by
    refine List.filter_eq_self.mpr fun st hst => ?_
    obtain ⟨st', hst', rfl⟩ := List.mem_map.mp hst
    exact (List.mem_filter.mp hst').2
  rw [shows, hfilter, Machine.visible, List.map_map]
  rfl

/-- Disabled flows have no effect, if their entries are apart from the others and the flows that
they depend on do not all complete. -/
theorem disabled_no_effect (h : FlowScheduler.DisabledApart infos) :
    NoEffect infos (Spares infos) := by
  refine ⟨FlowScheduler.construct_isSome_iff.mpr h.named, ?_⟩
  rintro _ tr x ⟨s, hs, rfl⟩ htrace
  have hhidden : ∀ {x call y}, ((machine infos).restrict (Spares infos)).step x call y →
      visible call = false → y.forget = x.forget := fun hstep hv => hstep.2.forget_eq hv
  have hvisible : ∀ {x call y}, ((machine infos).restrict (Spares infos)).step x call y →
      visible call = true →
        ((machine (FlowScheduler.withoutDisabled infos)).restrict (Spares infos)).step
        x.forget call y.forget := by
    rintro x call y ⟨hspares, hstep⟩ hv
    refine ⟨hspares, hstep.forget hv ?_⟩
    rintro dependency rfl
    exact hspares rfl
  have hinv : ∀ {x call y}, Sparing (disabledDependencies infos) x.scheduler x.frames →
      ((machine infos).restrict (Spares infos)).step x call y →
      Sparing (disabledDependencies infos) y.scheduler y.frames :=
        fun hx hstep => hx.step hstep.1 hstep.2
  have hx : Sparing (disabledDependencies infos) x.scheduler x.frames :=
    htrace.preserves (I := fun x => Sparing (disabledDependencies infos) x.scheduler x.frames) hinv
      (.construct hs)
  refine ⟨_, _, x.forget, ⟨s.forget, h.construct hs, rfl⟩, htrace.visible hhidden hvisible,
    shows_visible tr, fun tr' y' htrace' => ?_⟩
  obtain ⟨tr₁, x', htrace₁, -, rfl⟩ := htrace'.lift (f := forget) (p := visible)
    (I := fun x => Sparing (disabledDependencies infos) x.scheduler x.frames) hinv
    (fun hx hstep => hx.lift hstep) hx rfl
  exact ⟨tr₁, x', htrace₁, (shows_visible tr₁).symm⟩

/-- A null pointer that is told of its last dependency is read. -/
theorem no_step_of_null (hframes : x.frames = .onFlowFinish flow (none :: targets) :: stack)
    (hrem : x.scheduler.remDependencies none ≤ 1) : ¬Step x call y := by
  obtain ⟨s, added, frames⟩ := x
  cases hframes
  intro h
  cases h with
  | wait hs' hwait =>
    unfold FlowScheduler.resolve at hs'
    split at hs'
    next => cases hs'
    next =>
      cases hs'
      rcases hwait with hne | ⟨flow, heq, -⟩
      · dsimp only at hne hrem
        rw [update_self] at hne
        omega
      · cases heq

/-- A disabled flow that depends on an enabled one, which completes: its null pointer is read. -/
theorem reachable_null :
    ∃ x, (machine [{ id := "first", enable := true },
      { id := "second", dependencies := ["first"] }]).Reachable x ∧ x.frames ≠ [] ∧
        ∀ call y, ¬Step x call y := by
  let infos : List SerializedFlow :=
    [{ id := "first", enable := true }, { id := "second", dependencies := ["first"] }]
  let s₀ : FlowScheduler :=
    { flows := [{ id := "first", enable := true }]
      names := fun flow => (FlowScheduler.created infos)[flow]?.map (·.id)
      events := [(0, .start 0), (0, .checkForeground)]
      dependencies := update (fun _ => []) 0 [none]
      remDependencies := update (fun _ => 0) none 1 }
  have h₀ : (machine infos).Reachable ⟨s₀, [0], []⟩ := .init ⟨s₀, rfl, rfl⟩
  have h₁ := h₀.step (.start (l := []) rfl rfl (by simp) (by simp) rfl)
  have h₂ := h₁.step .leave
  have h₃ := h₂.step (.test (l := []) rfl rfl (by simp) (by simp))
  have h₄ := h₃.step (show Step _ (.event 5) _ from .event rfl (by decide) (by decide))
  have h₅ := h₄.step (show Step _ (.notifyComplete 0) _ from .notifyComplete (by decide) rfl)
  have h₆ := h₅.step (.onFlowFinish rfl (.refl [none]))
  exact ⟨_, h₆, List.cons_ne_nil _ _, fun _ _ => no_step_of_null rfl (by decide)⟩

/-- A flow that depends on a disabled one: its list cannot be read. And a list that can be read,
with a run that does not go on. -/
theorem disabled_dependency :
    (∃ infos : List SerializedFlow,
      ((infos.filter (·.enable)).map (·.id)).Nodup ∧ ¬NoEffect infos fun _ _ => True) ∧
    ∃ infos x, ((infos.filter (·.enable)).map (·.id)).Nodup ∧ (machine infos).Reachable x ∧
      x.frames ≠ [] ∧ ∀ call y, ¬Step x call y := by
  refine ⟨?_, ?_⟩
  · let infos : List SerializedFlow :=
      [{ id := "first", enable := true, dependencies := ["second"] }, { id := "second" }]
    refine ⟨infos, by decide, fun h => ?_⟩
    exact absurd h.constructed (by decide)
  · obtain ⟨x, hx⟩ := reachable_null
    exact ⟨_, x, by decide, hx⟩

/-- A disabled flow that depends on two others. -/
theorem disabled_no_effect_two : ∃ infos : List SerializedFlow,
    (∃ info ∈ infos, info.enable = false ∧ info.dependencies ≠ []) ∧
      NoEffect infos (Spares infos) := by
  let infos : List SerializedFlow :=
    [{ id := "first", enable := true }, { id := "second", enable := true },
      { id := "third", dependencies := ["first", "second"] }]
  refine ⟨infos, ⟨_, List.mem_cons_of_mem _ (List.mem_cons_of_mem _ List.mem_cons_self), rfl,
    by decide⟩, ?_⟩
  exact disabled_no_effect ⟨by decide, by decide⟩

end FlowSimulation
end Roce
