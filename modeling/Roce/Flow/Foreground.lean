import Roce.Flow.Scheduler
import Roce.Lib.Count

/-! # The end of the simulation

`m_fg_running` counts the foreground flows that run, so the simulation also ends when all of these
have completed while others have not started. This does not happen if all foreground flows may
start at once and wait for foreground flows only: then as long as one has not completed, one
runs. -/

namespace Roce

open Function

namespace FlowScheduler

/-- The foreground flows among the flows that were created. -/
def Foreground (created : List SerializedFlow) (flow : Nat) : Prop :=
  (created.getD flow { inBackground := true }).inBackground = false

instance (created : List SerializedFlow) : DecidablePred (Foreground created) := fun _ =>
  inferInstanceAs (Decidable (_ = _))

/-- A rank of the flows that grows along the dependencies. -/
def Acyclic (infos : List SerializedFlow) : Prop :=
  ∃ rank : Nat → Nat, ∀ t d, (some t, some d) ∈ dependencyCalls infos → rank d < rank t

/-- All foreground flows may start at once, and depend, once each, on foreground flows only. -/
structure StartsAtOnce (infos : List SerializedFlow) : Prop where
  start : ∀ info ∈ created infos, info.inBackground = false → info.startTime ≤ 0
  dependency : ∀ t d, Foreground (created infos) t → (some t, some d) ∈ dependencyCalls infos →
    Foreground (created infos) d
  once : ∀ t, Foreground (created infos) t →
    ((dependencyCalls infos).filter (·.1 = some t)).Nodup

/-- The number of the dependencies of a flow that have not completed. -/
def openDependencies (calls : List (FlowPtr × FlowPtr)) (s : FlowScheduler) (flow : Nat) : Nat :=
  (calls.filter (·.1 = some flow)).countP fun call => call.2.all (!s.completed ·)

/-- A foreground flow that has been started and has not completed. -/
def Runs (s : FlowScheduler) (flow : Nat) : Prop :=
  Foreground s.flows flow ∧ s.callbacks flow = 1 ∧ s.completed flow = false

instance (s : FlowScheduler) : DecidablePred s.Runs := fun flow =>
  inferInstanceAs (Decidable (Foreground s.flows flow ∧ _ ∧ _))

/-- What holds of the foreground flows, where the start times of the flows of `pending` have not
come, and the targets of `todo` have still to be told of a completion. -/
structure Tracked (infos : List SerializedFlow) (pending : Nat → Prop) (todo : List FlowPtr)
    (s : FlowScheduler) : Prop where
  flows : s.flows = created infos
  dependency : ∀ call ∈ dependencyCalls infos, call.2 ≠ none
  mem_dependencies : ∀ d t, t ∈ s.dependencies d ↔ (t, some d) ∈ dependencyCalls infos
  nodup_dependencies : ∀ d, (s.dependencies d).Nodup
  rem : ∀ t, Foreground s.flows t → s.remDependencies (some t) =
    openDependencies (dependencyCalls infos) s t + if some t ∈ todo then 1 else 0
  callbacks : ∀ t, Foreground s.flows t → s.callbacks t ≤ 1
  completed : ∀ t, Foreground s.flows t → s.completed t = true → s.callbacks t = 1
  waits : ∀ t, Foreground s.flows t → s.callbacks t = 0 ∨ s.remDependencies (some t) = 0
  starts : ∀ t, Foreground s.flows t →
    s.callbacks t = 1 ∨ 0 < s.remDependencies (some t) ∨ pending t
  pending : ∀ t, Foreground s.flows t → pending t → s.callbacks t = 0
  count : s.fgRunning = (List.range s.flows.length).countP (s.Runs ·)

variable {infos : List SerializedFlow} {pending : Nat → Prop} {todo : List FlowPtr}
  {s s' : FlowScheduler} {flow : Nat}

theorem lt_of_foreground {flows : List SerializedFlow} (h : Foreground flows flow) :
    flow < flows.length := by
  by_contra hge
  rw [Foreground, List.getD_eq_getElem?_getD, List.getElem?_eq_none (Nat.le_of_not_lt hge)] at h
  cases h

theorem not_foreground (h : (s.info flow).inBackground = true) : ¬Foreground s.flows flow :=
  fun hf => Bool.false_ne_true (Eq.trans (Eq.symm hf) h)

/-- The count of the foreground flows that run, when one starts or completes. -/
theorem countP_runs (s s' : FlowScheduler) (hflows : s'.flows = s.flows)
    (hflow : Foreground s.flows flow)
    (h : ∀ t ≠ flow, s'.callbacks t = s.callbacks t ∧ s'.completed t = s.completed t)
    (hnot : ¬s.Runs flow) (hruns : s'.Runs flow) :
    (List.range s'.flows.length).countP (s'.Runs ·) =
      (List.range s.flows.length).countP (s.Runs ·) + 1 := by
  rw [hflows]
  refine countP_eq_succ_of_nodup List.nodup_range (List.mem_range.mpr (lt_of_foreground hflow))
    (fun t _ ht => ?_) (decide_eq_false hnot) (decide_eq_true hruns)
  rw [decide_eq_decide, Runs, Runs, hflows, (h t ht).1, (h t ht).2]

/-- `RunFlow` of a flow that has not been started and waits for nothing. -/
theorem Tracked.runFlow (h : Tracked infos pending todo s)
    (hrem : Foreground s.flows flow → s.remDependencies (some flow) = 0)
    (hnew : Foreground s.flows flow → s.callbacks flow = 0)
    (hpending : ∀ t, pending' t ↔ pending t ∧ t ≠ flow) :
    Tracked infos pending' todo (s.runFlow flow) := by
  have hcb : ∀ t ≠ flow, (s.runFlow flow).callbacks t = s.callbacks t := fun t ht =>
    update_of_ne ht ..
  have hself : (s.runFlow flow).callbacks flow = s.callbacks flow + 1 := update_self ..
  constructor
  case flows => exact h.flows
  case dependency => exact h.dependency
  case mem_dependencies => exact h.mem_dependencies
  case nodup_dependencies => exact h.nodup_dependencies
  case rem => exact h.rem
  case callbacks =>
    intro t ht
    by_cases hte : t = flow
    · rw [hte, hself, hnew (hte ▸ ht)]
    · exact hcb t hte ▸ h.callbacks t ht
  case completed =>
    intro t ht hc
    by_cases hte : t = flow
    · rw [hte, hself, hnew (hte ▸ ht)]
    · exact hcb t hte ▸ h.completed t ht hc
  case waits =>
    intro t ht
    by_cases hte : t = flow
    · exact .inr (hte ▸ hrem (hte ▸ ht))
    · exact hcb t hte ▸ h.waits t ht
  case starts =>
    intro t ht
    by_cases hte : t = flow
    · rw [hte, hself, hnew (hte ▸ ht)]
      exact .inl rfl
    · rw [hcb t hte]
      exact (h.starts t ht).imp id fun hrest => hrest.imp id fun hp => (hpending t).mpr ⟨hp, hte⟩
  case pending =>
    intro t ht hp
    obtain ⟨hp, hte⟩ := (hpending t).mp hp
    rw [hcb t hte]
    exact h.pending t ht hp
  case count =>
    cases hbg : (s.info flow).inBackground with
    | true =>
      have hsame : ∀ t, (s.runFlow flow).Runs t ↔ s.Runs t := by
        intro t
        by_cases hte : t = flow
        · subst hte
          exact ⟨fun hr => absurd hr.1 (not_foreground hbg),
            fun hr => absurd hr.1 (not_foreground hbg)⟩
        · rw [Runs, Runs, hcb t hte]
          exact Iff.rfl
      simp only [hsame]
      exact (if_pos hbg).trans h.count
    | false =>
      have hnot : ¬s.Runs flow := fun hr => by
        have := hr.2.1
        rw [hnew hbg] at this
        cases this
      have hnc : s.completed flow = false := by
        cases hc : s.completed flow
        · rfl
        · have := h.completed flow hbg hc
          rw [hnew hbg] at this
          cases this
      have hrun : (s.runFlow flow).Runs flow := ⟨hbg, by rw [hself, hnew hbg], hnc⟩
      rw [countP_runs s (s.runFlow flow) rfl hbg (fun t ht => ⟨hcb t ht, rfl⟩) hnot hrun, ← h.count]
      exact if_neg (by rw [hbg]; exact Bool.false_ne_true)

/-- The flow completes. Each flow that depends on it waits for one flow less, and has still to be
told. -/
theorem openDependencies_complete (hs : StartsAtOnce infos) (ht : Foreground (created infos) t)
    (hc : Foreground (created infos) flow → s.completed flow = false)
    (hcompleted : s'.completed = update s.completed flow true) :
    openDependencies (dependencyCalls infos) s t =
      openDependencies (dependencyCalls infos) s' t +
        if (some t, some flow) ∈ dependencyCalls infos then 1 else 0 := by
  have hone : ∀ call ∈ (dependencyCalls infos).filter (·.1 = some t), call ≠ (some t, some flow) →
      (call.2.all (!s'.completed ·)) = call.2.all (!s.completed ·) := by
    rintro ⟨t', d⟩ hcall hne
    have ht' : t' = some t := by simpa using (List.mem_filter.mp hcall).2
    cases d with
    | none => rfl
    | some d =>
      have hd : d ≠ flow := by
        rintro rfl
        exact hne (by rw [ht'])
      rw [Option.all_some, Option.all_some, hcompleted, update_of_ne hd]
  split
  next hmem =>
    refine countP_eq_succ_of_nodup (hs.once t ht)
      (List.mem_filter.mpr ⟨hmem, decide_eq_true rfl⟩) hone ?_ ?_
    · simp [hcompleted]
    · simp [hc (hs.dependency t flow ht hmem)]
  next hmem =>
    refine List.countP_congr fun call hcall => ?_
    rw [hone call hcall fun heq => hmem (heq ▸ (List.mem_filter.mp hcall).1)]

/-- What `OnFlowFinish` does before its loop: a foreground flow no longer runs, and nothing else
changes but the statistics. -/
structure Finished (s s' : FlowScheduler) (flow : Nat) : Prop where
  fgRunning : s.fgRunning = s'.fgRunning + if Foreground s.flows flow then 1 else 0
  rest : s' = { s with fgRunning := s'.fgRunning, completionTimes := s'.completionTimes }

theorem finishFlow_spec (h : finishFlow s flow = some s') : Finished s s' flow := by
  unfold finishFlow at h
  split at h
  next => cases h
  next hpos =>
    cases h
    refine ⟨?_, rfl⟩
    cases hbg : (s.info flow).inBackground with
    | true => rw [if_neg (not_foreground hbg), if_pos rfl, Nat.add_zero]
    | false =>
      have hfg : Foreground s.flows flow := hbg
      rw [if_pos hfg, if_neg Bool.false_ne_true]
      simp only [hbg, Bool.not_false, Bool.true_and, decide_eq_true_eq] at hpos
      exact (Nat.succ_pred_eq_of_ne_zero hpos).symm

theorem Tracked.complete (hs : StartsAtOnce infos) (h : Tracked infos pending [] s)
    (hstarted : Foreground s.flows flow → s.callbacks flow = 1)
    (hc : Foreground s.flows flow → s.completed flow = false)
    (hfin : Finished { s with completed := update s.completed flow true } s' flow) :
    Tracked infos pending (s'.dependencies flow) s' := by
  have hflows : s'.flows = s.flows := by rw [hfin.rest]
  have hcb : s'.callbacks = s.callbacks := by rw [hfin.rest]
  have hcompleted : s'.completed = update s.completed flow true := by rw [hfin.rest]
  have hdep : s'.dependencies = s.dependencies := by rw [hfin.rest]
  have hremaining : s'.remDependencies = s.remDependencies := by rw [hfin.rest]
  constructor
  case flows => exact hflows.trans h.flows
  case dependency => exact h.dependency
  case mem_dependencies => exact hdep ▸ h.mem_dependencies
  case nodup_dependencies => exact hdep ▸ h.nodup_dependencies
  case rem =>
    intro t ht
    rw [hflows] at ht
    have hrem := h.rem t ht
    rw [if_neg List.not_mem_nil, Nat.add_zero,
      openDependencies_complete hs (h.flows ▸ ht) (h.flows ▸ hc) hcompleted] at hrem
    rw [hremaining, hrem]
    simp only [hdep, h.mem_dependencies]
  case callbacks => exact hflows ▸ hcb ▸ h.callbacks
  case completed =>
    intro t ht hct
    rw [hflows] at ht
    rw [hcb]
    by_cases hte : t = flow
    · exact hte ▸ hstarted (hte ▸ ht)
    · rw [hcompleted, update_of_ne hte] at hct
      exact h.completed t ht hct
  case waits => exact hflows ▸ hcb ▸ hremaining ▸ h.waits
  case starts => exact hflows ▸ hcb ▸ hremaining ▸ h.starts
  case pending => exact hflows ▸ hcb ▸ h.pending
  case count =>
    have hcount := h.count
    have hfg : s.fgRunning = s'.fgRunning + if Foreground s.flows flow then 1 else 0 :=
      hfin.fgRunning
    by_cases hf : Foreground s.flows flow
    · have hruns : s.Runs flow := ⟨hf, hstarted hf, hc hf⟩
      have hnot : ¬s'.Runs flow := fun hr => by
        have := hr.2.2
        rw [hcompleted, update_self] at this
        cases this
      have hone := countP_runs s' s hflows.symm (hflows.symm ▸ hf)
        (fun t ht => ⟨congrFun hcb.symm t, by rw [hcompleted, update_of_ne ht]⟩) hnot hruns
      rw [if_pos hf] at hfg
      omega
    · have hsame : ∀ t, s'.Runs t ↔ s.Runs t := by
        intro t
        rw [Runs, Runs, hflows, hcb]
        by_cases hte : t = flow
        · exact hte ▸ ⟨fun hr => absurd hr.1 hf, fun hr => absurd hr.1 hf⟩
        · rw [hcompleted, update_of_ne hte]
      rw [if_neg hf] at hfg
      simp only [hsame, hflows]
      omega

theorem Tracked.congr (h : Tracked infos pending todo s)
    (hp : ∀ t, Foreground s.flows t → (pending t ↔ pending' t))
    (htodo : ∀ t, t ∈ todo ↔ t ∈ todo') :
    Tracked infos pending' todo' s where
  flows := h.flows
  dependency := h.dependency
  mem_dependencies := h.mem_dependencies
  nodup_dependencies := h.nodup_dependencies
  rem t ht := by
    simp only [← htodo]
    exact h.rem t ht
  callbacks := h.callbacks
  completed := h.completed
  waits := h.waits
  starts t ht := (h.starts t ht).imp id fun hrest => hrest.imp id (hp t ht).mp
  pending t ht hpt := h.pending t ht ((hp t ht).mpr hpt)
  count := h.count

theorem Tracked.advance (h : Tracked infos pending todo s) (now : Int)
    (events : List (Int × ScheduledEvent)) :
    Tracked infos pending todo { s with now := now, events := events } :=
  ⟨h.flows, h.dependency, h.mem_dependencies, h.nodup_dependencies, h.rem, h.callbacks, h.completed,
    h.waits,
    h.starts, h.pending, h.count⟩

theorem start_le (hs : StartsAtOnce infos) (h : Foreground (created infos) flow) :
    ((created infos).getD flow { inBackground := true }).startTime ≤ 0 := by
  have hlt := lt_of_foreground h
  rw [Foreground] at h
  rw [List.getD_eq_getElem?_getD, List.getElem?_eq_getElem hlt, Option.getD_some] at h ⊢
  exact hs.start _ (List.getElem_mem hlt) h

/-- What the completion of a flow leaves as it is until the end of its callback. -/
structure Quiet (s s' : FlowScheduler) : Prop where
  flows : s'.flows = s.flows
  now : s'.now = s.now
  completed : ∀ t, s.completed t = true → s'.completed t = true
  calls : s'.calls = s.calls
  stopped : s'.stopped = s.stopped
  events : s'.events = s.events

theorem Quiet.trans (h : Quiet s s') (h' : Quiet s' s'') : Quiet s s'' where
  flows := h'.flows.trans h.flows
  now := h'.now.trans h.now
  completed t ht := h'.completed t (h.completed t ht)
  calls := h'.calls.trans h.calls
  stopped := h'.stopped.trans h.stopped
  events := h'.events.trans h.events

theorem quiet_runFlow (s : FlowScheduler) (flow : Nat) : Quiet s (s.runFlow flow) :=
  ⟨rfl, rfl, fun _ ht => ht, rfl, rfl, rfl⟩

theorem Finished.quiet (h : Finished { s with completed := update s.completed flow true } s' flow) :
    Quiet s s' := by
  rw [h.rest]
  refine ⟨rfl, rfl, fun t ht => ?_, rfl, rfl, rfl⟩
  exact (update_apply ..).trans (by rw [ht, ite_self])

/-- Without nested completions nothing else happens when a flow starts. -/
theorem runFlow_eq (h : RunFlow False s flow s') : s' = s.runFlow flow := by
  obtain ⟨hstart⟩ := h
  cases hstart with
  | done => rfl
  | complete hnested => exact hnested.elim

/-- A target is told. If it waits for nothing more it is as good as due. -/
theorem Tracked.resolve (h : Tracked infos pending (target :: todo) s) (hnew : target ∉ todo)
    (hr : s.resolve target = some s') :
    Tracked infos (fun t => pending t ∨ (some t = target ∧ s'.remDependencies target = 0)) todo s' ∧
      Quiet s s' := by
  unfold FlowScheduler.resolve at hr
  split at hr
  next => cases hr
  next hpos =>
    cases hr
    refine ⟨?_, rfl, rfl, fun _ ht => ht, rfl, rfl, rfl⟩
    have hrem : ∀ t, some t ≠ target →
        update s.remDependencies target (s.remDependencies target - 1) (some t) =
          s.remDependencies (some t) := fun t ht => update_of_ne ht ..
    have hself : update s.remDependencies target (s.remDependencies target - 1) target =
        s.remDependencies target - 1 := update_self ..
    have hwaits : ∀ t, Foreground s.flows t → some t = target → s.callbacks t = 0 := by
      rintro t ht rfl
      exact (h.waits t ht).resolve_right hpos
    constructor
    case flows => exact h.flows
    case dependency => exact h.dependency
    case mem_dependencies => exact h.mem_dependencies
    case nodup_dependencies => exact h.nodup_dependencies
    case rem =>
      intro t ht
      have hold := h.rem t ht
      dsimp only
      by_cases hte : some t = target
      · subst hte
        rw [if_pos List.mem_cons_self] at hold
        rw [hself, if_neg hnew, hold]
        rfl
      · rw [hrem t hte, hold]
        simp only [List.mem_cons, hte, false_or]
        rfl
    case callbacks => exact h.callbacks
    case completed => exact h.completed
    case waits =>
      intro t ht
      by_cases hte : some t = target
      · exact .inl (hwaits t ht hte)
      · exact (h.waits t ht).imp id fun h0 => (hrem t hte).trans h0
    case starts =>
      intro t ht
      by_cases hte : some t = target
      · rcases Nat.eq_zero_or_pos (update s.remDependencies target (s.remDependencies target - 1)
          target) with h0 | h0
        · exact .inr (.inr (.inr ⟨hte, h0⟩))
        · exact .inr (.inl (hte ▸ h0))
      · refine (h.starts t ht).imp id fun hrest => hrest.imp (fun hpos => ?_) .inl
        exact Nat.lt_of_lt_of_eq hpos (hrem t hte).symm
    case pending =>
      rintro t ht (hp | ⟨hte, -⟩)
      · exact h.pending t ht hp
      · exact hwaits t ht hte
    case count => exact h.count

/-- A foreground flow that waits for nothing more is due. -/
theorem Tracked.wait (hs : StartsAtOnce infos)
    (h : Tracked infos (fun _ => False) (target :: todo) s) (hnew : target ∉ todo)
    (hnow : 0 ≤ s.now) (hr : s.resolve target = some s')
    (hwait : s'.remDependencies target ≠ 0 ∨
      ∃ flow, target = some flow ∧ s'.now < (s'.info flow).startTime) :
    Tracked infos (fun _ => False) todo s' ∧ Quiet s s' := by
  obtain ⟨h', hquiet⟩ := h.resolve hnew hr
  refine ⟨h'.congr (fun t ht => ⟨?_, False.elim⟩) fun _ => Iff.rfl, hquiet⟩
  rintro (hf | ⟨rfl, hzero⟩)
  · exact hf
  · obtain ⟨flow, heq, hlate⟩ := hwait.resolve_left fun hne => hne hzero
    cases heq
    have := start_le hs (h'.flows ▸ ht)
    rw [info, h'.flows, hquiet.now] at hlate
    omega

theorem Tracked.run (h : Tracked infos (fun _ => False) (some flow :: todo) s)
    (hnew : some flow ∉ todo) (hr : s.resolve (some flow) = some s')
    (hzero : s'.remDependencies (some flow) = 0) (hrun : RunFlow False s' flow s'') :
    Tracked infos (fun _ => False) todo s'' ∧ Quiet s s'' := by
  obtain ⟨h', hquiet⟩ := h.resolve hnew hr
  rw [runFlow_eq hrun]
  refine ⟨h'.runFlow (fun _ => hzero) (fun hf => h'.pending flow hf (.inr ⟨rfl, hzero⟩))
    fun t => ⟨False.elim, ?_⟩, hquiet.trans (quiet_runFlow s' flow)⟩
  rintro ⟨hf | ⟨heq, -⟩, hne⟩
  · exact hf
  · exact hne (Option.some.inj heq)

/-- The loop over the targets: every target is told, and runs when it is due. -/
theorem Tracked.resolves (hs : StartsAtOnce infos) (h : Tracked infos (fun _ => False) targets s)
    (hnodup : targets.Nodup) (hnow : 0 ≤ s.now) (hr : Resolve False s targets s') :
    Tracked infos (fun _ => False) [] s' ∧ Quiet s s' := by
  induction targets generalizing s with
  | nil =>
    cases hr
    exact ⟨h, rfl, rfl, fun _ ht => ht, rfl, rfl, rfl⟩
  | cons target targets ih =>
    obtain ⟨hnew, hnodup'⟩ := List.nodup_cons.mp hnodup
    cases hr with
    | wait hres hwait hrest =>
      obtain ⟨h₁, hquiet⟩ := h.wait hs hnew hnow hres hwait
      obtain ⟨h', hquiet'⟩ := ih h₁ hnodup' (hquiet.now ▸ hnow) hrest
      exact ⟨h', hquiet.trans hquiet'⟩
    | run hres hzero hstart hrun hrest =>
      obtain ⟨h₁, hquiet⟩ := h.run hnew hres hzero hrun
      obtain ⟨h', hquiet'⟩ := ih h₁ hnodup' (hquiet.now ▸ hnow) hrest
      exact ⟨h', hquiet.trans hquiet'⟩

theorem fgRunning_le_runFlow (s : FlowScheduler) (flow : Nat) :
    s.fgRunning ≤ (s.runFlow flow).fgRunning := by
  unfold runFlow
  dsimp only
  split
  · exact Nat.le_refl _
  · exact Nat.le_succ _

theorem fgRunning_resolve (h : s.resolve target = some s') : s'.fgRunning = s.fgRunning := by
  unfold FlowScheduler.resolve at h
  split at h
  · cases h
  · cases h
    rfl

theorem fgRunning_le_resolves (h : Resolve False s targets s') : s.fgRunning ≤ s'.fgRunning := by
  induction targets generalizing s with
  | nil =>
    cases h
    exact Nat.le_refl _
  | cons target targets ih =>
    cases h with
    | wait hres _ hrest => exact fgRunning_resolve hres ▸ ih hrest
    | run hres _ _ hrun hrest =>
      have hle := ih hrest
      rw [runFlow_eq hrun] at hle
      exact fgRunning_resolve hres ▸ Nat.le_trans (fgRunning_le_runFlow ..) hle

/-- As long as a foreground flow has not completed, one runs: the flow itself, or one further down
its dependencies. -/
theorem Tracked.completed_of_fgRunning (hd : Acyclic infos) (hs : StartsAtOnce infos)
    (h : Tracked infos (fun _ => False) [] s) (hzero : s.fgRunning = 0)
    (hf : Foreground s.flows flow) : s.completed flow = true := by
  obtain ⟨rank, hrank⟩ := hd
  have hnone : ∀ t, ¬s.Runs t := by
    intro t ht
    have hcount := h.count
    rw [hzero, eq_comm, List.countP_eq_zero] at hcount
    exact hcount t (List.mem_range.mpr (lt_of_foreground ht.1)) (decide_eq_true ht)
  generalize hk : rank flow = k
  induction k using Nat.strongRecOn generalizing flow with
  | ind k ih =>
    rcases h.starts flow hf with hstarted | hwaits | hp
    · cases hc : s.completed flow with
      | true => rfl
      | false => exact absurd ⟨hf, hstarted, hc⟩ (hnone flow)
    · rw [h.rem flow hf, if_neg List.not_mem_nil, Nat.add_zero, openDependencies,
        List.countP_pos_iff] at hwaits
      obtain ⟨⟨t, d⟩, hcall, hopen⟩ := hwaits
      obtain ⟨hcall, ht⟩ := List.mem_filter.mp hcall
      cases of_decide_eq_true ht
      cases d with
      | none => exact absurd rfl (h.dependency _ hcall)
      | some d =>
        have hfd : Foreground s.flows d := h.flows ▸ hs.dependency flow d (h.flows ▸ hf) hcall
        have hc := ih (rank d) (hk ▸ hrank flow d hcall) hfd rfl
        rw [Option.all_some, hc] at hopen
        cases hopen
    · exact hp.elim

/-- A callback of a flow that completes, up to the test of the count. -/
theorem Tracked.onFlowFinish (hs : StartsAtOnce infos) (h : Tracked infos (fun _ => False) [] s)
    (hstarted : Foreground s.flows flow → s.callbacks flow = 1)
    (hc : Foreground s.flows flow → s.completed flow = false) (hnow : 0 ≤ s.now)
    (hfinish : OnFlowFinish False { s with completed := update s.completed flow true } flow s') :
    ∃ s₁ : FlowScheduler, s' = s₁.checkForeground ∧ Tracked infos (fun _ => False) [] s₁ ∧
      Quiet s s₁ ∧ s₁.completed flow = true ∧
      (¬Foreground s.flows flow → s.fgRunning ≤ s₁.fgRunning) := by
  obtain ⟨hfin, hperm, hresolve⟩ := hfinish
  have hfin := finishFlow_spec hfin
  have h₁ := h.complete hs hstarted hc hfin
  have hnodup := hperm.nodup_iff.mpr (h₁.nodup_dependencies flow)
  have h₁ := h₁.congr (fun _ _ => Iff.rfl) fun _ => hperm.mem_iff.symm
  obtain ⟨h₂, hquiet⟩ := h₁.resolves hs hnodup (hfin.quiet.now ▸ hnow) hresolve
  refine ⟨_, rfl, h₂, hfin.quiet.trans hquiet, ?_, fun hbg => ?_⟩
  · refine hquiet.completed flow ?_
    rw [hfin.rest]
    exact update_self ..
  · have hcount := hfin.fgRunning
    rw [if_neg hbg, Nat.add_zero] at hcount
    exact hcount ▸ fgRunning_le_resolves hresolve

theorem checkForeground_of_pos (h : 0 < s.fgRunning) : s.checkForeground = s :=
  if_neg (Nat.ne_of_gt h)

/-- The callbacks of a background flow, of which there may be several. -/
theorem Tracked.callbacks_background (hs : StartsAtOnce infos)
    (h : Tracked infos (fun _ => False) [] s) (hbg : ¬Foreground s.flows flow) (hnow : 0 ≤ s.now)
    (hpos : 0 < s.fgRunning)
    (hcb : Callbacks False flow (n + 1) { s with completed := update s.completed flow true } s') :
    Tracked infos (fun _ => False) [] s' ∧ Quiet s s' ∧ 0 < s'.fgRunning := by
  induction n generalizing s with
  | zero =>
    cases hcb with | cons hfinish hrest =>
    cases hrest
    obtain ⟨s₁, rfl, h₁, hquiet, -, hle⟩ :=
      h.onFlowFinish hs (absurd · hbg) (absurd · hbg) hnow hfinish
    have hpos₁ := Nat.lt_of_lt_of_le hpos (hle hbg)
    rw [checkForeground_of_pos hpos₁]
    exact ⟨h₁, hquiet, hpos₁⟩
  | succ n ih =>
    cases hcb with | cons hfinish hrest =>
    obtain ⟨s₁, rfl, h₁, hquiet, hc, hle⟩ :=
      h.onFlowFinish hs (absurd · hbg) (absurd · hbg) hnow hfinish
    have hpos₁ := Nat.lt_of_lt_of_le hpos (hle hbg)
    have hsame : { s₁ with completed := update s₁.completed flow true } = s₁ := by
      rw [← hc, update_eq_self]
    rw [checkForeground_of_pos hpos₁, ← hsame] at hrest
    obtain ⟨h', hquiet', hpos'⟩ := ih h₁ (hquiet.flows ▸ hbg) (hquiet.now ▸ hnow) hpos₁ hrest
    exact ⟨h', hquiet.trans hquiet', hpos'⟩

/-- `NotifyComplete`, up to the last test of the count. -/
theorem Tracked.notifyComplete (hs : StartsAtOnce infos) (h : Tracked infos (fun _ => False) [] s)
    (hnow : 0 ≤ s.now) (hpos : 0 < s.fgRunning) (hn : NotifyComplete False s flow s') :
    ∃ s₁ : FlowScheduler, s' = s₁.checkForeground ∧ Tracked infos (fun _ => False) [] s₁ ∧
      Quiet s s₁ := by
  obtain ⟨hcallbacks, hc, hcb⟩ := hn
  by_cases hf : Foreground s.flows flow
  · have hone : s.callbacks flow = 1 := Nat.le_antisymm (h.callbacks flow hf) hcallbacks
    rw [hone] at hcb
    cases hcb with | cons hfinish hrest =>
    cases hrest
    obtain ⟨s₁, rfl, h₁, hquiet, -⟩ := h.onFlowFinish hs (fun _ => hone) (fun _ => hc) hnow hfinish
    exact ⟨s₁, rfl, h₁, hquiet⟩
  · obtain ⟨n, hn⟩ := Nat.exists_eq_succ_of_ne_zero (Nat.ne_of_gt hcallbacks)
    rw [hn] at hcb
    obtain ⟨h₁, hquiet, hpos₁⟩ := h.callbacks_background hs hf hnow hpos hcb
    exact ⟨s', (checkForeground_of_pos hpos₁).symm, h₁, hquiet⟩

end FlowScheduler
end Roce
