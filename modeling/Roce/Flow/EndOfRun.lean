import Roce.Flow.Foreground
import Mathlib.Data.List.Nodup

/-! # When the callback is called

A run has three phases: before the test at time 0, while a foreground flow runs, and after the call
of `m_on_all_completed`. -/

namespace Roce

open Function

namespace FlowScheduler

variable {infos : List SerializedFlow} {s s' : FlowScheduler}

/-! ## The constructor -/

/-- What the loop over the flows does. -/
structure Added (infos : List SerializedFlow) (s s' : FlowScheduler) : Prop where
  flows : s'.flows = s.flows ++ infos
  events : s'.events = s.events ++ (infos.zipIdx s.flows.length).map fun (info, flow) =>
    (s.now + max 0 (info.startTime - s.now), .start flow)
  rest : s' = { s with flows := s'.flows, events := s'.events }

theorem added_foldl (infos : List SerializedFlow) (s : FlowScheduler) :
    Added infos s (infos.foldl addFlow s) := by
  induction infos generalizing s with
  | nil => exact ⟨(List.append_nil _).symm, (List.append_nil _).symm, rfl⟩
  | cons info infos ih =>
    obtain ⟨hflows, hevents, hrest⟩ := ih (s.addFlow info)
    refine ⟨?_, ?_, hrest⟩
    · exact hflows.trans (List.append_assoc s.flows [info] infos)
    · refine hevents.trans ?_
      simp only [addFlow, List.append_assoc, List.zipIdx_cons, List.map_cons, List.length_append,
        List.length_singleton, List.singleton_append]

/-- What the loop over the dependencies does, as long as no flow has completed. -/
structure Declared (calls : List (FlowPtr × FlowPtr)) (s s' : FlowScheduler) : Prop where
  dependency : ∀ call ∈ calls, call.2 ≠ none
  mem_dependencies : ∀ d t, t ∈ s'.dependencies d ↔ t ∈ s.dependencies d ∨ (t, some d) ∈ calls
  nodup : (∀ d, (s.dependencies d).Nodup) → ∀ d, (s'.dependencies d).Nodup
  rem : ∀ t, s'.remDependencies t = s.remDependencies t + calls.countP (·.1 = t)
  rest : s' = { s with dependencies := s'.dependencies, remDependencies := s'.remDependencies }

theorem declared_addDependency (hc : ∀ flow, s.completed flow = false)
    (h : s.addDependency target dependency = some s') : Declared [(target, dependency)] s s' := by
  cases dependency with
  | none => cases h
  | some d =>
    simp only [addDependency, Option.bind_eq_bind, Option.bind_some, hc, Bool.false_eq_true,
      if_false] at h
    cases h
    refine ⟨by simp, fun d' t => ?_, fun hn d' => ?_, fun t => ?_, rfl⟩
    · by_cases hd : d' = d
      · subst hd
        simp [or_comm]
      · simp [hd]
    · by_cases hd : d' = d
      · simpa only [hd, update_self] using List.Nodup.insert (hn d)
      · simpa only [update_of_ne hd] using hn d'
    · by_cases ht : t = target
      · simp [ht]
      · simp [ht, Ne.symm ht]

theorem Declared.trans {pairs pairs' : List (FlowPtr × FlowPtr)} (h : Declared pairs s s')
    (h' : Declared pairs' s' s'') : Declared (pairs ++ pairs') s s'' where
  dependency := List.forall_mem_append.mpr ⟨h.dependency, h'.dependency⟩
  mem_dependencies d t := by
    rw [h'.mem_dependencies, h.mem_dependencies, List.mem_append, or_assoc]
  nodup hn := h'.nodup (h.nodup hn)
  rem t := by rw [h'.rem, h.rem, List.countP_append, Nat.add_assoc]
  rest := h'.rest.trans (by rw [h.rest])

theorem declared_foldlM (calls : List (FlowPtr × FlowPtr)) (hc : ∀ flow, s.completed flow = false)
    (h : calls.foldlM (fun s call => s.addDependency call.1 call.2) s = some s') :
    Declared calls s s' := by
  induction calls generalizing s with
  | nil =>
    cases h
    exact ⟨fun _ h => absurd h List.not_mem_nil, fun _ _ => (or_iff_left List.not_mem_nil).symm,
      fun h => h, fun _ => rfl, rfl⟩
  | cons call calls ih =>
    rw [List.foldlM_cons] at h
    obtain ⟨s₁, hs₁, h⟩ := Option.bind_eq_some_iff.mp h
    have hone := declared_addDependency hc hs₁
    exact hone.trans (ih (fun flow => hone.rest ▸ hc flow) h)

/-! ## The phases -/

/-- The flows whose start is among the events. -/
def Scheduled (events : List (Int × ScheduledEvent)) (flow : Nat) : Prop :=
  .start flow ∈ events.map Prod.snd

/-- The phases of a run. -/
inductive Phase (infos : List SerializedFlow) (s : FlowScheduler) : Prop
  /-- All foreground flows that have not started are tried before the test at time 0. -/
  | starting (starts : List (Int × ScheduledEvent)) :
    s.events = starts ++ [(0, .checkForeground)] →
    (∀ e ∈ starts, ∃ flow, e.2 = .start flow ∧ 0 ≤ e.1 ∧ (Foreground s.flows flow → e.1 = 0)) →
    (starts.map Prod.snd).Nodup → s.now = 0 → s.calls = [] →
    Tracked infos (Scheduled starts) [] s → Phase infos s
  | running :
    (∀ e ∈ s.events, ∃ flow, e.2 = .start flow ∧ 0 ≤ e.1 ∧ ¬Foreground s.flows flow) →
    0 ≤ s.now → s.calls = [] → 0 < s.fgRunning → Tracked infos (fun _ => False) [] s →
    Phase infos s
  | ended (completed : Nat → Bool) :
    s.stopped = true → s.calls = [completed] →
    (∀ flow, Foreground (created infos) flow → completed flow = true) → Phase infos s

/-- The events of the starts of the flows. -/
def starts (infos : List SerializedFlow) : List (Int × ScheduledEvent) :=
  (created infos).zipIdx.map fun (info, flow) => (max 0 info.startTime, .start flow)

theorem map_snd_starts (infos : List SerializedFlow) :
    (starts infos).map Prod.snd = (List.range (created infos).length).map .start := by
  rw [starts, List.map_map, List.range_eq_range', ← List.zipIdx_map_snd, List.map_map]
  rfl

theorem scheduled_starts : Scheduled (starts infos) flow ↔ flow < (created infos).length := by
  rw [Scheduled, map_snd_starts]
  simp

theorem nodup_starts (infos : List SerializedFlow) : ((starts infos).map Prod.snd).Nodup := by
  rw [map_snd_starts]
  exact List.nodup_range.map fun _ _ => ScheduledEvent.start.inj

theorem mem_starts (hs : StartsAtOnce infos) (h : e ∈ starts infos) :
    ∃ flow, e.2 = .start flow ∧ 0 ≤ e.1 ∧ (Foreground (created infos) flow → e.1 = 0) := by
  obtain ⟨⟨info, flow⟩, hmem, rfl⟩ := List.mem_map.mp h
  refine ⟨flow, rfl, le_max_left .., fun hf => max_eq_left ?_⟩
  have hle := start_le hs hf
  rw [List.getD_eq_getElem?_getD, List.mk_mem_zipIdx_iff_getElem?.mp hmem] at hle
  exact hle

theorem tracked_construct (h : construct infos = some s) :
    s.events = starts infos ++ [(0, .checkForeground)] ∧ s.now = 0 ∧ s.calls = [] ∧
      Tracked infos (Scheduled (starts infos)) [] s := by
  obtain ⟨s₁, hs₁, h⟩ := Option.bind_eq_some_iff.mp h
  cases h
  have hadd := added_foldl (created infos) {}
  have hdecl := declared_foldlM _ (fun flow => by rw [hadd.rest]) hs₁
  have hrest := hdecl.rest
  rw [hadd.rest] at hdecl hrest
  have hflows : s₁.flows = created infos := (congrArg FlowScheduler.flows hrest).trans hadd.flows
  have hevents : s₁.events = starts infos := by
    refine (congrArg FlowScheduler.events hrest).trans (hadd.events.trans ?_)
    simp [starts]
  have hcallbacks : s₁.callbacks = fun _ => 0 := congrArg FlowScheduler.callbacks hrest
  have hcompleted : s₁.completed = fun _ => false := congrArg FlowScheduler.completed hrest
  have hnow : s₁.now = 0 := congrArg FlowScheduler.now hrest
  refine ⟨by rw [hevents, hnow]; rfl, hnow, congrArg FlowScheduler.calls hrest, ?_⟩
  constructor
  case flows => exact hflows
  case dependency => exact hdecl.dependency
  case mem_dependencies =>
    intro d t
    exact (hdecl.mem_dependencies d t).trans (or_iff_right List.not_mem_nil)
  case nodup_dependencies => exact hdecl.nodup fun _ => List.nodup_nil
  case rem =>
    intro t _
    refine (hdecl.rem (some t)).trans ?_
    simp [openDependencies, hcompleted, List.countP_eq_length_filter]
  case callbacks => simp [hcallbacks]
  case completed => simp [hcompleted]
  case waits => simp [hcallbacks]
  case starts =>
    intro t ht
    exact .inr (.inr (scheduled_starts.mpr (hflows ▸ lt_of_foreground ht)))
  case pending => simp [hcallbacks]
  case count =>
    refine (congrArg FlowScheduler.fgRunning hrest).trans (Eq.symm ?_)
    rw [List.countP_eq_zero]
    intro t _
    simp [Runs, hcallbacks]

theorem phase_construct (hs : StartsAtOnce infos) (h : construct infos = some s) :
    Phase infos s := by
  obtain ⟨hevents, hnow, hcalls, htracked⟩ := tracked_construct h
  refine .starting (starts infos) hevents (fun e he => ?_) (nodup_starts infos) hnow hcalls htracked
  exact htracked.flows ▸ mem_starts hs he

/-- The test of the count leaves a flow that runs, or ends the run. -/
theorem phase_checkForeground (hd : Acyclic infos) (hs : StartsAtOnce infos)
    (hevents : ∀ e ∈ s.events, ∃ flow, e.2 = .start flow ∧ 0 ≤ e.1 ∧ ¬Foreground s.flows flow)
    (hnow : 0 ≤ s.now) (hcalls : s.calls = []) (h : Tracked infos (fun _ => False) [] s) :
    Phase infos s.checkForeground := by
  rcases Nat.eq_zero_or_pos s.fgRunning with hzero | hpos
  · rw [checkForeground, if_pos hzero]
    refine .ended s.completed rfl ?_ fun flow hf =>
      h.completed_of_fgRunning hd hs hzero (h.flows ▸ hf)
    rw [onAllCompleted, hcalls, List.nil_append]
  · rw [checkForeground_of_pos hpos]
    exact .running hevents hnow hcalls hpos h

/-- The start time of a flow that still waits comes. -/
theorem Tracked.skip {pending pending' : Nat → Prop} (h : Tracked infos pending [] s)
    (hrem : s.remDependencies (some flow) ≠ 0)
    (hpending : ∀ t, pending' t ↔ pending t ∧ t ≠ flow) : Tracked infos pending' [] s where
  flows := h.flows
  dependency := h.dependency
  mem_dependencies := h.mem_dependencies
  nodup_dependencies := h.nodup_dependencies
  rem := h.rem
  callbacks := h.callbacks
  completed := h.completed
  waits := h.waits
  starts t ht := by
    by_cases hte : t = flow
    · exact .inr (.inl (Nat.pos_of_ne_zero (hte ▸ hrem)))
    · exact (h.starts t ht).imp id fun hrest => hrest.imp id fun hp => (hpending t).mpr ⟨hp, hte⟩
  pending t ht hp := h.pending t ht ((hpending t).mp hp).1
  count := h.count

theorem scheduled_middle {l l' : List (Int × ScheduledEvent)}
    (hnodup : ((l ++ (time, .start flow) :: l').map Prod.snd).Nodup) (t : Nat) :
    Scheduled (l ++ l') t ↔ Scheduled (l ++ (time, .start flow) :: l') t ∧ t ≠ flow := by
  rw [List.map_append, List.map_cons, List.nodup_middle, List.nodup_cons] at hnodup
  simp only [Scheduled, List.map_append, List.map_cons, List.mem_append, List.mem_cons,
    ScheduledEvent.start.injEq]
  refine ⟨fun h => ⟨h.imp id .inr, ?_⟩, fun ⟨h, hne⟩ => h.imp id (·.resolve_left hne)⟩
  rintro rfl
  exact hnodup.1 (List.mem_append.mpr h)

theorem append_singleton_eq {l l' starts : List α} (h : starts ++ [c] = l ++ a :: l') :
    (l' = [] ∧ starts = l ∧ c = a) ∨ ∃ l'', l' = l'' ++ [c] ∧ starts = l ++ a :: l'' := by
  rcases List.eq_nil_or_concat l' with rfl | ⟨l'', x, rfl⟩
  · obtain ⟨hl, hc⟩ := List.append_inj' h rfl
    exact .inl ⟨rfl, hl, List.singleton_inj.mp hc⟩
  · rw [List.concat_eq_append, ← List.cons_append, ← List.append_assoc] at h
    obtain ⟨hl, hc⟩ := List.append_inj' h rfl
    exact .inr ⟨l'', by rw [List.singleton_inj.mp hc, List.concat_eq_append], hl⟩

theorem nodup_middle {l l' : List (Int × ScheduledEvent)}
    (hnodup : ((l ++ e :: l').map Prod.snd).Nodup) : ((l ++ l').map Prod.snd).Nodup := by
  rw [List.map_append, List.map_cons, List.nodup_middle, List.nodup_cons, ← List.map_append]
    at hnodup
  exact hnodup.2

theorem forall_mem_middle {p : α → Prop} {l l' : List α} (h : ∀ e ∈ l ++ a :: l', p e) :
    p a ∧ ∀ e ∈ l ++ l', p e := by
  rw [List.forall_mem_append, List.forall_mem_cons] at h
  exact ⟨h.2.1, List.forall_mem_append.mpr ⟨h.1, h.2.2⟩⟩

/-- The test at time 0. All flows that have not been tried start later, so they are background
flows. -/
theorem phase_test (hd : Acyclic infos) (hs : StartsAtOnce infos)
    {starts : List (Int × ScheduledEvent)}
    (hstarts : ∀ e ∈ starts, ∃ flow, e.2 = .start flow ∧ 0 ≤ e.1 ∧
      (Foreground s.flows flow → e.1 = 0))
    (hlater : ∀ e ∈ starts, 0 < e.1) (hcalls : s.calls = [])
    (h : Tracked infos (Scheduled starts) [] s) :
    Phase infos (checkForeground { s with now := 0, events := starts }) := by
  have hbg : ∀ e ∈ starts, ∃ flow, e.2 = .start flow ∧ 0 ≤ e.1 ∧ ¬Foreground s.flows flow := by
    intro e he
    obtain ⟨flow, hflow, hle, hf⟩ := hstarts e he
    exact ⟨flow, hflow, hle, fun hfg => absurd (hf hfg) (Int.ne_of_gt (hlater e he))⟩
  have hnone : ∀ t, Foreground s.flows t → ¬Scheduled starts t := by
    intro t ht hsched
    obtain ⟨e, he, het⟩ := List.mem_map.mp hsched
    obtain ⟨flow, hflow, -, hf⟩ := hbg e he
    cases hflow.symm.trans het
    exact hf ht
  exact phase_checkForeground hd hs hbg (Int.le_refl 0) hcalls
    ((h.congr (fun t ht => iff_of_false (hnone t ht) id) fun _ => Iff.rfl).advance ..)

/-- The start time of a flow comes before the test at time 0. -/
theorem phase_start {starts' : List (Int × ScheduledEvent)}
    (hstarts : ∀ e ∈ starts', ∃ flow, e.2 = .start flow ∧ 0 ≤ e.1 ∧
      (Foreground s.flows flow → e.1 = 0))
    (hnodup : (starts'.map Prod.snd).Nodup) (hcalls : s.calls = [])
    {starts : List (Int × ScheduledEvent)}
    (hpending : ∀ t, Scheduled starts' t ↔ Scheduled starts t ∧ t ≠ flow)
    (hsched : Scheduled starts flow) (h : Tracked infos (Scheduled starts) [] s)
    (hfire : Fire False { s with now := 0, events := starts' ++ [(0, .checkForeground)] }
      (.start flow) s') : Phase infos s' := by
  have h := h.advance 0 (starts' ++ [(0, .checkForeground)])
  cases hfire with
  | start hrem hrun =>
    rw [runFlow_eq hrun]
    exact .starting starts' rfl hstarts hnodup rfl hcalls
      (h.runFlow (fun _ => hrem) (fun hf => h.pending flow hf hsched) hpending)
  | wait hrem => exact .starting starts' rfl hstarts hnodup rfl hcalls (h.skip hrem hpending)

/-- The start time of a background flow comes. -/
theorem phase_start_background {events : List (Int × ScheduledEvent)}
    (hevents : ∀ e ∈ events, ∃ flow, e.2 = .start flow ∧ 0 ≤ e.1 ∧ ¬Foreground s.flows flow)
    (hnow : 0 ≤ time) (hcalls : s.calls = []) (hpos : 0 < s.fgRunning)
    (h : Tracked infos (fun _ => False) [] s) (hbg : ¬Foreground s.flows flow)
    (hfire : Fire False { s with now := time, events := events } (.start flow) s') :
    Phase infos s' := by
  have h := h.advance time events
  cases hfire with
  | start hrem hrun =>
    rw [runFlow_eq hrun]
    exact .running hevents hnow hcalls (Nat.lt_of_lt_of_le hpos (fgRunning_le_runFlow ..))
      (h.runFlow (absurd · hbg) (absurd · hbg) fun t => (iff_of_eq (false_and _)).symm)
  | wait => exact .running hevents hnow hcalls hpos h

theorem Phase.scheduled (hd : Acyclic infos) (hs : StartsAtOnce infos) (h : Phase infos s)
    (hstop : s.stopped = false) {l l' : List (Int × ScheduledEvent)}
    (hsplit : s.events = l ++ (time, event) :: l') (hbefore : ∀ e ∈ l, time < e.1)
    (hafter : ∀ e ∈ l', time ≤ e.1)
    (hfire : Fire False { s with now := time, events := l ++ l' } event s') : Phase infos s' := by
  cases h with
  | starting starts hevents hstarts hnodup _ hcalls h =>
    rcases append_singleton_eq (hevents.symm.trans hsplit) with ⟨rfl, rfl, heq⟩ | ⟨l'', rfl, rfl⟩
    · cases heq
      cases hfire
      rw [List.append_nil]
      exact phase_test hd hs hstarts hbefore hcalls h
    · obtain ⟨⟨flow, hflow, hle, -⟩, hstarts'⟩ := forall_mem_middle hstarts
      cases hflow
      obtain rfl : time = 0 := Int.le_antisymm (hafter _ List.mem_concat_self) hle
      rw [← List.append_assoc] at hfire
      have hsched : Scheduled (l ++ (0, .start flow) :: l'') flow :=
        List.mem_map_of_mem List.mem_append_cons_self
      exact phase_start hstarts' (nodup_middle hnodup) hcalls (scheduled_middle hnodup)
        hsched h hfire
  | running hevents _ hcalls hpos h =>
    rw [hsplit] at hevents
    obtain ⟨⟨flow, hflow, hle, hbg⟩, hevents'⟩ := forall_mem_middle hevents
    cases hflow
    exact phase_start_background hevents' hle hcalls hpos h hbg hfire
  | ended _ hstopped => exact absurd (hstopped.symm.trans hstop) (by decide)

theorem Phase.step (hd : Acyclic infos) (hs : StartsAtOnce infos) (h : Phase infos s)
    (hstep : Step False s e s') : Phase infos s' := by
  cases hstep with
  | scheduled hstop hsplit hbefore hafter hfire =>
    exact h.scheduled hd hs hstop hsplit hbefore hafter hfire
  | complete hstop hle hlater hcomplete =>
    cases h with
    | starting starts hevents _ _ hnow =>
      have := hlater (0, .checkForeground) (hevents ▸ List.mem_concat_self)
      dsimp only at this
      omega
    | running hevents hnow hcalls hpos h =>
      obtain ⟨s₁, rfl, h₁, hquiet⟩ :=
        (h.advance _ _).notifyComplete hs (Int.le_trans hnow hle) hpos hcomplete
      refine phase_checkForeground hd hs ?_ ?_ (hquiet.calls.trans hcalls) h₁
      · rw [hquiet.events, hquiet.flows]
        exact hevents
      · rw [hquiet.now]
        exact Int.le_trans hnow hle
    | ended _ hstopped => exact absurd (hstopped.symm.trans hstop) (by decide)

/-- If all foreground flows may start at once, and wait for foreground flows only, and no flow
completes inside of a `StartFlow`, the callback is called once at most, and when all foreground
flows of the list have completed. -/
theorem all_completed_once (hd : Acyclic infos) (hs : StartsAtOnce infos)
    (h : (machine False infos).Reachable s) :
    s.calls.length ≤ 1 ∧
      ∀ completed ∈ s.calls, ∀ flow, Foreground (created infos) flow → completed flow = true := by
  have hphase : Phase infos s := h.invariant (phase_construct hs ·) fun _ => Phase.step hd hs
  cases hphase with
  | starting _ _ _ _ _ hcalls | running _ _ hcalls =>
    rw [hcalls]
    exact ⟨Nat.zero_le 1, fun _ hc => absurd hc List.not_mem_nil⟩
  | ended completed _ hcalls hc =>
    rw [hcalls]
    exact ⟨Nat.le_refl 1, fun _ hmem => List.mem_singleton.mp hmem ▸ hc⟩

/-- A flow that starts at time 10 does not keep the run from its end when another one completes at
time 5. -/
theorem calls_before_start :
    ∃ infos s, (machine False infos).Reachable s ∧ ∃ completed ∈ s.calls, ∃ flow,
      Foreground (created infos) flow ∧ completed flow = false := by
  let infos : List SerializedFlow :=
    [{ id := "first", enable := true }, { id := "second", enable := true, startTime := 10 }]
  let s₀ : FlowScheduler :=
    { flows := infos
      names := fun flow => infos[flow]?.map (·.id)
      events := [(0, .start 0), (10, .start 1), (0, .checkForeground)] }
  have h₀ : (machine False infos).Reachable s₀ := .init rfl
  have h₁ := h₀.step (.scheduled (l := []) rfl rfl (by simp) (by simp) (.start rfl ⟨.done⟩))
  have h₂ := h₁.step (.scheduled (l := [_]) rfl rfl (by simp) (by simp) .checkForeground)
  have h₃ := h₂.step (show Step False _ (.complete 0 5) _ from
    .complete rfl (by decide) (by decide) ⟨by decide, rfl, .cons (.mk rfl .nil .nil) .nil⟩)
  exact ⟨infos, _, h₃, _, List.mem_singleton.mpr rfl, 1, rfl, rfl⟩

theorem all_completed_once_chain :
    ∃ infos s, (machine False infos).Reachable s ∧ s.calls ≠ [] ∧ s.calls.length ≤ 1 ∧
      ∀ completed ∈ s.calls, ∀ flow, Foreground (created infos) flow → completed flow = true := by
  let infos : List SerializedFlow :=
    [{ id := "first", enable := true },
      { id := "second", enable := true, dependencies := ["first"] }]
  let s₀ : FlowScheduler :=
    { flows := infos
      names := fun flow => infos[flow]?.map (·.id)
      events := [(0, .start 0), (0, .start 1), (0, .checkForeground)]
      dependencies := update (fun _ => []) 0 [some 1]
      remDependencies := update (fun _ => 0) (some 1) 1 }
  have h₀ : (machine False infos).Reachable s₀ := .init rfl
  have h₁ := h₀.step (.scheduled (l := []) rfl rfl (by simp) (by simp) (.start rfl ⟨.done⟩))
  have h₂ := h₁.step (.scheduled (l := []) rfl rfl (by simp) (by simp) (.wait (by decide)))
  have h₃ := h₂.step (.scheduled (l := []) rfl rfl (by simp) (by simp) .checkForeground)
  have h₄ := h₃.step (show Step False _ (.complete 0 5) _ from
    .complete rfl (by decide) (by decide) ⟨by decide, rfl,
      .cons (.mk rfl (.refl _) (.run rfl rfl (by decide) ⟨.done⟩ .nil)) .nil⟩)
  have h₅ := h₄.step (show Step False _ (.complete 1 7) _ from
    .complete rfl (by decide) (by decide) ⟨by decide, rfl, .cons (.mk rfl .nil .nil) .nil⟩)
  have hcreated : created infos = infos := rfl
  have hcalls : dependencyCalls infos = [(some 1, some 0)] := rfl
  have hd : Acyclic infos := by
    refine ⟨id, fun t d h => ?_⟩
    obtain ⟨rfl, rfl⟩ : t = 1 ∧ d = 0 := by simpa [hcalls] using h
    exact Nat.zero_lt_one
  have hs : StartsAtOnce infos := by
    refine ⟨by simp [hcreated, infos], fun t d _ h => ?_, fun t _ => ?_⟩
    · obtain ⟨rfl, rfl⟩ : t = 1 ∧ d = 0 := by simpa [hcalls] using h
      exact rfl
    · exact hcalls ▸ (List.nodup_singleton _).filter _
  exact ⟨infos, _, h₅, List.cons_ne_nil _ _, all_completed_once hd hs h₅⟩

end FlowScheduler
end Roce
