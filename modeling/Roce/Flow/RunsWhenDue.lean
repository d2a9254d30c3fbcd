import Roce.Flow.Dependencies

/-! # The start times, and the runs of the simulation

Besides the counters, the invariant has what is known of the events of `AddFlow` and of the number
of the foreground flows that run. -/

namespace Roce

open Function

namespace FlowSimulation

open FlowScheduler (Scheduled Foreground Finished finishFlow_spec)

variable {s s' : FlowScheduler} {frames : List FlowFrame} {added : List Nat} {due : Option Nat}
  {flow n : Nat} {target : FlowPtr} {targets : List FlowPtr}

/-! ## The start times -/

/-- What is known of the flows that have run, and of the events of `AddFlow`, where the flow `due`
is just going to be run. -/
structure Starts (s : FlowScheduler) (added : List Nat) (due : Option Nat) : Prop where
  once : ∀ t, s.callbacks t ≤ 1
  completed : ∀ t, s.completed t = true → s.callbacks t = 1
  ran : ∀ t, s.callbacks t = 1 → s.remDependencies (some t) = 0 ∧ (s.info t).startTime ≤ s.now
  starts : ∀ t ∈ added, due = some t ∨ s.callbacks t = 1 ∨ 0 < s.remDependencies (some t) ∨
    Scheduled s.events t
  late : ∀ t ∈ added, Scheduled s.events t ∨ (s.info t).startTime ≤ s.now
  future : ∀ e ∈ s.events, s.now ≤ e.1
  scheduled : ∀ t time, (time, .start t) ∈ s.events → s.callbacks t = 0 ∧
    (s.info t).startTime ≤ time ∧ time ≤ max (s.info t).startTime s.now
  unique : (s.events.map Prod.snd).Nodup
  bound : ∀ t, t ∈ added ∨ s.callbacks t = 1 ∨ Scheduled s.events t ∨
    (∃ d, some t ∈ s.dependencies d) → t < s.flows.length

theorem scheduled_iff {events : List (Int × ScheduledEvent)} :
    Scheduled events flow ↔ ∃ time, (time, .start flow) ∈ events := by
  rw [Scheduled, List.mem_map]
  constructor
  · rintro ⟨⟨time, event⟩, hmem, rfl⟩
    exact ⟨time, hmem⟩
  · rintro ⟨time, hmem⟩
    exact ⟨_, hmem, rfl⟩

theorem Starts.congr (h : Starts s added due) (hs : s' = { s with
    names := s'.names, completed := s'.completed, fgRunning := s'.fgRunning
    completionTimes := s'.completionTimes, stopped := s'.stopped, calls := s'.calls })
    (hc : ∀ t, s'.completed t = true → s.callbacks t = 1) : Starts s' added due := by
  rw [hs]
  exact ⟨h.once, hc, h.ran, h.starts, h.late, h.future, h.scheduled, h.unique, h.bound⟩

/-- `RunFlow` of the flow that is due. -/
theorem Starts.runFlow (h : Starts s added (some flow)) (hrem : s.remDependencies (some flow) = 0)
    (hnew : s.callbacks flow = 0) (hstart : (s.info flow).startTime ≤ s.now)
    (hsched : ¬Scheduled s.events flow) (hlt : flow < s.flows.length) :
    Starts (s.runFlow flow) added none := by
  have hself : (s.runFlow flow).callbacks flow = 1 := by
    refine (update_self ..).trans ?_
    rw [hnew]
  have hcb : ∀ t ≠ flow, (s.runFlow flow).callbacks t = s.callbacks t := fun t ht =>
    update_of_ne ht ..
  constructor
  case once =>
    intro t
    rcases eq_or_ne t flow with rfl | ht
    · exact Nat.le_of_eq hself
    · exact hcb t ht ▸ h.once t
  case completed =>
    intro t hc
    rcases eq_or_ne t flow with rfl | ht
    · exact hself
    · exact hcb t ht ▸ h.completed t hc
  case ran =>
    intro t hone
    rcases eq_or_ne t flow with rfl | ht
    · exact ⟨hrem, hstart⟩
    · exact h.ran t (hcb t ht ▸ hone)
  case starts =>
    intro t hmem
    rcases eq_or_ne t flow with rfl | ht
    · exact .inr (.inl hself)
    · rw [hcb t ht]
      exact .inr ((h.starts t hmem).resolve_left fun heq => ht (Option.some.inj heq).symm)
  case late => exact h.late
  case future => exact h.future
  case scheduled =>
    intro t time hmem
    have ht : t ≠ flow := by
      rintro rfl
      exact hsched (scheduled_iff.mpr ⟨time, hmem⟩)
    rw [hcb t ht]
    exact h.scheduled t time hmem
  case unique => exact h.unique
  case bound =>
    intro t ht
    rcases eq_or_ne t flow with rfl | hte
    · exact hlt
    · rw [hcb t hte] at ht
      exact h.bound t ht

/-- Time passes, and an event is taken from the list. -/
theorem Starts.advance {events : List (Int × ScheduledEvent)} (h : Starts s added none)
    (hnow : s.now ≤ time) (hsub : events.Sublist s.events) (hfuture : ∀ e ∈ events, time ≤ e.1)
    (hgone : ∀ t, Scheduled s.events t → Scheduled events t ∨ due = some t ∨
      0 < s.remDependencies (some t))
    (hlate : ∀ t, Scheduled s.events t → Scheduled events t ∨ (s.info t).startTime ≤ time) :
    Starts { s with now := time, events := events } added due := by
  have hback : ∀ t, Scheduled events t → Scheduled s.events t := fun t ht =>
    (hsub.map Prod.snd).subset ht
  constructor
  case once => exact h.once
  case completed => exact h.completed
  case ran => exact fun t ht => ⟨(h.ran t ht).1, (h.ran t ht).2.trans hnow⟩
  case starts =>
    intro t hmem
    rcases (h.starts t hmem).resolve_left (Option.some_ne_none t).symm with hone | hpos | hs
    · exact .inr (.inl hone)
    · exact .inr (.inr (.inl hpos))
    · rcases hgone t hs with hs | hdue | hpos
      · exact .inr (.inr (.inr hs))
      · exact .inl hdue
      · exact .inr (.inr (.inl hpos))
  case late =>
    intro t hmem
    rcases h.late t hmem with hs | hle
    · exact hlate t hs
    · exact .inr (hle.trans hnow)
  case future => exact hfuture
  case scheduled =>
    intro t time' hmem
    obtain ⟨hzero, hle, hmax⟩ := h.scheduled t time' (hsub.subset hmem)
    exact ⟨hzero, hle, hmax.trans (max_le_max le_rfl hnow)⟩
  case unique => exact h.unique.sublist (hsub.map Prod.snd)
  case bound =>
    intro t ht
    exact h.bound t (ht.imp id (Or.imp id (Or.imp (hback t) id)))

/-- A flow is created. -/
theorem Starts.create (h : Starts s added none) :
    Starts { s with flows := s.flows ++ [info] } added none := by
  have hinfo : ∀ t < s.flows.length,
      FlowScheduler.info { s with flows := s.flows ++ [info] } t = s.info t := fun t ht => by
    simp [FlowScheduler.info, List.getElem?_append_left ht]
  constructor
  case once => exact h.once
  case completed => exact h.completed
  case ran => exact fun t ht => hinfo t (h.bound t (.inr (.inl ht))) ▸ h.ran t ht
  case starts => exact h.starts
  case late => exact fun t ht => hinfo t (h.bound t (.inl ht)) ▸ h.late t ht
  case future => exact h.future
  case scheduled =>
    intro t time hmem
    rw [hinfo t (h.bound t (.inr (.inr (.inl (scheduled_iff.mpr ⟨time, hmem⟩)))))]
    exact h.scheduled t time hmem
  case unique => exact h.unique
  case bound =>
    intro t ht
    rw [List.length_append]
    exact Nat.lt_add_right _ (h.bound t ht)

/-- `AddFlow` of a flow that has not run and whose event is not among the events. -/
theorem Starts.addFlow (h : Starts s added none) (hnew : s.callbacks flow = 0)
    (hsched : ¬Scheduled s.events flow) (hlt : flow < s.flows.length) :
    Starts (s.schedule flow) (flow :: added) none := by
  have hiff : ∀ t, Scheduled (s.schedule flow).events t ↔ Scheduled s.events t ∨ t = flow := by
    intro t
    simp [Scheduled, FlowScheduler.schedule, eq_comm]
  constructor
  case once => exact h.once
  case completed => exact h.completed
  case ran => exact h.ran
  case starts =>
    intro t hmem
    rw [hiff]
    rcases List.mem_cons.mp hmem with rfl | hmem
    · exact .inr (.inr (.inr (.inr rfl)))
    · exact (h.starts t hmem).imp id (Or.imp id (Or.imp id .inl))
  case late =>
    intro t hmem
    rw [hiff]
    rcases List.mem_cons.mp hmem with rfl | hmem
    · exact .inl (.inr rfl)
    · exact (h.late t hmem).imp .inl id
  case future =>
    refine List.forall_mem_append.mpr ⟨h.future, List.forall_mem_singleton.mpr ?_⟩
    have := le_max_left 0 ((s.info flow).startTime - s.now)
    exact Int.le_add_of_nonneg_right this
  case scheduled =>
    intro t time hmem
    rcases List.mem_append.mp hmem with hmem | hmem
    · exact h.scheduled t time hmem
    · cases List.mem_singleton.mp hmem
      refine ⟨hnew, ?_, ?_⟩
      · change (s.info flow).startTime ≤ s.now + max 0 ((s.info flow).startTime - s.now)
        omega
      · change s.now + max 0 ((s.info flow).startTime - s.now) ≤ max (s.info flow).startTime s.now
        omega
  case unique =>
    rw [FlowScheduler.schedule, List.map_append, List.map_singleton]
    refine List.nodup_append.mpr ⟨h.unique, List.nodup_singleton _, fun e he e' he' heq => ?_⟩
    rw [List.mem_singleton.mp he'] at heq
    subst heq
    exact hsched he
  case bound =>
    intro t ht
    rw [hiff, List.mem_cons] at ht
    rcases ht with (rfl | hmem) | hone | (hs | rfl) | hdep
    · exact hlt
    · exact h.bound t (.inl hmem)
    · exact h.bound t (.inr (.inl hone))
    · exact h.bound t (.inr (.inr (.inl hs)))
    · exact hlt
    · exact h.bound t (.inr (.inr (.inr hdep)))

/-- A dependency is declared of a flow that has not run, or on one that has completed. -/
theorem Starts.declare (h : Starts s added none) (hd : Declares s s' target d)
    (hran : s.completed d = true ∨ ∀ flow ∈ target, s.callbacks flow = 0)
    (hlt : ∀ flow ∈ target, flow < s.flows.length) : Starts s' added none := by
  have hrem : ∀ t, s'.remDependencies t = s.remDependencies t ∨
      t = target ∧ s.completed d = false ∧ s'.remDependencies t = s.remDependencies t + 1 := by
    intro t
    rw [hd.rem]
    split
    next => exact .inl rfl
    next hc =>
      rcases eq_or_ne t target with rfl | ht
      · exact .inr ⟨rfl, Bool.not_eq_true _ ▸ hc, update_self ..⟩
      · exact .inl (update_of_ne ht ..)
  have hmem : ∀ t e, t ∈ s'.dependencies e → t ∈ s.dependencies e ∨ t = target ∧ e = d :=
    fun _ _ => hd.mem.mp
  rw [hd.rest]
  constructor
  case once => exact h.once
  case completed => exact h.completed
  case ran =>
    intro t hone
    refine ⟨?_, (h.ran t hone).2⟩
    rcases hrem (some t) with heq | ⟨heq, hc, -⟩
    · exact heq.trans (h.ran t hone).1
    · have hzero := hran.resolve_left (by rw [hc]; exact Bool.false_ne_true) t heq.symm
      exact absurd (hzero.symm.trans hone) Nat.zero_ne_one
  case starts =>
    intro t ht
    refine (h.starts t ht).imp id (Or.imp id (Or.imp (fun hpos => ?_) id))
    rcases hrem (some t) with heq | ⟨-, -, heq⟩
    · exact Nat.lt_of_lt_of_eq hpos heq.symm
    · exact Nat.lt_of_lt_of_eq (Nat.succ_pos _) heq.symm
  case late => exact h.late
  case future => exact h.future
  case scheduled => exact h.scheduled
  case unique => exact h.unique
  case bound =>
    rintro t (ht | ht | ht | ⟨e, ht⟩)
    · exact h.bound t (.inl ht)
    · exact h.bound t (.inr (.inl ht))
    · exact h.bound t (.inr (.inr (.inl ht)))
    · rcases hmem _ e ht with ht | ⟨rfl, -⟩
      · exact h.bound t (.inr (.inr (.inr ⟨e, ht⟩)))
      · exact hlt t rfl

/-- A target is told. -/
theorem Starts.tell (h : Starts s added none) (ht : Told s s' target)
    (hdue : ∀ t ∈ target, due = some t ∨ 0 < s'.remDependencies target ∨
      s.now < (s.info t).startTime) : Starts s' added due := by
  have hother : ∀ t, t ≠ target → s'.remDependencies t = s.remDependencies t := fun t hne => by
    rw [ht.rem, update_of_ne hne]
  rw [ht.rest]
  constructor
  case once => exact h.once
  case completed => exact h.completed
  case ran =>
    intro t hone
    refine ⟨?_, (h.ran t hone).2⟩
    have hne : some t ≠ target := by
      rintro rfl
      exact absurd (h.ran t hone).1 (Nat.ne_of_gt ht.pos)
    exact (hother _ hne).trans (h.ran t hone).1
  case starts =>
    intro t hmem
    have hs := (h.starts t hmem).resolve_left (Option.some_ne_none t).symm
    by_cases heq : some t = target
    · rcases hdue t heq.symm with hdue | hpos | hlate
      · exact .inl hdue
      · exact .inr (.inr (.inl (heq ▸ hpos)))
      · exact .inr (.inr (.inr ((h.late t hmem).resolve_right (Int.not_le.mpr hlate))))
    · exact .inr (hs.imp id (Or.imp (fun hpos => Nat.lt_of_lt_of_eq hpos (hother _ heq).symm) id))
  case late => exact h.late
  case future => exact h.future
  case scheduled => exact h.scheduled
  case unique => exact h.unique
  case bound => exact h.bound

/-! ## The foreground flows -/

/-- A foreground flow that has been started, and whose completion has not been counted. -/
def Running (s : FlowScheduler) (frames : List FlowFrame) (flow : Nat) : Prop :=
  Foreground s.flows flow ∧ s.callbacks flow = 1 ∧
    (s.completed flow = false ∨ .notifyComplete flow 1 ∈ frames)

/-- `m_fg_running` is the number of these. -/
def CountsForeground (s : FlowScheduler) (frames : List FlowFrame) : Prop :=
  {flow | Running s frames flow}.encard = s.fgRunning

theorem CountsForeground.congr (h : CountsForeground s frames)
    (hr : ∀ t, Running s' frames' t ↔ Running s frames t) (hf : s'.fgRunning = s.fgRunning) :
    CountsForeground s' frames' := by
  rw [CountsForeground, hf, ← h]
  simp only [hr]

theorem CountsForeground.runFlow (h : CountsForeground s frames) (hnew : s.callbacks flow = 0)
    (hc : s.completed flow = false) : CountsForeground (s.runFlow flow) frames := by
  have hother : ∀ t ≠ flow, Running (s.runFlow flow) frames t ↔ Running s frames t := fun t ht => by
    have hcb : (s.runFlow flow).callbacks t = s.callbacks t := update_of_ne ht ..
    rw [Running, Running, hcb]
    exact Iff.rfl
  have hnot : flow ∉ {t | Running s frames t} := fun hr => by
    rw [hr.2.1] at hnew
    cases hnew
  cases hbg : (s.info flow).inBackground with
  | true =>
    refine h.congr (fun t => ?_) (if_pos hbg)
    rcases eq_or_ne t flow with rfl | ht
    · exact iff_of_false (fun hr => FlowScheduler.not_foreground hbg hr.1) hnot
    · exact hother t ht
  | false =>
    have hself : Running (s.runFlow flow) frames flow := by
      refine ⟨hbg, (update_self ..).trans ?_, .inl hc⟩
      rw [hnew]
    have hset : {t | Running (s.runFlow flow) frames t} = insert flow {t | Running s frames t} := by
      ext t
      rcases eq_or_ne t flow with rfl | ht
      · exact iff_of_true hself (.inl rfl)
      · exact (hother t ht).trans (or_iff_right ht).symm
    have hfg : (s.runFlow flow).fgRunning = s.fgRunning + 1 :=
      if_neg (by rw [hbg]; exact Bool.false_ne_true)
    rw [CountsForeground, hset, Set.encard_insert_of_notMem hnot, h, hfg]
    exact_mod_cast rfl

/-- The loop over the targets is entered, and the flow no longer counts. -/
theorem CountsForeground.onFlowFinish
    (h : CountsForeground s (.notifyComplete flow 1 :: frames)) (he : Finished s s' flow)
    (hone : s.callbacks flow = 1) (hc : s.completed flow = true)
    (hother : ∀ frame ∈ frames, frame.telling ≠ some flow) :
    CountsForeground s' (.onFlowFinish flow targets :: .notifyComplete flow 0 :: frames) := by
  have hfg := he.fgRunning
  have hrunning : ∀ t, Running s' (.onFlowFinish flow targets :: .notifyComplete
    flow 0 :: frames) t ↔
      Running s (.notifyComplete flow 1 :: frames) t ∧ t ≠ flow := by
    intro t
    have hflows : s'.flows = s.flows := by rw [he.rest]
    have hcb : s'.callbacks = s.callbacks := by rw [he.rest]
    have hcompleted : s'.completed = s.completed := by rw [he.rest]
    rw [Running, Running, hflows, hcb, hcompleted]
    rcases eq_or_ne t flow with rfl | ht
    · have hnot : .notifyComplete t 1 ∉ frames := fun hmem => hother _ hmem rfl
      simp [hc, hnot]
    · simp [ht]
  have hset : {t | Running s' (.onFlowFinish flow targets :: .notifyComplete flow 0 :: frames) t} =
      {t | Running s (.notifyComplete flow 1 :: frames) t} \ {flow} := by
    ext t
    exact hrunning t
  by_cases hf : Foreground s.flows flow
  · have hmem : flow ∈ {t | Running s (.notifyComplete flow 1 :: frames) t} :=
      ⟨hf, hone, .inr List.mem_cons_self⟩
    rw [if_pos hf] at hfg
    rw [CountsForeground, hset, Set.encard_sdiff_singleton_of_mem hmem, h, hfg]
    exact_mod_cast rfl
  · have hnot : flow ∉ {t | Running s (.notifyComplete flow 1 :: frames) t} := fun hr => hf hr.1
    rw [if_neg hf, Nat.add_zero] at hfg
    rw [CountsForeground, hset, Set.sdiff_singleton_eq_self hnot, h, hfg]

/-- The assertion of `OnFlowFinish` does not fail. -/
theorem CountsForeground.finishFlow (h : CountsForeground s (.notifyComplete flow 1 :: frames))
    (hone : s.callbacks flow = 1) : ∃ s', s.finishFlow flow = some s' := by
  unfold FlowScheduler.finishFlow
  split
  next hfail =>
    simp only [Bool.and_eq_true, Bool.not_eq_true', decide_eq_true_eq] at hfail
    have hmem : flow ∈ {t | Running s (.notifyComplete flow 1 :: frames) t} :=
      ⟨hfail.1, hone, .inr List.mem_cons_self⟩
    have hpos := Set.encard_pos.mpr ⟨flow, hmem⟩
    rw [h, hfail.2] at hpos
    exact absurd hpos (lt_irrefl _)
  next => exact ⟨_, rfl⟩

/-! ## The steps -/

structure Inv (x : FlowSimulation) : Prop where
  counts : Counts x.scheduler x.frames
  starts : Starts x.scheduler x.addedFlows none
  foreground : CountsForeground x.scheduler x.frames

/-- The event of `AddFlow` is taken from the list. -/
theorem Starts.take {l l' : List (Int × ScheduledEvent)} (h : Starts s added none)
    (he : s.events = l ++ (time, .start flow) :: l') (hl : ∀ e ∈ l, time < e.1)
    (hl' : ∀ e ∈ l', time ≤ e.1) (hdue : due = some flow ∨ 0 < s.remDependencies (some flow)) :
    Starts { s with now := time, events := l ++ l' } added due := by
  have hmem : (time, .start flow) ∈ s.events := he ▸ List.mem_append_right l List.mem_cons_self
  have hunique := h.unique
  rw [he] at hunique
  have hmiddle := FlowScheduler.scheduled_middle hunique
  refine h.advance (h.future _ hmem) ?_ ?_ (fun t ht => ?_) fun t ht => ?_
  · exact he ▸ (List.Sublist.refl l).append (List.sublist_cons_self ..)
  · exact List.forall_mem_append.mpr ⟨fun e hm => Int.le_of_lt (hl e hm), hl'⟩
  · rcases eq_or_ne t flow with rfl | hne
    · exact .inr hdue
    · exact .inl ((hmiddle t).mpr ⟨he ▸ ht, hne⟩)
  · rcases eq_or_ne t flow with rfl | hne
    · exact .inr (h.scheduled t time hmem).2.1
    · exact .inl ((hmiddle t).mpr ⟨he ▸ ht, hne⟩)

/-- The test for a list without foreground flows is taken from the list. -/
theorem Starts.test {l l' : List (Int × ScheduledEvent)} (h : Starts s added none)
    (he : s.events = l ++ (time, .checkForeground) :: l') (hl : ∀ e ∈ l, time < e.1)
    (hl' : ∀ e ∈ l', time ≤ e.1) :
    Starts { s with now := time, events := l ++ l' } added none := by
  have hmem : (time, .checkForeground) ∈ s.events := he ▸ List.mem_append_right l List.mem_cons_self
  have hsame : ∀ t, Scheduled s.events t → Scheduled (l ++ l') t := by
    intro t ht
    rw [Scheduled, he] at ht
    simpa [Scheduled] using ht
  refine h.advance (h.future _ hmem) ?_ ?_ (fun t ht => .inl (hsame t ht))
    fun t ht => .inl (hsame t ht)
  · exact he ▸ (List.Sublist.refl l).append (List.sublist_cons_self ..)
  · exact List.forall_mem_append.mpr ⟨fun e hm => Int.le_of_lt (hl e hm), hl'⟩

theorem not_scheduled_take {l l' : List (Int × ScheduledEvent)} (h : Starts s added none)
    (he : s.events = l ++ (time, .start flow) :: l') : ¬Scheduled (l ++ l') flow := by
  have hunique := h.unique
  rw [he] at hunique
  exact fun hs => ((FlowScheduler.scheduled_middle hunique flow).mp hs).2 rfl

/-- A frame that counts for no foreground flow. -/
theorem running_cons {frame : FlowFrame} (hf : ∀ t, frame ≠ .notifyComplete t 1) :
    Running s (frame :: frames) t ↔ Running s frames t := by
  rw [Running, Running, List.mem_cons, or_iff_right (hf t).symm]

/-- `StartFlow` is entered. -/
theorem Inv.runFlow (hcounts : Counts s frames) (hstarts : Starts s added (some flow))
    (hforeground : CountsForeground s frames) (hrem : s.remDependencies (some flow) = 0)
    (hnew : s.callbacks flow = 0) (hstart : (s.info flow).startTime ≤ s.now)
    (hsched : ¬Scheduled s.events flow) (hlt : flow < s.flows.length) :
    Inv ⟨s.runFlow flow, added, .outside :: frames⟩ := by
  have hc : s.completed flow = false := by
    cases hc : s.completed flow with
    | false => rfl
    | true => exact absurd (hnew.symm.trans (hstarts.completed flow hc)) Nat.zero_ne_one
  have hcounts : Counts (s.runFlow flow) frames := hcounts.congr rfl rfl rfl
  refine ⟨hcounts.outside, hstarts.runFlow hrem hnew hstart hsched hlt, ?_⟩
  exact (hforeground.runFlow hnew hc).congr
    (fun t => running_cons fun _ => FlowFrame.noConfusion) rfl

theorem Inv.start {l l' : List (Int × ScheduledEvent)} (h : Inv ⟨s, added, []⟩)
    (he : s.events = l ++ (time, .start flow) :: l') (hl : ∀ e ∈ l, time < e.1)
    (hl' : ∀ e ∈ l', time ≤ e.1) (hrem : s.remDependencies (some flow) = 0) :
    Inv ⟨FlowScheduler.runFlow { s with now := time, events := l ++ l' } flow, added,
      [.outside]⟩ := by
  have hmem : (time, .start flow) ∈ s.events := he ▸ List.mem_append_right l List.mem_cons_self
  obtain ⟨hnew, hstart, -⟩ := h.starts.scheduled flow time hmem
  refine Inv.runFlow (h.counts.congr rfl rfl rfl) (h.starts.take he hl hl' (.inl rfl))
    (h.foreground.congr (fun _ => Iff.rfl) rfl) hrem hnew hstart (not_scheduled_take h.starts he) ?_
  exact h.starts.bound flow (.inr (.inr (.inl (scheduled_iff.mpr ⟨time, hmem⟩))))

theorem Inv.run (h : Inv ⟨s, added, .onFlowFinish source (some flow :: targets) :: frames⟩)
    (ht : Told s s' (some flow)) (hzero : s'.remDependencies (some flow) = 0)
    (hstart : (s.info flow).startTime ≤ s.now) (hsched : ¬Scheduled s.events flow) :
    Inv ⟨s'.runFlow flow, added, .outside :: .onFlowFinish source targets :: frames⟩ := by
  have hnew : s.callbacks flow = 0 := by
    rcases Nat.le_one_iff_eq_zero_or_eq_one.mp (h.starts.once flow) with hz | hone
    · exact hz
    · exact absurd (h.starts.ran flow hone).1 (Nat.ne_of_gt ht.pos)
  have hlt : flow < s.flows.length := by
    have hsub := (h.counts.targets source _ List.mem_cons_self).2 List.mem_cons_self
    exact h.starts.bound flow (.inr (.inr (.inr ⟨source, hsub⟩)))
  have hforeground : CountsForeground s' (.onFlowFinish source targets :: frames) := by
    refine h.foreground.congr (fun t => ?_) (by rw [ht.rest])
    rw [running_cons fun _ => FlowFrame.noConfusion, running_cons fun _ => FlowFrame.noConfusion,
      ht.rest]
    exact Iff.rfl
  have hstarts : Starts s' added (some flow) := h.starts.tell ht fun t heq => .inl (by rw [heq])
  have hrest := ht.rest
  refine Inv.runFlow (h.counts.tell ht) hstarts hforeground hzero ?_ ?_ ?_ ?_
  all_goals
    rw [hrest]
    assumption

/-- An event without flows, or the next round of a loop in which nothing happens. -/
theorem Inv.skip (h : Inv ⟨s, added, frames⟩) (hs : s' = { s with
    now := s'.now, names := s'.names, events := s'.events, completionTimes := s'.completionTimes
    stopped := s'.stopped, calls := s'.calls })
    (hstarts : Starts s' added none) : Inv ⟨s', added, frames⟩ := by
  refine ⟨h.counts.congr (by rw [hs]) (by rw [hs]) (by rw [hs]), hstarts,
    h.foreground.congr (fun t => ?_) (by rw [hs])⟩
  rw [hs]
  exact Iff.rfl

theorem checkForeground_rest (s : FlowScheduler) : s.checkForeground =
    { s with stopped := s.checkForeground.stopped, calls := s.checkForeground.calls } := by
  unfold FlowScheduler.checkForeground
  split <;> rfl

theorem Inv.checkForeground (h : Inv ⟨s, added, frames⟩) :
    Inv ⟨s.checkForeground, added, frames⟩ := by
  have hrest := checkForeground_rest s
  refine h.skip ?_ ?_
  · rw [hrest]
  · refine h.starts.congr ?_ ?_
    · rw [hrest]
    · rw [hrest]
      exact h.starts.completed

/-- A call of something outside, and its return. -/
theorem Inv.outside : Inv ⟨s, added, .outside :: frames⟩ ↔ Inv ⟨s, added, frames⟩ := by
  have hrunning : ∀ t, Running s (.outside :: frames) t ↔ Running s frames t := fun t =>
    running_cons fun _ => FlowFrame.noConfusion
  exact ⟨fun h => ⟨h.counts.leave fun _ _ hf => hf, h.starts,
    h.foreground.congr (fun t => (hrunning t).symm) rfl⟩,
    fun h => ⟨h.counts.outside, h.starts, h.foreground.congr hrunning rfl⟩⟩

theorem Inv.addDependency (h : Inv ⟨s, added, frames⟩) (htarget : target ≠ none)
    (hlt : ∀ flow ∈ target, flow < s.flows.length) (hd : Declares s s' target d)
    (ho : if s.completed d then target ∈ s.dependencies d ∨ ∀ frame ∈ frames, frame.telling ≠ some d
      else target ∉ s.dependencies d ∧ ∀ flow ∈ target, s.callbacks flow = 0) :
    Inv ⟨s', added, frames⟩ := by
  have hforeground : CountsForeground s' frames := by
    refine h.foreground.congr (fun t => ?_) (by rw [hd.rest])
    rw [hd.rest]
    exact Iff.rfl
  cases hc : s.completed d with
  | true =>
    rw [hc, if_pos rfl] at ho
    exact ⟨h.counts.declare_completed hd htarget hc ho, h.starts.declare hd (.inl hc) hlt,
      hforeground⟩
  | false =>
    rw [hc, if_neg Bool.false_ne_true] at ho
    exact ⟨h.counts.declare hd htarget hc ho.1, h.starts.declare hd (.inr ho.2) hlt, hforeground⟩

theorem Inv.notifyComplete (h : Inv ⟨s, added, frames⟩) (hcb : 0 < s.callbacks flow)
    (hc : s.completed flow = false) :
    Inv ⟨{ s with completed := update s.completed flow true }, added,
      .notifyComplete flow (s.callbacks flow) :: frames⟩ := by
  have hone : s.callbacks flow = 1 := Nat.le_antisymm (h.starts.once flow) hcb
  rw [hone]
  refine ⟨h.counts.notifyComplete hc, h.starts.congr rfl fun t ht => ?_, ?_⟩
  · rcases eq_or_ne t flow with rfl | hne
    · exact hone
    · exact h.starts.completed t ((update_of_ne hne ..).symm.trans ht)
  · refine h.foreground.congr (fun t => ?_) rfl
    refine and_congr_right fun _ => and_congr_right fun _ => ?_
    rcases eq_or_ne t flow with rfl | hne
    · exact iff_of_true (.inr List.mem_cons_self) (.inl hc)
    · simp [hne]

theorem Inv.onFlowFinish (h : Inv ⟨s, added, .notifyComplete flow (n + 1) :: frames⟩)
    (he : Finished s s' flow) (hperm : targets.Perm (s'.dependencies flow)) :
    Inv ⟨s', added, .onFlowFinish flow targets :: .notifyComplete flow n :: frames⟩ := by
  obtain rfl : n = 0 := by
    have := h.counts.callbacks flow (n + 1) List.mem_cons_self
    omega
  have hc : s.completed flow = true := h.counts.completed _ List.mem_cons_self flow rfl
  have hrest := he.rest
  have hcounts : Counts s' (.notifyComplete flow 1 :: frames) :=
    h.counts.congr (by rw [hrest]) (by rw [hrest]) (by rw [hrest])
  refine ⟨hcounts.onFlowFinish hperm, h.starts.congr (by rw [hrest]) ?_,
    h.foreground.onFlowFinish he (h.starts.completed flow hc) hc (h.counts.not_untold rfl)⟩
  rw [hrest]
  exact h.starts.completed

theorem Inv.wait (h : Inv ⟨s, added, .onFlowFinish source (target :: targets) :: frames⟩)
    (ht : Told s s' target) (hwait : s'.remDependencies target ≠ 0 ∨
      ∃ flow, target = some flow ∧ s'.now < (s'.info flow).startTime) :
    Inv ⟨s', added, .onFlowFinish source targets :: frames⟩ := by
  have hrest := ht.rest
  refine ⟨h.counts.tell ht, h.starts.tell ht fun t heq => ?_, h.foreground.congr (fun t => ?_) ?_⟩
  · rcases hwait with hpos | ⟨flow, rfl, hlate⟩
    · exact .inr (.inl (Nat.pos_of_ne_zero hpos))
    · cases heq
      rw [hrest] at hlate
      exact .inr (.inr hlate)
  · rw [running_cons fun _ => FlowFrame.noConfusion, running_cons fun _ => FlowFrame.noConfusion,
      hrest]
    exact Iff.rfl
  · rw [hrest]

/-- A frame that has nothing more to do is left. -/
theorem Inv.leave {frame : FlowFrame} (h : Inv ⟨s, added, frame :: frames⟩)
    (hf : frame = .onFlowFinish flow [] ∨ frame = .notifyComplete flow 0) :
    Inv ⟨s, added, frames⟩ := by
  refine ⟨h.counts.leave fun target d hu => ?_, h.starts,
    h.foreground.congr (fun t => (running_cons fun t heq => ?_).symm) rfl⟩
  · rcases hf with rfl | rfl
    · exact List.not_mem_nil hu.2
    · exact Nat.lt_irrefl 0 hu.2.1
  · rcases hf with rfl | rfl <;> cases heq

/-- Every step of an orderly run keeps the invariant. -/
theorem Inv.step (h : Inv x) (ho : Orderly x call) (hs : Step x call y) : Inv y := by
  cases hs with
  | start _ he hl hl' hrem => exact h.start he hl hl' hrem
  | hold _ he hl hl' hrem =>
    exact h.skip rfl (h.starts.take he hl hl' (.inr (Nat.pos_of_ne_zero hrem)))
  | test _ he hl hl' => exact Inv.checkForeground (h.skip rfl (h.starts.test he hl hl'))
  | event _ hnow hfuture =>
    refine Inv.outside.mpr (h.skip rfl ?_)
    exact h.starts.advance hnow (List.Sublist.refl _) hfuture (fun _ => .inl) fun _ => .inl
  | create =>
    refine ⟨h.counts.congr rfl rfl rfl, h.starts.create, h.foreground.congr (fun t => ?_) rfl⟩
    refine and_congr_left fun hone => ?_
    have hlt := h.starts.bound t (.inr (.inl hone.1))
    simp [Foreground, List.getElem?_append_left hlt]
  | addFlow hlt =>
    refine ⟨h.counts.congr rfl rfl rfl, h.starts.addFlow ho.1 ho.2 hlt, ?_⟩
    exact h.foreground.congr (fun _ => Iff.rfl) rfl
  | addDependency hlt _ hadd =>
    obtain ⟨d, rfl, hd⟩ := addDependency_spec hadd
    exact h.addDependency ho.1 hlt hd (ho.2 d rfl)
  | notifyComplete hcb hc => exact h.notifyComplete hcb hc
  | callback => exact Inv.outside.mpr h
  | onFlowFinish hfin hperm => exact h.onFlowFinish (finishFlow_spec hfin) hperm
  | wait hr hwait => exact h.wait (resolve_spec hr) hwait
  | run hr hzero hstart =>
    have ht := resolve_spec hr
    rw [ht.rest] at hstart
    exact h.run ht hzero hstart (ho (ht.eq_one hzero) _ rfl hstart)
  | finish => exact (h.leave (.inl rfl)).checkForeground
  | leave => exact Inv.outside.mp h
  | completed => exact h.leave (.inr rfl)

/-- No assertion of the scheduler fails: the innermost frame goes on, or is left. -/
theorem Inv.ends (h : Inv x) (hne : x.frames ≠ []) : ∃ call y, Step x call y := by
  obtain ⟨s, added, frames⟩ := x
  cases frames with
  | nil => exact absurd rfl hne
  | cons frame frames =>
    cases frame with
    | outside => exact ⟨_, _, .leave⟩
    | notifyComplete flow n =>
      cases n with
      | zero => exact ⟨_, _, .completed⟩
      | succ n =>
        obtain rfl : n = 0 := by
          have := h.counts.callbacks flow (n + 1) List.mem_cons_self
          omega
        have hc : s.completed flow = true := h.counts.completed _ List.mem_cons_self flow rfl
        obtain ⟨s', hfin⟩ := h.foreground.finishFlow (h.starts.completed flow hc)
        exact ⟨_, _, .onFlowFinish hfin (.refl _)⟩
    | onFlowFinish source targets =>
      cases targets with
      | nil => exact ⟨_, _, .finish⟩
      | cons target targets =>
        have hpos := h.counts.rem_pos
        obtain ⟨s', hr⟩ : ∃ s', s.resolve target = some s' :=
          ⟨_, if_neg (Nat.ne_of_gt hpos)⟩
        have hmem := (h.counts.targets source _ List.mem_cons_self).2 List.mem_cons_self
        cases target with
        | none => exact absurd hmem (h.counts.nonnull source)
        | some flow =>
          by_cases hready : s'.remDependencies (some flow) = 0 ∧ (s'.info flow).startTime ≤ s'.now
          · exact ⟨_, _, .run hr hready.1 hready.2⟩
          · refine ⟨_, _, .wait hr ?_⟩
            rcases Classical.not_and_iff_not_or_not.mp hready with hrem | hlate
            · exact .inl hrem
            · exact .inr ⟨flow, rfl, Int.not_le.mp hlate⟩

theorem Inv.runsWhenDue (h : Inv x) : RunsWhenDue x := by
  have hresolved : ∀ target d, x.scheduler.remDependencies target = 0 →
      target ∈ x.scheduler.dependencies d → x.scheduler.completed d = true := by
    intro target d hzero hmem
    have hset := h.counts.rem target
    rw [hzero, Nat.cast_zero, Set.encard_eq_zero] at hset
    cases hc : x.scheduler.completed d with
    | true => rfl
    | false => exact ((Set.ext_iff.mp hset d).mp (.inl ⟨hc, hmem⟩)).elim
  have hone : ∀ flow, 0 < x.scheduler.callbacks flow → x.scheduler.callbacks flow = 1 :=
    fun flow hpos =>
    Nat.le_antisymm (h.starts.once flow) hpos
  constructor
  case once => exact h.starts.once
  case started => exact fun flow hpos => (h.starts.ran flow (hone flow hpos)).2
  case resolved => exact fun flow d hpos => hresolved _ d (h.starts.ran flow (hone flow hpos)).1
  case due =>
    intro hframes flow hadded hdeps
    rcases (h.starts.starts flow hadded).resolve_left (Option.some_ne_none flow).symm with
      hran | hpos | hsched
    · exact .inl hran
    · -- Between two events nothing is left to be told, so some dependency has not completed.
      have hempty : {d | Waits x.scheduler x.frames (some flow) d} = ∅ := by
        ext d
        refine iff_of_false ?_ (fun hf => hf)
        rintro (⟨hc, hmem⟩ | ⟨frame, hmem, -⟩)
        · rw [hdeps d hmem] at hc
          cases hc
        · rw [hframes] at hmem
          exact List.not_mem_nil hmem
      have hzero := h.counts.rem (some flow)
      rw [hempty, Set.encard_empty] at hzero
      exact absurd (Nat.cast_eq_zero.mp hzero.symm) (Nat.ne_of_gt hpos)
    · obtain ⟨time, hmem⟩ := scheduled_iff.mp hsched
      exact .inr ⟨time, hmem, h.starts.future _ hmem, (h.starts.scheduled flow time hmem).2.2⟩
  case ends => exact h.ends

/-! ## The list of flows -/

variable {infos : List SerializedFlow}

theorem Starts.of_mem_iff (h : Starts s added due) (hmem : ∀ t, t ∈ added' ↔ t ∈ added) :
    Starts s added' due where
  once := h.once
  completed := h.completed
  ran := h.ran
  starts t ht := h.starts t ((hmem t).mp ht)
  late t ht := h.late t ((hmem t).mp ht)
  future := h.future
  scheduled := h.scheduled
  unique := h.unique
  bound t ht := h.bound t (ht.imp (hmem t).mp id)

/-- The first loop of the constructor. -/
theorem Inv.foldl_addFlow (infos : List SerializedFlow)
    (h : Inv ⟨s, List.range s.flows.length, []⟩) :
    Inv ⟨infos.foldl FlowScheduler.addFlow s,
      List.range (infos.foldl FlowScheduler.addFlow s).flows.length, []⟩ := by
  induction infos generalizing s with
  | nil => exact h
  | cons info infos ih =>
    refine ih ?_
    rw [FlowScheduler.addFlow_eq]
    have hfresh := fun hlt => Nat.lt_irrefl _ (h.starts.bound s.flows.length hlt)
    have hnew : s.callbacks s.flows.length = 0 :=
      (Nat.le_one_iff_eq_zero_or_eq_one.mp (h.starts.once _)).resolve_right fun hone =>
        hfresh (.inr (.inl hone))
    have hstarts : Starts { s with flows := s.flows ++ [info] } _ none := h.starts.create
    refine ⟨h.counts.congr rfl rfl rfl, (hstarts.addFlow hnew
      (fun hs => hfresh (.inr (.inr (.inl hs)))) ?_).of_mem_iff fun t => ?_, ?_⟩
    · simp
    · simp only [FlowScheduler.schedule, List.length_append, List.length_singleton, List.mem_range,
        List.mem_cons]
      omega
    · refine h.foreground.congr (fun t => and_congr_left fun hone => ?_) rfl
      have hlt := h.starts.bound t (.inr (.inl hone.1))
      simp [FlowScheduler.schedule, Foreground, List.getElem?_append_left hlt]

/-- The second loop of the constructor. -/
theorem Inv.foldlM_addDependency {calls : List (FlowPtr × FlowPtr)} (h : Inv ⟨s, added, []⟩)
    (hnodup : calls.Nodup) (hc : ∀ t, s.completed t = false) (hcb : ∀ t, s.callbacks t = 0)
    (htarget : ∀ call ∈ calls, call.1 ≠ none ∧ ∀ flow ∈ call.1, flow < s.flows.length)
    (hnew : ∀ call ∈ calls, ∀ d ∈ call.2, call.1 ∉ s.dependencies d)
    (hf : calls.foldlM (fun s call => s.addDependency call.1 call.2) s = some s') :
    Inv ⟨s', added, []⟩ := by
  induction calls generalizing s with
  | nil =>
    cases hf
    exact h
  | cons call calls ih =>
    obtain ⟨hcall, hnodup⟩ := List.nodup_cons.mp hnodup
    obtain ⟨⟨hnone, hlt⟩, htarget⟩ := List.forall_mem_cons.mp htarget
    obtain ⟨hfirst, hnew⟩ := List.forall_mem_cons.mp hnew
    rw [List.foldlM_cons] at hf
    obtain ⟨s₁, hs₁, hf⟩ := Option.bind_eq_some_iff.mp hf
    obtain ⟨d, hd, hdecl⟩ := addDependency_spec hs₁
    have h₁ := h.addDependency hnone hlt hdecl <| by
      rw [hc, if_neg Bool.false_ne_true]
      exact ⟨hfirst d hd, fun flow _ => hcb flow⟩
    have hrest := hdecl.rest
    refine ih h₁ hnodup (by rw [hrest]; exact hc) (by rw [hrest]; exact hcb)
      (by rw [hrest]; exact htarget) (fun call' hmem e he hdep => ?_) hf
    rcases hdecl.mem.mp hdep with hdep | ⟨heq, rfl⟩
    · exact hnew call' hmem e he hdep
    · have hsame : call' = call := Prod.ext heq (Option.mem_def.mp he |>.trans hd.symm)
      exact hcall (hsame ▸ hmem)

theorem findFlow_lt {id : String} (h : FlowScheduler.findFlow infos id = some flow) :
    flow < (FlowScheduler.created infos).length := by
  have hall : ∀ t, FlowScheduler.findFlow infos id = some t →
      t < (FlowScheduler.created infos).length := by
    refine List.foldlRecOn (motive := fun ptr => ∀ t, ptr = some t →
      t < (FlowScheduler.created infos).length) _ _
        (fun t ht => (Option.some_ne_none t ht.symm).elim)
      fun ptr ih entry hmem t heq => ?_
    obtain ⟨info, i⟩ := entry
    dsimp only at heq
    split at heq
    next =>
      cases heq
      exact (List.getElem?_eq_some_iff.mp (List.mk_mem_zipIdx_iff_getElem?.mp hmem)).1
    next => exact ih t heq
  exact hall flow h

theorem Starts.append_test (h : Starts s added none)
    (hnew : .checkForeground ∉ s.events.map Prod.snd) (hnow : s.now ≤ time) :
    Starts { s with events := s.events ++ [(time, .checkForeground)] } added none := by
  have hiff : ∀ t, Scheduled (s.events ++ [(time, .checkForeground)]) t ↔ Scheduled s.events t := by
    intro t
    simp [Scheduled]
  constructor
  case once => exact h.once
  case completed => exact h.completed
  case ran => exact h.ran
  case starts => exact fun t ht => (h.starts t ht).imp id (Or.imp id (Or.imp id (hiff t).mpr))
  case late => exact fun t ht => (h.late t ht).imp (hiff t).mpr id
  case future => exact List.forall_mem_append.mpr ⟨h.future, List.forall_mem_singleton.mpr hnow⟩
  case scheduled =>
    intro t time' hmem
    refine h.scheduled t time' ((List.mem_append.mp hmem).resolve_right fun hmem => ?_)
    cases List.mem_singleton.mp hmem
  case unique =>
    rw [List.map_append, List.map_singleton]
    refine List.nodup_append.mpr ⟨h.unique, List.nodup_singleton _, fun e he e' he' heq => ?_⟩
    rw [List.mem_singleton.mp he'] at heq
    subst heq
    exact hnew he
  case bound =>
    intro t ht
    rw [hiff] at ht
    exact h.bound t ht

theorem Inv.construct (ho : OnceEach infos) (h : FlowScheduler.construct infos = some s) :
    Inv ⟨s, List.range s.flows.length, []⟩ := by
  obtain ⟨hevents, hnow, -⟩ := FlowScheduler.tracked_construct h
  obtain ⟨s₁, hs₁, h⟩ := Option.bind_eq_some_iff.mp h
  cases h
  have hadd := FlowScheduler.added_foldl (FlowScheduler.created infos) {}
  have hempty : Inv ⟨{}, [], []⟩ := by
    refine ⟨⟨fun target => ?_, fun _ => List.nodup_nil, fun _ => List.not_mem_nil, ?_, ?_,
      List.nodup_nil, ?_⟩, ⟨fun _ => Nat.zero_le 1, ?_, ?_, ?_, ?_, ?_, ?_, List.nodup_nil, ?_⟩, ?_⟩
    all_goals simp [Waits, CountsForeground, Running, Scheduled]
  have h₁ := hempty.foldl_addFlow (FlowScheduler.created infos)
  have h₁ : Inv ⟨{ (FlowScheduler.created infos).foldl FlowScheduler.addFlow {} with
      names := fun flow => (FlowScheduler.created infos)[flow]?.map (·.id) }, _, []⟩ :=
    h₁.skip rfl (h₁.starts.congr rfl h₁.starts.completed)
  have h₂ := h₁.foldlM_addDependency ho.nodup (fun t => by rw [hadd.rest])
    (fun t => by rw [hadd.rest]) (fun call hmem => ⟨ho.target call hmem, fun flow hflow => ?_⟩)
    (fun call _ d _ => by rw [hadd.rest]; exact List.not_mem_nil) hs₁
  · have hflows : s₁.flows.length =
        ((FlowScheduler.created infos).foldl FlowScheduler.addFlow {}).flows.length := by
      rw [(FlowScheduler.declared_foldlM _ (fun flow => by rw [hadd.rest]) hs₁).rest]
    rw [← hflows] at h₂
    have hstarts : s₁.events = FlowScheduler.starts infos := (List.append_inj' hevents rfl).1
    refine h₂.skip rfl (h₂.starts.append_test (fun hmem => ?_) ?_)
    · rw [hstarts, FlowScheduler.map_snd_starts] at hmem
      obtain ⟨flow, -, heq⟩ := List.mem_map.mp hmem
      cases heq
    · have hzero : s₁.now = 0 := hnow
      rw [hzero]
      exact Int.le_refl 0
  · rw [hadd.flows]
    obtain ⟨info, -, hcall⟩ := List.mem_flatMap.mp hmem
    obtain ⟨dep, -, rfl⟩ := List.mem_map.mp hcall
    exact findFlow_lt hflow

/-- A flow runs once and when it is due, if the scheduler is used as it expects. -/
theorem runs_when_due (ho : OnceEach infos)
    (h : ((machine infos).restrict Orderly).Reachable x) : RunsWhenDue x := by
  have hinv : Inv x := by
    refine h.invariant (fun hinit => ?_) fun _ hi hs => ?_
    · obtain ⟨s, hs, rfl⟩ := hinit
      exact .construct ho hs
    · exact hi.step hs.1 hs.2
  exact hinv.runsWhenDue

/-- A flow that waits for another one twice is never run. -/
theorem never_run_repeated :
    ∃ infos x, FlowScheduler.Acyclic infos ∧ (machine infos).Reachable x ∧ ¬RunsWhenDue x := by
  let infos : List SerializedFlow :=
    [{ id := "first", enable := true },
      { id := "second", enable := true, dependencies := ["first", "first"] }]
  let s₀ : FlowScheduler :=
    { flows := infos
      names := fun flow => infos[flow]?.map (·.id)
      events := [(0, .start 0), (0, .start 1), (0, .checkForeground)]
      dependencies := update (update (fun _ => []) 0 [some 1]) 0 [some 1]
      remDependencies := update (update (fun _ => 0) (some 1) 1) (some 1) 2 }
  have h₀ : (machine infos).Reachable ⟨s₀, [0, 1], []⟩ := .init ⟨s₀, rfl, rfl⟩
  have h₁ := h₀.step (.start (l := []) rfl rfl (by simp) (by simp) rfl)
  have h₂ := h₁.step .leave
  have h₃ := h₂.step (.hold (l := []) rfl rfl (by simp) (by simp) (by decide))
  have h₄ := h₃.step (.test (l := []) rfl rfl (by simp) (by simp))
  have h₅ := h₄.step (show Step _ (.event 5) _ from .event rfl (by decide) (by decide))
  have h₆ := h₅.step (show Step _ (.notifyComplete 0) _ from .notifyComplete (by decide) rfl)
  have h₇ := h₆.step (.onFlowFinish rfl (.refl _))
  have h₈ := h₇.step (.wait rfl (.inl (by decide)))
  have h₉ := ((h₈.step .finish).step .completed).step .leave
  have hcalls : FlowScheduler.dependencyCalls infos = [(some 1, some 0), (some 1, some 0)] := rfl
  refine ⟨infos, _, ⟨id, fun t d h => ?_⟩, h₉, fun h => ?_⟩
  · obtain ⟨rfl, rfl⟩ : t = 1 ∧ d = 0 := by simpa [hcalls] using h
    exact Nat.zero_lt_one
  · have hdone : ∀ d, some 1 ∈ s₀.dependencies d → update (fun _ => false) 0 true d = true := by
      intro d hd
      by_cases h0 : d = 0
      · rw [h0, update_self]
      · simp [s₀, h0] at hd
    rcases h.due rfl 1 (by decide) hdone with hran | ⟨time, hmem, -⟩
    · exact absurd hran (by decide)
    · exact absurd hmem List.not_mem_nil

/-- A flow that waits for another one, once, runs when this one has completed. -/
theorem runs_when_due_chain :
    ∃ infos x, ((machine infos).restrict Orderly).Reachable x ∧ x.scheduler.callbacks 1 = 1 ∧
      x.scheduler.now = 5 ∧ RunsWhenDue x := by
  let infos : List SerializedFlow :=
    [{ id := "first", enable := true },
      { id := "second", enable := true, dependencies := ["first"] }]
  let s₀ : FlowScheduler :=
    { flows := infos
      names := fun flow => infos[flow]?.map (·.id)
      events := [(0, .start 0), (0, .start 1), (0, .checkForeground)]
      dependencies := update (fun _ => []) 0 [some 1]
      remDependencies := update (fun _ => 0) (some 1) 1 }
  have h₀ : ((machine infos).restrict Orderly).Reachable ⟨s₀, [0, 1], []⟩ := .init ⟨s₀, rfl, rfl⟩
  have go : ∀ {x call y}, ((machine infos).restrict Orderly).Reachable x → Step x call y →
      Orderly x call → ((machine infos).restrict Orderly).Reachable y :=
        fun hx hs ho => hx.step ⟨ho, hs⟩
  have h₁ := go h₀ (.start (l := []) rfl rfl (by simp) (by simp) rfl) trivial
  have h₂ := go h₁ .leave trivial
  have h₃ := go h₂ (.hold (l := []) rfl rfl (by simp) (by simp) (by decide)) trivial
  have h₄ := go h₃ (.test (l := []) rfl rfl (by simp) (by simp)) trivial
  have h₅ := go h₄ (show Step _ (.event 5) _ from .event rfl (by decide) (by decide)) trivial
  have h₆ := go h₅ (show Step _ (.notifyComplete 0) _ from .notifyComplete (by decide) rfl) trivial
  have h₇ := go h₆ (.onFlowFinish rfl (.refl _)) trivial
  have h₈ := go h₇ (.run rfl rfl (by decide)) fun _ _ _ _ => List.not_mem_nil
  have ho : OnceEach infos := by
    have hcalls : FlowScheduler.dependencyCalls infos = [(some 1, some 0)] := rfl
    refine ⟨hcalls ▸ List.nodup_singleton _, fun call hmem => ?_⟩
    rw [hcalls] at hmem
    cases List.mem_singleton.mp hmem
    exact Option.some_ne_none 1
  exact ⟨infos, _, h₈, rfl, rfl, runs_when_due ho h₈⟩

end FlowSimulation
end Roce
