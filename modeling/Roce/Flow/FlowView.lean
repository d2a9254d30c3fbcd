import Roce.Flow.RunsWhenDue

/-! # What the scheduler knows of a flow

The part of the state of the scheduler, and of the frames, that is about one flow; and for each step
the flows that it concerns. -/

namespace Roce

open Function

/-- The flow whose targets a frame has still to tell. -/
def FlowFrame.owes : FlowFrame → Option Nat
  | .notifyComplete flow (_ + 1) => some flow
  | .onFlowFinish flow (_ :: _) => some flow
  | _ => none

namespace FlowSimulation

open FlowScheduler (Scheduled Finished finishFlow_spec)

/-- What the scheduler knows of a flow: how often it was run, whether it has completed, for how many
flows it waits, the number of its events, and the frames that have still to tell its targets. -/
@[ext] structure FlowView where
  callbacks : Nat
  completed : Bool
  remDependencies : Nat
  scheduled : Nat
  telling : List FlowFrame
  deriving DecidableEq, Repr

namespace FlowView

def fresh : FlowView := ⟨0, false, 0, 0, []⟩

def due : FlowView := ⟨0, false, 0, 1, []⟩

/-- A flow that waits for the one before it. -/
def waiting (scheduled : Nat) : FlowView := ⟨0, false, 1, scheduled, []⟩

def running : FlowView := ⟨1, false, 0, 0, []⟩

def completing (frame : FlowFrame) : FlowView := ⟨1, true, 0, 0, [frame]⟩

def finished : FlowView := ⟨1, true, 0, 0, []⟩

end FlowView

/-- The events of `AddFlow` for a flow. -/
def startEvents (events : List (Int × ScheduledEvent)) (flow : Nat) : Nat :=
  (events.map Prod.snd).count (.start flow)

def view (s : FlowScheduler) (frames : List FlowFrame) (flow : Nat) : FlowView where
  callbacks := s.callbacks flow
  completed := s.completed flow
  remDependencies := s.remDependencies (some flow)
  scheduled := startEvents s.events flow
  telling := frames.filter (·.owes = some flow)

variable {s s' : FlowScheduler} {frames frames' stack : List FlowFrame} {frame : FlowFrame}
  {flow next : Nat} {target : FlowPtr} {targets : List FlowPtr} {x y : FlowSimulation}
  {call : FlowCall}

/-! ## What a step changes -/

/-- The flows of which a step may change what is known. -/
def Concerns (x : FlowSimulation) : FlowCall → Nat → Prop
  | .scheduled (.start flow), t => t = flow
  | .addFlow flow, t => t = flow
  | .addDependency target _, t => target = some t
  | .notifyComplete flow, t => t = flow
  | .onFlowFinish, t => ∃ n stack, x.frames = .notifyComplete t n :: stack
  | .tell target, t => target = some t ∨ ∃ targets stack,
    x.frames = .onFlowFinish t targets :: stack
  | _, _ => False

theorem startEvents_append (l l' : List (Int × ScheduledEvent)) (t : Nat) :
    startEvents (l ++ l') t = startEvents l t + startEvents l' t := by
  rw [startEvents, List.map_append, List.count_append, startEvents, startEvents]

theorem startEvents_cons_self (time : Int) (l : List (Int × ScheduledEvent)) (t : Nat) :
    startEvents ((time, .start t) :: l) t = startEvents l t + 1 := by
  simp [startEvents]

theorem startEvents_cons_of_ne (time : Int) (l : List (Int × ScheduledEvent))
    (h : event ≠ .start t) : startEvents ((time, event) :: l) t = startEvents l t := by
  simp [startEvents, h]

theorem startEvents_eq_zero {events : List (Int × ScheduledEvent)} :
    startEvents events t = 0 ↔ ¬Scheduled events t := List.count_eq_zero

theorem checkForeground_view (s : FlowScheduler) (frames : List FlowFrame) (t : Nat) :
    view s.checkForeground frames t = view s frames t := by
  rw [checkForeground_rest]
  rfl

theorem view_cons (h : frame.owes ≠ some t) : view s (frame :: frames) t = view s frames t := by
  rw [view, view, List.filter_cons_of_neg (by simpa using h)]

theorem view_cons_self (h : frame.owes = some t) : view s (frame :: frames) t =
    { view s frames t with telling := frame :: (view s frames t).telling } := by
  rw [view, view, List.filter_cons_of_pos (by simpa using h)]

theorem view_outside : view s (.outside :: frames) t = view s frames t :=
  view_cons (Option.some_ne_none t).symm

theorem view_notifyComplete (h : t ≠ flow) :
    view s (.notifyComplete flow n :: frames) t = view s frames t := by
  refine view_cons fun heq => ?_
  cases n with
  | zero => cases heq
  | succ n => exact h (Option.some.inj heq).symm

theorem view_onFlowFinish (h : t ≠ flow) :
    view s (.onFlowFinish flow targets :: frames) t = view s frames t := by
  refine view_cons fun heq => ?_
  cases targets with
  | nil => cases heq
  | cons => exact h (Option.some.inj heq).symm

theorem view_runFlow (h : t ≠ flow) : view (s.runFlow flow) frames t = view s frames t := by
  ext1
  case callbacks => exact update_of_ne h ..
  all_goals rfl

theorem view_runFlow_self : view (s.runFlow flow) frames flow =
    { view s frames flow with callbacks := s.callbacks flow + 1 } := by
  ext1
  case callbacks => exact update_self ..
  all_goals rfl

/-- An event is taken from the list. -/
theorem view_take {l l' : List (Int × ScheduledEvent)} (he : s.events = l ++ (time, event) :: l')
    (h : event ≠ .start t) :
    view { s with now := time, events := l ++ l' } frames t = view s frames t := by
  ext1
  case scheduled =>
    change startEvents (l ++ l') t = startEvents s.events t
    rw [he, startEvents_append, startEvents_append, startEvents_cons_of_ne time l' h]
  all_goals rfl

theorem view_take_self {l l' : List (Int × ScheduledEvent)}
    (he : s.events = l ++ (time, .start flow) :: l') :
    (view s frames flow).scheduled = startEvents (l ++ l') flow + 1 := by
  change startEvents s.events flow = _
  rw [he, startEvents_append, startEvents_append, startEvents_cons_self, Nat.add_assoc]

theorem Told.view_eq (h : Told s s' target) (ht : target ≠ some t) :
    view s' frames t = view s frames t := by
  rw [h.rest]
  ext1
  case remDependencies =>
    dsimp only [view]
    rw [h.rem]
    exact update_of_ne ht.symm ..
  all_goals rfl

theorem Told.view_self (h : Told s s' (some flow)) : view s' frames flow =
    { view s frames flow with remDependencies := s.remDependencies (some flow) - 1 } := by
  rw [h.rest]
  ext1
  case remDependencies =>
    dsimp only [view]
    rw [h.rem, update_self]
  all_goals rfl

theorem view_of_finished (h : Finished s s' flow) : view s' frames t = view s frames t := by
  rw [h.rest]
  rfl

theorem Declares.view_eq (h : Declares s s' target d) (ht : target ≠ some t) :
    view s' frames t = view s frames t := by
  rw [h.rest]
  ext1
  case remDependencies =>
    dsimp only [view]
    rw [h.rem]
    split
    · rfl
    · exact update_of_ne ht.symm ..
  all_goals rfl

theorem view_schedule (h : t ≠ flow) : view (s.schedule flow) frames t = view s frames t := by
  ext1
  case scheduled =>
    have hne : ScheduledEvent.start flow ≠ .start t :=
      fun heq => h (ScheduledEvent.start.inj heq).symm
    dsimp only [view, FlowScheduler.schedule]
    rw [startEvents_append, startEvents_cons_of_ne _ _ hne]
    rfl
  all_goals rfl

theorem view_complete (h : t ≠ flow) :
    view { s with completed := update s.completed flow true } frames t = view s frames t := by
  ext1
  case completed => exact update_of_ne h ..
  all_goals rfl

theorem view_complete_self : view { s with completed := update s.completed flow true } frames flow =
    { view s frames flow with completed := true } := by
  ext1
  case completed => exact update_self ..
  all_goals rfl

/-- A step changes nothing that is known of the flows that it does not concern. -/
theorem Step.view_eq (h : Step x call y) (hc : ¬Concerns x call t) :
    view y.scheduler y.frames t = view x.scheduler x.frames t := by
  cases h with
  | @start l time l' flow added s _ he =>
    have hne : t ≠ flow := hc
    dsimp only
    rw [view_outside, view_runFlow hne]
    exact view_take he fun heq => hne (ScheduledEvent.start.inj heq).symm
  | hold _ he => exact view_take he fun heq => hc (ScheduledEvent.start.inj heq).symm
  | test _ he =>
    dsimp only
    rw [checkForeground_view]
    exact view_take he ScheduledEvent.noConfusion
  | event => exact view_outside
  | create => rfl
  | addFlow => exact view_schedule hc
  | addDependency _ _ hadd =>
    obtain ⟨d, -, hd⟩ := addDependency_spec hadd
    exact hd.view_eq hc
  | notifyComplete =>
    dsimp only
    rw [view_notifyComplete hc, view_complete hc]
  | callback => exact view_outside
  | @onFlowFinish flow _ n stack targets s s' hfin =>
    have hne : t ≠ flow := by
      rintro rfl
      exact hc ⟨_, _, rfl⟩
    dsimp only
    rw [view_onFlowFinish hne, view_notifyComplete hne, view_notifyComplete hne,
      view_of_finished (finishFlow_spec hfin)]
  | @wait target _ source targets stack s s' hr =>
    obtain ⟨htarget, hsource⟩ := not_or.mp hc
    have hne : t ≠ source := by
      rintro rfl
      exact hsource ⟨_, _, rfl⟩
    dsimp only
    rw [view_onFlowFinish hne, view_onFlowFinish hne, (resolve_spec hr).view_eq htarget]
  | @run flow _ source targets stack s s' hr =>
    obtain ⟨htarget, hsource⟩ := not_or.mp hc
    have hne : t ≠ source := by
      rintro rfl
      exact hsource ⟨_, _, rfl⟩
    have hflow : t ≠ flow := fun heq => htarget (congrArg some heq.symm)
    dsimp only
    rw [view_outside, view_onFlowFinish hne, view_onFlowFinish hne, view_runFlow hflow,
      (resolve_spec hr).view_eq htarget]
  | @finish flow =>
    dsimp only
    rw [checkForeground_view]
    exact (view_cons (by exact (Option.some_ne_none t).symm)).symm
  | leave => exact view_outside.symm
  | completed => exact (view_cons (by exact (Option.some_ne_none t).symm)).symm

/-- No flow is removed. -/
theorem Step.flows (h : Step x call y) : x.scheduler.flows <+: y.scheduler.flows := by
  cases h with
  | create => exact List.prefix_append ..
  | test | finish => rw [checkForeground_rest]
  | addDependency _ _ hadd =>
    obtain ⟨d, -, hd⟩ := addDependency_spec hadd
    rw [hd.rest]
  | onFlowFinish hfin => rw [(finishFlow_spec hfin).rest]
  | wait hr => rw [(resolve_spec hr).rest]
  | run hr => exact (resolve_spec hr).rest ▸ List.prefix_rfl
  | _ => exact List.prefix_rfl

theorem Step.dependencies (h : Step x call y)
    (hc : ∀ target, call ≠ .addDependency target (some d)) :
    y.scheduler.dependencies d = x.scheduler.dependencies d := by
  cases h with
  | test => rw [checkForeground_rest]
  | finish => rw [checkForeground_rest]
  | addDependency _ _ hadd =>
    obtain ⟨e, rfl, hd⟩ := addDependency_spec hadd
    dsimp only
    rw [hd.dependencies, update_of_ne]
    rintro rfl
    exact hc _ rfl
  | onFlowFinish hfin => rw [(finishFlow_spec hfin).rest]
  | wait hr => exact congrFun (resolve_spec hr).dependencies d
  | run hr => exact congrFun (resolve_spec hr).dependencies d
  | _ => rfl

/-- The targets that are still to be told are targets of the flow. -/
theorem Step.told (h : Step x call y) (hmem : .onFlowFinish d targets ∈ y.frames)
    (ht : t ∈ targets) :
    t ∈ x.scheduler.dependencies d ∨ ∃ targets', .onFlowFinish d targets' ∈ x.frames ∧
      t ∈ targets' := by
  cases h with
  | onFlowFinish hfin hperm =>
    rcases List.mem_cons.mp hmem with heq | hmem
    · cases heq
      rw [(finishFlow_spec hfin).rest] at hperm
      exact .inl (hperm.subset ht)
    · have hmem := List.mem_of_ne_of_mem FlowFrame.noConfusion hmem
      exact .inr ⟨_, List.mem_cons_of_mem _ hmem, ht⟩
  | wait =>
    rcases List.mem_cons.mp hmem with heq | hmem
    · cases heq
      exact .inr ⟨_, List.mem_cons_self, List.mem_cons_of_mem _ ht⟩
    · exact .inr ⟨_, List.mem_cons_of_mem _ hmem, ht⟩
  | run =>
    rcases List.mem_cons.mp (List.mem_of_ne_of_mem FlowFrame.noConfusion hmem) with heq | hmem
    · cases heq
      exact .inr ⟨_, List.mem_cons_self, List.mem_cons_of_mem _ ht⟩
    · exact .inr ⟨_, List.mem_cons_of_mem _ hmem, ht⟩
  | notifyComplete | callback =>
    exact .inr ⟨_, List.mem_of_ne_of_mem FlowFrame.noConfusion hmem, ht⟩
  | start | event =>
    exact absurd (List.mem_of_ne_of_mem FlowFrame.noConfusion hmem) List.not_mem_nil
  | hold | test => exact absurd hmem List.not_mem_nil
  | create | addFlow | addDependency => exact .inr ⟨_, hmem, ht⟩
  | finish | leave | completed => exact .inr ⟨_, List.mem_cons_of_mem _ hmem, ht⟩

theorem Step.completed_eq (h : Step x call y) : y.scheduler.completed t = x.scheduler.completed t ∨
    call = .notifyComplete t ∧ y.scheduler.completed t = true ∧
      ∃ n stack, y.frames = .notifyComplete t n :: stack := by
  cases h with
  | test | finish =>
    rw [checkForeground_rest]
    exact .inl rfl
  | addDependency _ _ hadd =>
    obtain ⟨d, -, hd⟩ := addDependency_spec hadd
    exact .inl (congrFun hd.completed t)
  | onFlowFinish hfin =>
    rw [(finishFlow_spec hfin).rest]
    exact .inl rfl
  | wait hr | run hr => exact .inl (congrFun (resolve_spec hr).completed t)
  | @notifyComplete flow _ stack s =>
    by_cases ht : t = flow
    · subst ht
      exact .inr ⟨rfl, update_self .., _, _, rfl⟩
    · exact .inl (update_of_ne ht ..)
  | start | hold | event | create | addFlow | callback | leave | completed => exact .inl rfl

theorem Step.callbacks_eq (h : Step x call y) : y.scheduler.callbacks t = x.scheduler.callbacks t ∨
    x.scheduler.callbacks t ≤ y.scheduler.callbacks t ∧ ∃ stack, y.frames = .outside :: stack := by
  have hrun : ∀ (s : FlowScheduler) flow, s.callbacks t ≤ (s.runFlow flow).callbacks t := by
    intro s flow
    by_cases ht : t = flow
    · subst ht
      have hself : (s.runFlow t).callbacks t = s.callbacks t + 1 := update_self ..
      rw [hself]
      exact Nat.le_succ _
    · exact Nat.le_of_eq (update_of_ne ht ..).symm
  cases h with
  | @start l time l' flow added s =>
    exact .inr ⟨hrun { s with now := time, events := l ++ l' } flow, _, rfl⟩
  | run hr =>
    refine .inr ⟨?_, _, rfl⟩
    rw [(resolve_spec hr).rest]
    exact hrun _ _
  | test | finish =>
    rw [checkForeground_rest]
    exact .inl rfl
  | addDependency _ _ hadd =>
    obtain ⟨d, -, hd⟩ := addDependency_spec hadd
    rw [hd.rest]
    exact .inl rfl
  | onFlowFinish hfin =>
    rw [(finishFlow_spec hfin).rest]
    exact .inl rfl
  | wait hr =>
    rw [(resolve_spec hr).rest]
    exact .inl rfl
  | hold | event | create | addFlow | notifyComplete | callback | leave | completed =>
    exact .inl rfl

/-- The loop of `NotifyComplete` is entered for flows that have completed. -/
def Notifying (x : FlowSimulation) : Prop :=
  ∀ flow n, .notifyComplete flow n ∈ x.frames → x.scheduler.completed flow = true

theorem Notifying.step (h : Notifying x) (hs : Step x call y) : Notifying y := by
  intro flow n hmem
  have hkeep : x.scheduler.completed flow = true → y.scheduler.completed flow = true := fun hc =>
    hs.completed_eq.elim (·.trans hc) (·.2.1)
  cases hs with
  | notifyComplete =>
    rcases List.mem_cons.mp hmem with heq | hmem
    · cases heq
      exact update_self ..
    · exact hkeep (h flow n hmem)
  | onFlowFinish =>
    rcases List.mem_cons.mp (List.mem_of_ne_of_mem FlowFrame.noConfusion hmem) with heq | hmem
    · cases heq
      exact hkeep (h _ _ List.mem_cons_self)
    · exact hkeep (h flow n (List.mem_cons_of_mem _ hmem))
  | start | event =>
    exact absurd (List.mem_of_ne_of_mem FlowFrame.noConfusion hmem) List.not_mem_nil
  | hold | test => exact absurd hmem List.not_mem_nil
  | create | addFlow | addDependency => exact hkeep (h flow n hmem)
  | callback => exact hkeep (h flow n (List.mem_of_ne_of_mem FlowFrame.noConfusion hmem))
  | wait =>
    exact hkeep (h flow n (List.mem_cons_of_mem _
      (List.mem_of_ne_of_mem FlowFrame.noConfusion hmem)))
  | run =>
    have hmem := List.mem_of_ne_of_mem FlowFrame.noConfusion hmem
    exact hkeep (h flow n (List.mem_cons_of_mem _
      (List.mem_of_ne_of_mem FlowFrame.noConfusion hmem)))
  | finish | leave | completed => exact hkeep (h flow n (List.mem_cons_of_mem _ hmem))

/-! ## Flows that have not been created -/

/-- Nothing is known of a flow that has not been created. -/
structure Fresh (s : FlowScheduler) (frames : List FlowFrame) : Prop where
  view : ∀ t, s.flows.length ≤ t → view s frames t = .fresh
  dependencies : ∀ t, s.flows.length ≤ t → s.dependencies t = []
  targets : ∀ d t, some t ∈ s.dependencies d → t < s.flows.length
  told : ∀ d targets, .onFlowFinish d targets ∈ frames → ∀ t, some t ∈ targets →
    t < s.flows.length

theorem Fresh.lt (h : Fresh s frames) (hne : FlowSimulation.view s frames t ≠ .fresh) :
    t < s.flows.length := by
  by_contra hge
  exact hne (h.view t (Nat.le_of_not_lt hge))

theorem mem_telling (hmem : frame ∈ frames) (hf : frame.owes = some t) :
    frame ∈ (view s frames t).telling := List.mem_filter.mpr ⟨hmem, by simpa using hf⟩

theorem Fresh.lt_of_owes (h : Fresh s frames) (hmem : frame ∈ frames) (hf : frame.owes = some t) :
    t < s.flows.length := by
  refine h.lt fun heq => ?_
  have hmem := mem_telling (s := s) hmem hf
  rw [heq] at hmem
  exact List.not_mem_nil hmem

theorem Fresh.lt_of_event {l l' : List (Int × ScheduledEvent)} (h : Fresh s frames)
    (he : s.events = l ++ (time, .start flow) :: l') : flow < s.flows.length := by
  refine h.lt fun heq => ?_
  have hpos : (FlowSimulation.view s frames flow).scheduled = _ := view_take_self he
  rw [heq] at hpos
  cases hpos

/-- A step concerns flows that have been created. -/
theorem Fresh.concerns (h : Fresh x.scheduler x.frames) (hs : Step x call y)
    (hc : Concerns x call t) :
    t < x.scheduler.flows.length := by
  cases hs with
  | start _ he =>
    obtain rfl : t = _ := hc
    exact h.lt_of_event he
  | hold _ he =>
    obtain rfl : t = _ := hc
    exact h.lt_of_event he
  | addFlow hlt =>
    obtain rfl : t = _ := hc
    exact hlt
  | addDependency hlt => exact hlt t hc
  | notifyComplete hcb =>
    obtain rfl : t = _ := hc
    refine h.lt fun heq => ?_
    exact absurd (congrArg FlowView.callbacks heq) (Nat.ne_of_gt hcb)
  | onFlowFinish =>
    obtain ⟨n, stack, heq⟩ := hc
    cases heq
    exact h.lt_of_owes List.mem_cons_self rfl
  | wait | run =>
    rcases hc with heq | ⟨targets, stack, heq⟩
    · cases heq
      exact h.told _ _ List.mem_cons_self t List.mem_cons_self
    · cases heq
      exact h.lt_of_owes List.mem_cons_self rfl
  | test | event | create | callback | finish | leave | completed => exact hc.elim

theorem Fresh.step (h : Fresh x.scheduler x.frames) (hs : Step x call y) :
    Fresh y.scheduler y.frames := by
  have hle : x.scheduler.flows.length ≤ y.scheduler.flows.length := hs.flows.length_le
  have htargets : ∀ d t, some t ∈ y.scheduler.dependencies d → t < x.scheduler.flows.length := by
    intro d t hmem
    by_cases hc : ∃ target, call = .addDependency target (some d)
    · obtain ⟨target, rfl⟩ := hc
      cases hs with
      | addDependency hlt _ hadd =>
        obtain ⟨e, heq, hd⟩ := addDependency_spec hadd
        rcases hd.mem.mp hmem with hmem | ⟨rfl, -⟩
        · exact h.targets d t hmem
        · exact hlt t rfl
    · rw [hs.dependencies fun target heq => hc ⟨target, heq⟩] at hmem
      exact h.targets d t hmem
  constructor
  case view =>
    intro t ht
    rw [hs.view_eq fun hc => Nat.not_lt_of_le (hle.trans ht) (h.concerns hs hc)]
    exact h.view t (hle.trans ht)
  case dependencies =>
    intro t ht
    rw [hs.dependencies, h.dependencies t (hle.trans ht)]
    rintro target rfl
    cases hs with
    | addDependency _ hd _ => exact Nat.not_lt_of_le (hle.trans ht) (hd t rfl).1
  case targets => exact fun d t hmem => Nat.lt_of_lt_of_le (htargets d t hmem) hle
  case told =>
    intro d targets hmem t ht
    refine Nat.lt_of_lt_of_le ?_ hle
    rcases hs.told hmem ht with hmem | ⟨targets', hmem, ht⟩
    · exact h.targets d t hmem
    · exact h.told d targets' hmem t ht

/-- No flow has been started before the first event. -/
theorem callbacks_construct {infos : List SerializedFlow} {s : FlowScheduler}
    (h : FlowScheduler.construct infos = some s) (t : Nat) :
    s.callbacks t = 0 ∧ s.completed t = false := by
  obtain ⟨s₁, hs₁, h⟩ := Option.bind_eq_some_iff.mp h
  cases h
  have hadd := FlowScheduler.added_foldl (FlowScheduler.created infos) {}
  have hdecl := FlowScheduler.declared_foldlM _ (fun flow => by rw [hadd.rest]) hs₁
  dsimp only
  rw [hdecl.rest, hadd.rest]
  exact ⟨rfl, rfl⟩

theorem Fresh.construct {infos : List SerializedFlow} {s : FlowScheduler}
    (h : FlowScheduler.construct infos = some s) : Fresh s [] := by
  have hzero := callbacks_construct h
  obtain ⟨hevents, -, -⟩ := FlowScheduler.tracked_construct h
  obtain ⟨s₁, hs₁, h⟩ := Option.bind_eq_some_iff.mp h
  cases h
  have hadd := FlowScheduler.added_foldl (FlowScheduler.created infos) {}
  have hdecl := FlowScheduler.declared_foldlM _ (fun flow => by rw [hadd.rest]) hs₁
  have hstarts : s₁.events = FlowScheduler.starts infos := (List.append_inj' hevents rfl).1
  have hlength : s₁.flows = FlowScheduler.created infos := by
    rw [hdecl.rest, hadd.flows]
    rfl
  have hcall : ∀ call ∈ FlowScheduler.dependencyCalls infos, (∀ t ∈ call.1, t < s₁.flows.length) ∧
      ∀ d ∈ call.2, d < s₁.flows.length := by
    intro call hmem
    obtain ⟨info, -, hcall⟩ := List.mem_flatMap.mp hmem
    obtain ⟨dep, -, rfl⟩ := List.mem_map.mp hcall
    rw [hlength]
    exact ⟨fun t => findFlow_lt, fun d => findFlow_lt⟩
  have hmem : ∀ d t, t ∈ s₁.dependencies d → (t, some d) ∈ FlowScheduler.dependencyCalls infos := by
    intro d t ht
    refine ((hdecl.mem_dependencies d t).mp ht).resolve_left fun hold => ?_
    rw [hadd.rest] at hold
    exact List.not_mem_nil hold
  constructor
  case view =>
    intro t ht
    have hcount : (FlowScheduler.dependencyCalls infos).countP (·.1 = some t) = 0 := by
      refine List.countP_eq_zero.mpr fun call hc heq => ?_
      exact Nat.not_lt_of_le ht ((hcall call hc).1 t (by simpa using heq))
    have hrem : s₁.remDependencies (some t) = 0 := by rw [hdecl.rem, hadd.rest, hcount]
    have hstart : startEvents (s₁.events ++ [(s₁.now + s₁.now, .checkForeground)]) t = 0 := by
      refine startEvents_eq_zero.mpr fun hsched => ?_
      rw [FlowScheduler.Scheduled, hstarts, List.map_append, List.mem_append] at hsched
      rcases hsched with hsched | hsched
      · exact Nat.not_lt_of_le ht (hlength ▸ FlowScheduler.scheduled_starts.mp hsched)
      · cases List.mem_singleton.mp hsched
    exact FlowView.ext (hzero t).1 (hzero t).2 hrem hstart rfl
  case dependencies =>
    intro t ht
    refine List.eq_nil_iff_forall_not_mem.mpr fun target hin => ?_
    exact Nat.not_lt_of_le ht ((hcall _ (hmem t target hin)).2 t rfl)
  case targets => exact fun d t hin => (hcall _ (hmem d _ hin)).1 t rfl
  case told => exact fun d targets hin => absurd hin List.not_mem_nil

end FlowSimulation
end Roce
