import Roce.Flow.EndOfRun

/-! # Flows that are added while the simulation runs

A flow that has been started may create other flows and declare dependencies, and a flow may
complete in the callback of another one. What of the scheduler has been entered and not left is a
stack of frames, and each step is one of the innermost frame. -/

namespace Roce

open Function

/-- `AddFlow`. -/
def FlowScheduler.schedule (s : FlowScheduler) (flow : Nat) : FlowScheduler :=
  { s with
    events := s.events ++ [(s.now + max 0 ((s.info flow).startTime - s.now), .start flow)] }

theorem FlowScheduler.addFlow_eq (s : FlowScheduler) (info : SerializedFlow) :
    s.addFlow info = schedule { s with flows := s.flows ++ [info] } s.flows.length := by
  simp [addFlow, schedule, FlowScheduler.info]

/-- A frame of the call stack. -/
inductive FlowFrame where
  /-- Code outside of the scheduler: an event of the simulation, `StartFlow` of a flow, or a
  callback of a flow that is not the scheduler's. -/
  | outside
  /-- The loop of `NotifyComplete`, with the number of the scheduler's callbacks that are left. -/
  | notifyComplete (flow callbacks : Nat)
  /-- The loop of `OnFlowFinish`, with the targets that are left. -/
  | onFlowFinish (flow : Nat) (targets : List FlowPtr)
  deriving DecidableEq, Repr

/-- The simulation inside of an event; `addedFlows` are those that `AddFlow` was called for. -/
structure FlowSimulation where
  scheduler : FlowScheduler
  addedFlows : List Nat
  frames : List FlowFrame

/-- What the simulation does next. -/
inductive FlowCall where
  | scheduled (event : ScheduledEvent)
  | event (time : Int)
  | create (info : SerializedFlow)
  | addFlow (flow : Nat)
  | addDependency (target dependency : FlowPtr)
  | notifyComplete (flow : Nat)
  | callback
  | onFlowFinish
  | tell (target : FlowPtr)
  | checkForeground
  | leave

namespace FlowSimulation

/-- Between two events the stack is empty. The events of the scheduler run by time and at the same
time in the order in which they were scheduled; the other events of the simulation may be scheduled
before or after them. The targets of a completion are told in any order, but their set must not
change meanwhile, and a null target must not become ready. -/
inductive Step : FlowSimulation → FlowCall → FlowSimulation → Prop
  | start {s : FlowScheduler} : s.stopped = false → s.events = l ++ (time, .start flow) :: l' →
    (∀ e ∈ l, time < e.1) → (∀ e ∈ l', time ≤ e.1) → s.remDependencies (some flow) = 0 →
    Step ⟨s, added, []⟩ (.scheduled (.start flow))
      ⟨FlowScheduler.runFlow { s with now := time, events := l ++ l' } flow, added, [.outside]⟩
  | hold {s : FlowScheduler} : s.stopped = false → s.events = l ++ (time, .start flow) :: l' →
    (∀ e ∈ l, time < e.1) → (∀ e ∈ l', time ≤ e.1) → s.remDependencies (some flow) ≠ 0 →
    Step ⟨s, added, []⟩ (.scheduled (.start flow))
      ⟨{ s with now := time, events := l ++ l' }, added, []⟩
  | test {s : FlowScheduler} : s.stopped = false → s.events = l ++ (time, .checkForeground) :: l' →
    (∀ e ∈ l, time < e.1) → (∀ e ∈ l', time ≤ e.1) →
    Step ⟨s, added, []⟩ (.scheduled .checkForeground)
      ⟨FlowScheduler.checkForeground { s with now := time, events := l ++ l' }, added, []⟩
  | event {s : FlowScheduler} : s.stopped = false → s.now ≤ time → (∀ e ∈ s.events, time ≤ e.1) →
    Step ⟨s, added, []⟩ (.event time) ⟨{ s with now := time }, added, [.outside]⟩
  | create {s : FlowScheduler} : Step ⟨s, added, .outside :: stack⟩ (.create info)
      ⟨{ s with flows := s.flows ++ [info] }, added, .outside :: stack⟩
  | addFlow {s : FlowScheduler} : flow < s.flows.length →
    Step ⟨s, added, .outside :: stack⟩ (.addFlow flow)
      ⟨s.schedule flow, flow :: added, .outside :: stack⟩
  | addDependency {s s' : FlowScheduler} : (∀ flow ∈ target, flow < s.flows.length) →
    (∀ d ∈ dependency, d < s.flows.length ∧
      (target ∈ s.dependencies d ∨ ∀ targets, .onFlowFinish d targets ∉ stack)) →
    s.addDependency target dependency = some s' →
    Step ⟨s, added, .outside :: stack⟩ (.addDependency target dependency)
      ⟨s', added, .outside :: stack⟩
  | notifyComplete {s : FlowScheduler} : 0 < s.callbacks flow → s.completed flow = false →
    Step ⟨s, added, .outside :: stack⟩ (.notifyComplete flow)
      ⟨{ s with completed := update s.completed flow true }, added,
        .notifyComplete flow (s.callbacks flow) :: .outside :: stack⟩
  | callback {s : FlowScheduler} : Step ⟨s, added, .notifyComplete flow n :: stack⟩ .callback
      ⟨s, added, .outside :: .notifyComplete flow n :: stack⟩
  | onFlowFinish {s s' : FlowScheduler} : s.finishFlow flow = some s' →
    targets.Perm (s'.dependencies flow) →
    Step ⟨s, added, .notifyComplete flow (n + 1) :: stack⟩ .onFlowFinish
      ⟨s', added, .onFlowFinish flow targets :: .notifyComplete flow n :: stack⟩
  | wait {s s' : FlowScheduler} : s.resolve target = some s' →
    (s'.remDependencies target ≠ 0 ∨
      ∃ flow, target = some flow ∧ s'.now < (s'.info flow).startTime) →
    Step ⟨s, added, .onFlowFinish source (target :: targets) :: stack⟩ (.tell target)
      ⟨s', added, .onFlowFinish source targets :: stack⟩
  | run {s s' : FlowScheduler} : s.resolve (some flow) = some s' →
    s'.remDependencies (some flow) = 0 → (s'.info flow).startTime ≤ s'.now →
    Step ⟨s, added, .onFlowFinish source (some flow :: targets) :: stack⟩ (.tell (some flow))
      ⟨s'.runFlow flow, added, .outside :: .onFlowFinish source targets :: stack⟩
  | finish {s : FlowScheduler} : Step ⟨s, added, .onFlowFinish flow [] :: stack⟩ .checkForeground
      ⟨s.checkForeground, added, stack⟩
  | leave {s : FlowScheduler} : Step ⟨s, added, .outside :: stack⟩ .leave ⟨s, added, stack⟩
  | completed {s : FlowScheduler} : Step ⟨s, added, .notifyComplete flow 0 :: stack⟩ .leave
      ⟨s, added, stack⟩

/-- The simulation of a list of flows. -/
def machine (infos : List SerializedFlow) : Machine FlowSimulation FlowCall where
  init x := ∃ s, FlowScheduler.construct infos = some s ∧
    x = ⟨s, List.range s.flows.length, []⟩
  step := Step

/-- `RunFlow` has been called for the flows that it should have been called for: once at most, from
the start time on, after all dependencies, and in the event that makes the last of these true,
where only at this very instant the event of `AddFlow` may still have to run. A function that has
been entered is also left, so the event ends. -/
structure RunsWhenDue (x : FlowSimulation) : Prop where
  once : ∀ flow, x.scheduler.callbacks flow ≤ 1
  started : ∀ flow, 0 < x.scheduler.callbacks flow →
    (x.scheduler.info flow).startTime ≤ x.scheduler.now
  resolved : ∀ flow d, 0 < x.scheduler.callbacks flow →
    some flow ∈ x.scheduler.dependencies d → x.scheduler.completed d = true
  due : x.frames = [] → ∀ flow ∈ x.addedFlows,
    (∀ d, some flow ∈ x.scheduler.dependencies d → x.scheduler.completed d = true) →
    x.scheduler.callbacks flow = 1 ∨ ∃ time, (time, .start flow) ∈ x.scheduler.events ∧
      x.scheduler.now ≤ time ∧ time ≤ max (x.scheduler.info flow).startTime x.scheduler.now
  ends : x.frames ≠ [] → ∃ call y, Step x call y

end FlowSimulation
end Roce
