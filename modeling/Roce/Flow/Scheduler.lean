import Roce.Lib.Machine
import Mathlib.Data.List.Perm.Basic
import Mathlib.Logic.Function.Basic
import Mathlib.Order.Lattice
import Mathlib.Algebra.Order.Group.Int
import Mathlib.Tactic.Common

/-! # The flow scheduler

`FlowScheduler`: which flows of a list run when. A flow runs when its start time has come and all
flows that it depends on have completed. Flows are given by their place among the flows that were
created; a pointer to a flow may be null. -/

namespace Roce

open Function

/-- `SerializedFlow`, up to what creates the flow; times in nanoseconds. -/
structure SerializedFlow where
  id : String := ""
  dependencies : List String := []
  enable : Bool := false
  startTime : Int := 0
  inBackground : Bool := false
  deriving DecidableEq, Repr

abbrev FlowPtr := Option Nat

/-- The events that the scheduler schedules: the start time of a flow, and the test for a list
without foreground flows. -/
inductive ScheduledEvent where
  | start (flow : Nat)
  | checkForeground
  deriving DecidableEq, Repr

/-- The state of the simulation that the scheduler sees. Of the `m_on_complete` of a flow there is
the number of the scheduler's callbacks, only the flows of the list have `names`, and `calls` has
for each call of `m_on_all_completed` the flows that had completed. -/
structure FlowScheduler where
  now : Int := 0
  flows : List SerializedFlow := []
  names : Nat → Option String := fun _ => none
  callbacks : Nat → Nat := fun _ => 0
  completed : Nat → Bool := fun _ => false
  fgRunning : Nat := 0
  dependencies : Nat → List FlowPtr := fun _ => []
  remDependencies : FlowPtr → Nat := fun _ => 0
  completionTimes : String → Option Int := fun _ => none
  events : List (Int × ScheduledEvent) := []
  stopped : Bool := false
  calls : List (Nat → Bool) := []

namespace FlowScheduler

section
variable (s : FlowScheduler)

/-- The `m_info` of a flow; of one that was not created, an entry that counts for nothing. -/
def info (flow : Nat) : SerializedFlow := s.flows.getD flow { inBackground := true }

/-- `AddFlow` of a new flow. -/
def addFlow (info : SerializedFlow) : FlowScheduler :=
  { s with
    flows := s.flows ++ [info]
    events := s.events ++ [(s.now + max 0 (info.startTime - s.now), .start s.flows.length)] }

/-- `AddDependency`. It reads the dependency, which must not be null, but not the target. -/
def addDependency (target dependency : FlowPtr) : Option FlowScheduler := do
  let d ← dependency
  return { s with
    dependencies := update s.dependencies d ((s.dependencies d).insert target)
    remDependencies := if s.completed d then s.remDependencies else
      update s.remDependencies target (s.remDependencies target + 1) }

/-- The call of `m_on_all_completed`, which stops the simulation after the current event. -/
def onAllCompleted : FlowScheduler := { s with stopped := true, calls := s.calls ++ [s.completed] }

def checkForeground : FlowScheduler := if s.fgRunning = 0 then s.onAllCompleted else s

/-- `RunFlow`, up to `StartFlow`. -/
def runFlow (flow : Nat) : FlowScheduler :=
  { s with
    fgRunning := if (s.info flow).inBackground then s.fgRunning else s.fgRunning + 1
    callbacks := update s.callbacks flow (s.callbacks flow + 1) }

/-- `OnFlowFinish`, up to the loop over the flows that depend on the flow. -/
def finishFlow (flow : Nat) : Option FlowScheduler :=
  if !(s.info flow).inBackground && s.fgRunning = 0 then none
  else
    some { s with
      fgRunning := if (s.info flow).inBackground then s.fgRunning else s.fgRunning - 1
      completionTimes := match s.names flow with
        | some name => update s.completionTimes name (some s.now)
        | none => s.completionTimes }

/-- One dependency of the target is resolved. -/
def resolve (target : FlowPtr) : Option FlowScheduler :=
  if s.remDependencies target = 0 then none
  else
    some { s with
      remDependencies := update s.remDependencies target (s.remDependencies target - 1) }

end

section
variable (nested : Prop)

mutual

/-- `RunFlow`. -/
inductive RunFlow : FlowScheduler → Nat → FlowScheduler → Prop
  | mk {s s' : FlowScheduler} : Starting (s.runFlow flow) s' → RunFlow s flow s'

/-- What happens to the scheduler in `StartFlow`. The start of a flow makes the devices transmit,
and so flows may complete in it, if `nested` says that they may. -/
inductive Starting : FlowScheduler → FlowScheduler → Prop
  | done {s : FlowScheduler} : Starting s s
  | complete {s s' s'' : FlowScheduler} : nested → NotifyComplete s flow s' → Starting s' s'' →
    Starting s s''

/-- `NotifyComplete` of a flow that has been started. -/
inductive NotifyComplete : FlowScheduler → Nat → FlowScheduler → Prop
  | mk {s s' : FlowScheduler} : 0 < s.callbacks flow → s.completed flow = false →
    Callbacks flow (s.callbacks flow) { s with completed := update s.completed flow true } s' →
    NotifyComplete s flow s'

/-- The loop over the callbacks of a flow. -/
inductive Callbacks : Nat → Nat → FlowScheduler → FlowScheduler → Prop
  | nil {s : FlowScheduler} : Callbacks flow 0 s s
  | cons {s s' s'' : FlowScheduler} : OnFlowFinish s flow s' → Callbacks flow n s' s'' →
    Callbacks flow (n + 1) s s''

/-- `OnFlowFinish`. The set of the targets has any order. -/
inductive OnFlowFinish : FlowScheduler → Nat → FlowScheduler → Prop
  | mk {s s₁ s₂ : FlowScheduler} : s.finishFlow flow = some s₁ →
    targets.Perm (s₁.dependencies flow) → Resolve s₁ targets s₂ →
    OnFlowFinish s flow s₂.checkForeground

/-- The loop over the targets. A null target must not become ready. -/
inductive Resolve : FlowScheduler → List FlowPtr → FlowScheduler → Prop
  | nil {s : FlowScheduler} : Resolve s [] s
  | wait {s s₁ s' : FlowScheduler} : s.resolve target = some s₁ →
    (s₁.remDependencies target ≠ 0 ∨
      ∃ flow, target = some flow ∧ s₁.now < (s₁.info flow).startTime) →
    Resolve s₁ targets s' → Resolve s (target :: targets) s'
  | run {s s₁ s₂ s' : FlowScheduler} : s.resolve (some flow) = some s₁ →
    s₁.remDependencies (some flow) = 0 → (s₁.info flow).startTime ≤ s₁.now →
    RunFlow s₁ flow s₂ → Resolve s₂ targets s' → Resolve s (some flow :: targets) s'

end
end

/-! ## The list of flows -/

/-- The first loop of the constructor gives the enabled flows without an id one. -/
def assignIds : Nat → List SerializedFlow → List SerializedFlow
  | _, [] => []
  | nextId, info :: infos =>
    if info.enable && info.id.isEmpty then
      { info with id := "unassigned-id-" ++ toString nextId } :: assignIds (nextId + 1) infos
    else info :: assignIds nextId infos

/-- The flows that are created. -/
def created (infos : List SerializedFlow) : List SerializedFlow :=
  (assignIds 0 infos).filter (·.enable)

/-- `flows[id]`: the last flow that has the id, or null. -/
def findFlow (infos : List SerializedFlow) (id : String) : FlowPtr :=
  (created infos).zipIdx.foldl
    (fun ptr (info, flow) => if info.id = id then some flow else ptr) none

/-- The calls of `AddDependency`, target first. -/
def dependencyCalls (infos : List SerializedFlow) : List (FlowPtr × FlowPtr) :=
  (assignIds 0 infos).flatMap fun info =>
    info.dependencies.map fun dep => (findFlow infos info.id, findFlow infos dep)

/-- `FlowScheduler::FlowScheduler`. -/
def construct (infos : List SerializedFlow) : Option FlowScheduler := do
  let s : FlowScheduler := { (created infos).foldl addFlow {} with
    names := fun flow => (created infos)[flow]?.map (·.id) }
  let s ← (dependencyCalls infos).foldlM (fun s call => s.addDependency call.1 call.2) s
  return { s with events := s.events ++ [(s.now + s.now, .checkForeground)] }

end FlowScheduler

/-! ## Runs of the simulation -/

/-- An event of the scheduler, or the completion of a flow at some time. -/
inductive FlowEvent where
  | scheduled (event : ScheduledEvent)
  | complete (flow : Nat) (time : Int)

namespace FlowScheduler

/-- An event of the scheduler runs. -/
inductive Fire (nested : Prop) : FlowScheduler → ScheduledEvent → FlowScheduler → Prop
  | start {s s' : FlowScheduler} : s.remDependencies (some flow) = 0 → RunFlow nested s flow s' →
    Fire nested s (.start flow) s'
  | wait {s : FlowScheduler} : s.remDependencies (some flow) ≠ 0 → Fire nested s (.start flow) s
  | checkForeground {s : FlowScheduler} : Fire nested s .checkForeground s.checkForeground

/-- Events run by time and at the same time in the order in which they were scheduled. The events
of the scheduler are scheduled first, so a flow completes at a time after all of them. -/
inductive Step (nested : Prop) : FlowScheduler → FlowEvent → FlowScheduler → Prop
  | scheduled {s s' : FlowScheduler} : s.stopped = false → s.events = l ++ (time, event) :: l' →
    (∀ e ∈ l, time < e.1) → (∀ e ∈ l', time ≤ e.1) →
    Fire nested { s with now := time, events := l ++ l' } event s' →
    Step nested s (.scheduled event) s'
  | complete {s s' : FlowScheduler} : s.stopped = false → s.now ≤ time →
    (∀ e ∈ s.events, time < e.1) → NotifyComplete nested { s with now := time } flow s' →
    Step nested s (.complete flow time) s'

def machine (nested : Prop) (infos : List SerializedFlow) : Machine FlowScheduler FlowEvent :=
  ⟨fun s => construct infos = some s, Step nested⟩

end FlowScheduler
end Roce
