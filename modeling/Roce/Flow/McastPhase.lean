import Roce.Flow.CallStack
import Roce.Lib.OrdMap

/-! # The multicast phase

`AgFlowMcastPhase`: a flow that, when it is started, creates a multicast for each server of a group
and a wait after each multicast. The servers are cut into chains; the multicasts of a chain depend
on each other, and the phase completes when the last wait of every chain has. -/

namespace Roce

open Function

/-- A multicast of the phase, its source, and the wait after it; flows are given by their place. -/
structure PhaseMcast where
  mcastSrc : Nat
  multicast : Nat
  wait : Nat
  deriving DecidableEq, Repr

def PhaseMcast.flows (mcast : PhaseMcast) : List Nat := [mcast.multicast, mcast.wait]

/-- The phase, and its place among the flows. `starts` is the number of the calls of
`OnFlowStarted`, `notified` the number of the calls of `NotifyComplete`, and `calledBack` has the
waits that have called `OnChainComplete`. -/
structure AgFlowMcastPhase where
  flow : Nat
  chains : List (List PhaseMcast) := []
  numChains : Nat := 0
  completedChains : Nat := 0
  starts : Nat := 0
  calledBack : List Nat := []
  notified : Nat := 0

namespace AgFlowMcastPhase

/-- `BuildMulticastChains`: the sources of the multicasts of each chain. -/
def buildMulticastChains (servers : List Nat) (roots : Nat) : Option (List (List Nat)) :=
  if servers.length % roots ≠ 0 then none
  else
    let chainLength := servers.length / roots
    some <| (List.range roots).map fun chain =>
      (List.range chainLength).map fun i => servers.getD (chainLength * chain + i) 0

/-- A multicast and its wait are created. Their `m_info` is not set. -/
def addMcast (s : FlowScheduler) (previous : FlowPtr) (mcastSrc : Nat) :
    Option (FlowScheduler × PhaseMcast) := do
  let multicast := s.flows.length
  let s := s.addFlow {}
  let s ← (if previous.isSome then s.addDependency (some multicast) previous else some s)
  let wait := s.flows.length
  let s := s.addFlow {}
  let s ← s.addDependency (some wait) (some multicast)
  return (s, { mcastSrc, multicast, wait })

/-- The loop over a chain, and the call of `AddOnCompleteCallback` of its last wait. -/
def addChain (s : FlowScheduler) (previous : FlowPtr) : List Nat →
    Option (FlowScheduler × List PhaseMcast)
  | [] => if previous.isSome then some (s, []) else none
  | mcastSrc :: chain => do
    let (s, mcast) ← addMcast s previous mcastSrc
    let (s, mcasts) ← addChain s (some mcast.wait) chain
    return (s, mcast :: mcasts)

/-- The loop over the chains. -/
def addChains (s : FlowScheduler) : List (List Nat) →
    Option (FlowScheduler × List (List PhaseMcast))
  | [] => some (s, [])
  | chain :: order => do
    let (s, mcasts) ← addChain s none chain
    let (s, chains) ← addChains s order
    return (s, mcasts :: chains)

variable (phase : AgFlowMcastPhase)

def mcasts : List PhaseMcast := phase.chains.flatten

/-- The flows of each chain, in their order. -/
def lines : List (List Nat) := phase.chains.map (·.flatMap PhaseMcast.flows)

/-- The waits that call `OnChainComplete` when they complete. -/
def lastWaits : List Nat := phase.chains.filterMap fun chain => chain.getLast?.map (·.wait)

/-- The calls of others, which have no pointers to the flows of the phase and do not complete it. A
wait completes in an event that its start has scheduled, so after the events of `AddFlow`. -/
def Others (s : FlowScheduler) : FlowCall → Prop
  | .addFlow flow => flow ∉ phase.lines.flatten
  | .addDependency target dependency =>
    ∀ flow ∈ phase.lines.flatten, target ≠ some flow ∧ dependency ≠ some flow
  | .notifyComplete flow => flow ≠ phase.flow ∧ ((∃ mcast ∈ phase.mcasts, mcast.wait = flow) →
      ∀ flow' ∈ phase.lines.flatten, (s.now, .start flow') ∉ s.events)
  | _ => True

end AgFlowMcastPhase

/-- The simulation with a multicast phase. -/
structure PhaseSimulation where
  sim : FlowSimulation
  phase : AgFlowMcastPhase

inductive PhaseCall where
  | sim (call : FlowCall)
  | onFlowStarted
  | onChainComplete

namespace PhaseSimulation

/-- `StartFlow` of the phase calls `OnFlowStarted` first of all. The callbacks of the last wait of a
chain are `OnChainComplete` and then that of the scheduler. -/
inductive Step (group : OrdMap Nat Unit) (roots : Nat) :
    PhaseSimulation → PhaseCall → PhaseSimulation → Prop
  | sim {x y : FlowSimulation} {phase : AgFlowMcastPhase} :
    phase.starts = x.scheduler.callbacks phase.flow → phase.Others x.scheduler call →
    (∀ wait n stack, x.frames = .notifyComplete wait n :: stack → wait ∈ phase.lastWaits →
      wait ∈ phase.calledBack) →
    FlowSimulation.Step x call y → Step group roots ⟨x, phase⟩ (.sim call) ⟨y, phase⟩
  | onFlowStarted {s s' : FlowScheduler} {phase : AgFlowMcastPhase} :
    phase.starts < s.callbacks phase.flow →
    AgFlowMcastPhase.buildMulticastChains group.keys roots = some order →
    AgFlowMcastPhase.addChains s order = some (s', chains) →
    Step group roots ⟨⟨s, added, .outside :: stack⟩, phase⟩ .onFlowStarted
      ⟨⟨s', (chains.flatten.flatMap PhaseMcast.flows).reverse ++ added, .outside :: stack⟩,
        { phase with
          starts := phase.starts + 1, chains := phase.chains ++ chains, numChains := order.length }⟩
  | onChainComplete {s : FlowScheduler} {phase : AgFlowMcastPhase} :
    wait ∈ phase.lastWaits → wait ∉ phase.calledBack → phase.completedChains + 1 < phase.numChains →
    Step group roots ⟨⟨s, added, .notifyComplete wait n :: stack⟩, phase⟩ .onChainComplete
      ⟨⟨s, added, .notifyComplete wait n :: stack⟩,
        { phase with
          completedChains := phase.completedChains + 1, calledBack := wait :: phase.calledBack }⟩
  | notifyComplete {s : FlowScheduler} {phase : AgFlowMcastPhase} :
    wait ∈ phase.lastWaits → wait ∉ phase.calledBack → phase.completedChains + 1 = phase.numChains →
    s.completed phase.flow = false →
    Step group roots ⟨⟨s, added, .notifyComplete wait n :: stack⟩, phase⟩ .onChainComplete
      ⟨⟨{ s with completed := update s.completed phase.flow true }, added,
          .notifyComplete phase.flow (s.callbacks phase.flow) :: .outside ::
            .notifyComplete wait n :: stack⟩,
        { phase with
          completedChains := phase.completedChains + 1, calledBack := wait :: phase.calledBack
          notified := phase.notified + 1 }⟩

/-- A list of flows, of which one is a multicast phase. -/
def machine (infos : List SerializedFlow) (flow : Nat) (group : OrdMap Nat Unit) (roots : Nat) :
    Machine PhaseSimulation PhaseCall where
  init x := (FlowSimulation.machine infos).init x.sim ∧ x.phase = { flow } ∧
    flow < x.sim.scheduler.flows.length
  step := Step group roots

/-- `StartFlow` is called once for the phase, and no multicast completes before the scheduler has
run the event that `AddFlow` scheduled for its wait. -/
def StartsInTurn (x : PhaseSimulation) : PhaseCall → Prop
  | .onFlowStarted => x.phase.starts = 0
  | .sim (.notifyComplete flow) => ∀ mcast ∈ x.phase.mcasts, mcast.multicast = flow →
    ¬FlowScheduler.Scheduled x.sim.scheduler.events mcast.wait
  | _ => True

/-- The flow has been started, and has not completed. -/
def Running (x : PhaseSimulation) (flow : Nat) : Prop :=
  0 < x.sim.scheduler.callbacks flow ∧ x.sim.scheduler.completed flow = false

/-- What the multicast phase is for. The multicasts have the servers as sources, each server once.
A chain has one flow at most that runs, and none is skipped; the phase completes once, after all its
flows. Between two events, a chain that has not completed has a flow that runs, or is going to at
once. No assertion fails: what the scheduler does for the flows of the phase can go on. -/
structure RunsInChains (group : OrdMap Nat Unit) (roots : Nat) (x : PhaseSimulation) : Prop where
  sources : 0 < x.phase.starts → x.phase.mcasts.map (·.mcastSrc) = group.keys
  chainCount : 0 < x.phase.starts → x.phase.chains.length = roots
  distinct : x.phase.lines.flatten.Nodup
  once : ∀ flow ∈ x.phase.lines.flatten, x.sim.scheduler.callbacks flow ≤ 1
  order : ∀ chain ∈ x.phase.chains, chain.Pairwise fun mcast next =>
    0 < x.sim.scheduler.callbacks next.multicast →
      x.sim.scheduler.completed mcast.multicast = true ∧ x.sim.scheduler.completed mcast.wait = true
  waits : ∀ mcast ∈ x.phase.mcasts, 0 < x.sim.scheduler.callbacks mcast.wait →
    x.sim.scheduler.completed mcast.multicast = true
  single : ∀ line ∈ x.phase.lines, ∀ flow ∈ line, ∀ flow' ∈ line,
    x.Running flow → x.Running flow' → flow = flow'
  notified : x.phase.notified ≤ 1
  after : 0 < x.phase.notified → 0 < x.phase.starts ∧
    ∀ flow ∈ x.phase.lines.flatten, x.sim.scheduler.completed flow = true
  notifies : x.sim.frames = [] → 0 < x.phase.starts →
    (∀ flow ∈ x.phase.lines.flatten, x.sim.scheduler.completed flow = true) → x.phase.notified = 1
  runs : x.sim.frames = [] → ∀ line ∈ x.phase.lines,
    (∃ flow ∈ line, x.sim.scheduler.completed flow = false) → ∃ flow ∈ line,
      x.Running flow ∨ (x.sim.scheduler.now, .start flow) ∈ x.sim.scheduler.events
  ends : ∀ frame stack, x.sim.frames = frame :: stack →
    (∀ flow targets, frame = .onFlowFinish flow targets → flow ∈ x.phase.lines.flatten) →
    ∃ call y, Step group roots x call y

end PhaseSimulation
end Roce
