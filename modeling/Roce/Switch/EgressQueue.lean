import Roce.Lib.Word
import Roce.Switch.Mmu

/-! # The queues of a port

`BEgressQueue`: the packets that wait at a port, in one queue for each priority. The queue 0 goes
first, and the others take turns unless they are paused. -/

namespace Roce

open Function

/-- What a PFC frame says: `time` is 0 to resume. -/
structure PauseHeader where
  time : Nat
  qIndex : Priority
  deriving DecidableEq, Repr

/-- A packet in a switch. It is known by its pointer. The tags are the port it came from, which
a PFC frame of the switch does not have, and whether it is multicast. -/
structure SwitchPacket where
  ptr : Nat
  size : Nat
  flowId : Option Port := none
  multicast : Bool := false
  pfc : Option PauseHeader := none
  deriving DecidableEq, Repr

structure BEgressQueue where
  maxSize : Nat := 1000 * 1024 * 1024
  queues : Priority → List SwitchPacket := fun _ => []
  bytesInQueue : Priority → Nat := fun _ => 0
  bytesInQueueTotal : Nat := 0
  nBytes : Nat := 0
  nPackets : Nat := 0
  rrlast : Priority := 0
  qlast : Priority := 0

namespace BEgressQueue

variable (queue : BEgressQueue)

/-- `Enqueue`. Nothing if there is no room. -/
def enqueue (p : SwitchPacket) (qIndex : Priority) : Option BEgressQueue :=
  if u32 (queue.bytesInQueueTotal + p.size) < queue.maxSize then
    some { queue with
      queues := update queue.queues qIndex (queue.queues qIndex ++ [p])
      bytesInQueue := update queue.bytesInQueue qIndex (u32 (queue.bytesInQueue qIndex + p.size))
      bytesInQueueTotal := u32 (queue.bytesInQueueTotal + p.size)
      nBytes := u32 (queue.nBytes + p.size)
      nPackets := u32 (queue.nPackets + 1) }
  else none

/-- The queue that has its turn. -/
def roundRobin (paused : Priority → Bool) : Option Priority :=
  ((List.range' 1 8).map fun i => Fin.ofNat 8 (i + queue.rrlast)).find? fun qIndex =>
    !paused qIndex && !(queue.queues qIndex).isEmpty

/-- The queue that `DequeueRR` serves. -/
def nextQueue (paused : Priority → Bool) : Option Priority :=
  if queue.bytesInQueueTotal = 0 then none
  else if !(queue.queues 0).isEmpty then some 0
  else queue.roundRobin paused

/-- `DequeueRR`. -/
def dequeueRR (paused : Priority → Bool) : Option (SwitchPacket × BEgressQueue) := do
  let qIndex ← queue.nextQueue paused
  let p ← (queue.queues qIndex).head?
  return (p, { queue with
    queues := update queue.queues qIndex (queue.queues qIndex).tail
    bytesInQueue := update queue.bytesInQueue qIndex (sub32 (queue.bytesInQueue qIndex) p.size)
    bytesInQueueTotal := sub32 queue.bytesInQueueTotal p.size
    nBytes := sub32 queue.nBytes p.size
    nPackets := sub32 queue.nPackets 1
    rrlast := if qIndex = 0 then queue.rrlast else qIndex
    qlast := qIndex })

/-- The packet that leaves is the first of its queue. -/
theorem dequeueRR_spec {queue queue' : BEgressQueue}
    (h : queue.dequeueRR paused = some (p, queue')) :
    queue.queues queue'.qlast = p :: queue'.queues queue'.qlast ∧
      queue'.queues = update queue.queues queue'.qlast (queue'.queues queue'.qlast) := by
  obtain ⟨qIndex, -, h⟩ := Option.bind_eq_some_iff.mp h
  obtain ⟨p', hp, h⟩ := Option.bind_eq_some_iff.mp h
  cases h
  dsimp only
  rw [update_self]
  exact ⟨List.eq_cons_of_mem_head? hp, rfl⟩

/-- The queue 0 goes first, whoever has the turn. -/
theorem nextQueue_cases {queue : BEgressQueue} (h : queue.nextQueue paused = some qIndex) :
    (queue.queues 0 ≠ [] ∧ qIndex = 0) ∨
      (queue.queues 0 = [] ∧ queue.roundRobin paused = some qIndex) := by
  unfold nextQueue at h
  split at h
  next => cases h
  next =>
    split at h
    next hzero => exact .inl ⟨by simpa using hzero, (Option.some.inj h).symm⟩
    next hzero => exact .inr ⟨by simpa using hzero, h⟩

theorem nextQueue_of_dequeueRR {queue queue' : BEgressQueue}
    (h : queue.dequeueRR paused = some (p, queue')) : queue.nextQueue paused = some queue'.qlast ∧
      queue'.rrlast = if queue'.qlast = 0 then queue.rrlast else queue'.qlast := by
  obtain ⟨qIndex, hnext, h⟩ := Option.bind_eq_some_iff.mp h
  obtain ⟨p', -, h⟩ := Option.bind_eq_some_iff.mp h
  cases h
  exact ⟨hnext, rfl⟩

theorem qlast_of_urgent {queue queue' : BEgressQueue}
    (h : queue.dequeueRR paused = some (p, queue')) (hzero : queue.queues 0 ≠ []) :
    queue'.qlast = 0 := by
  obtain ⟨-, hq⟩ | ⟨hnil, -⟩ := nextQueue_cases (nextQueue_of_dequeueRR h).1
  · exact hq
  · exact absurd hnil hzero

/-- A packet that is accepted is the last of its queue. -/
theorem enqueue_spec {queue queue' : BEgressQueue} (h : queue.enqueue p qIndex = some queue') :
    queue'.queues = update queue.queues qIndex (queue.queues qIndex ++ [p]) := by
  unfold enqueue at h
  split at h
  · cases h
    rfl
  · cases h

end BEgressQueue
end Roce
