import Roce.Lib.Machine
import Roce.Lib.RoundRobin
import Roce.Lib.Tally
import Roce.Switch.EgressQueue

/-! # The service of a port

Runs of `Enqueue` and `DequeueRR`: the counters of a `BEgressQueue` are those of its packets, every
packet that is accepted leaves once and in its order, and no queue waits for long. -/

namespace Roce

open Function

/-- `SetMaxSize`, in bytes. -/
def BEgressQueue.setMaxSize (size : Nat) (queue : BEgressQueue) : Option BEgressQueue :=
  if size = 0 then some queue
  else if size < queue.nBytes then none
  else some { queue with maxSize := size }

/-- A queue, and what was accepted and what has left so far. -/
structure EgressService where
  queue : BEgressQueue := {}
  accepted : Priority → List SwitchPacket := fun _ => []
  departed : Priority → List SwitchPacket := fun _ => []

inductive EgressEvent where
  | enqueue (p : SwitchPacket) (qIndex : Priority)
  | dequeueRR (paused : Priority → Bool)

namespace EgressService

/-- A packet has at least one byte, and the counters have room for it. -/
def Fits (x : EgressService) (p : SwitchPacket) : Prop := 0 < p.size ∧
    x.queue.maxSize + p.size < 2 ^ 32

inductive Step : EgressService → EgressEvent → EgressService → Prop
  | accept {x : EgressService} {queue : BEgressQueue} : x.Fits p →
    x.queue.enqueue p qIndex = some queue → Step x (.enqueue p qIndex)
      { x with queue, accepted := update x.accepted qIndex (x.accepted qIndex ++ [p]) }
  | refuse {x : EgressService} : x.Fits p → x.queue.enqueue p qIndex = none →
    Step x (.enqueue p qIndex) x
  | depart {x : EgressService} {queue : BEgressQueue} : x.queue.dequeueRR paused = some (p, queue) →
    Step x (.dequeueRR paused)
      { x with queue, departed := update x.departed queue.qlast (x.departed queue.qlast ++ [p]) }
  | nothing {x : EgressService} : x.queue.dequeueRR paused = none → Step x (.dequeueRR paused) x

/-- A new queue, of any size. -/
def Initial (x : EgressService) : Prop :=
  ∃ size queue, ({} : BEgressQueue).setMaxSize size = some queue ∧ x = { queue }

def machine : Machine EgressService EgressEvent := ⟨Initial, Step⟩

end EgressService

/-! ## The counters -/

namespace BEgressQueue

variable {queue queue' : BEgressQueue}

/-- The bytes of a list of packets. -/
def bytes (packets : List SwitchPacket) : Nat := (packets.map (·.size)).sum

theorem bytes_concat (l : List SwitchPacket) (p : SwitchPacket) :
    bytes (l ++ [p]) = bytes l + p.size := by
  rw [bytes, List.map_append, List.sum_append]
  rfl

theorem bytes_cons (p : SwitchPacket) (l : List SwitchPacket) : bytes
    (p :: l) = p.size + bytes l := by
  rw [bytes, List.map_cons, List.sum_cons]
  rfl

theorem length_le_bytes {l : List SwitchPacket} (h : ∀ p ∈ l, 0 < p.size) : l.length ≤ bytes l := by
  induction l with
  | nil => exact Nat.le_refl _
  | cons p l ih =>
    have hp := h p List.mem_cons_self
    have hl := ih fun p' hp' => h p' (List.mem_cons_of_mem _ hp')
    rw [bytes_cons, List.length_cons]
    omega

/-- The bytes and the packets of all queues. -/
def totalBytes (queue : BEgressQueue) : Nat := ∑ qIndex, bytes (queue.queues qIndex)

def totalPackets (queue : BEgressQueue) : Nat := ∑ qIndex, (queue.queues qIndex).length

/-- The counters are those of the contents. -/
structure Counted (queue : BEgressQueue) : Prop where
  size : ∀ qIndex, ∀ p ∈ queue.queues qIndex, 0 < p.size
  bytesInQueue : ∀ qIndex, queue.bytesInQueue qIndex = bytes (queue.queues qIndex)
  bytesInQueueTotal : queue.bytesInQueueTotal = queue.totalBytes
  nBytes : queue.nBytes = queue.totalBytes
  nPackets : queue.nPackets = queue.totalPackets
  lt_maxSize : queue.totalBytes < queue.maxSize
  lt_word : queue.totalBytes < 2 ^ 32

theorem Counted.totalPackets_le (h : Counted queue) : queue.totalPackets ≤ queue.totalBytes :=
  Finset.sum_le_sum fun qIndex _ => length_le_bytes (h.size qIndex)

theorem bytes_le (queue : BEgressQueue) (qIndex : Priority) :
    bytes (queue.queues qIndex) ≤ queue.totalBytes :=
  le_sum (fun qIndex => bytes (queue.queues qIndex)) qIndex

theorem counted_setMaxSize (h : ({} : BEgressQueue).setMaxSize size = some queue) :
    Counted queue := by
  have hempty : ∀ maxSize, 0 < maxSize → Counted { maxSize } := by
    intro maxSize hpos
    have hzero : ({ maxSize } : BEgressQueue).totalBytes = 0 := Finset.sum_const_zero
    refine ⟨fun qIndex p hp => absurd hp List.not_mem_nil, fun _ => rfl, hzero.symm, hzero.symm,
      Finset.sum_const_zero.symm, hzero ▸ hpos, hzero ▸ Nat.two_pow_pos 32⟩
  unfold setMaxSize at h
  split at h
  next =>
    cases h
    exact hempty _ (by decide)
  next hsize =>
    split at h
    next => cases h
    next =>
      cases h
      exact hempty size (Nat.pos_of_ne_zero hsize)

/-- The sums over the queues, of which one changes. -/
theorem totalBytes_change {xs : List SwitchPacket}
    (hq : queue'.queues = update queue.queues qIndex xs) :
    queue'.totalBytes + bytes (queue.queues qIndex) = queue.totalBytes + bytes xs := by
  have hframe : ∀ q, q ≠ qIndex → bytes (queue'.queues q) = bytes (queue.queues q) :=
    fun q hne => by
    rw [hq, update_of_ne hne]
  have hsum := sum_of_frame qIndex hframe
  rw [hq, update_self] at hsum
  rw [totalBytes, hq]
  exact hsum

theorem totalPackets_change {xs : List SwitchPacket}
    (hq : queue'.queues = update queue.queues qIndex xs) :
    queue'.totalPackets + (queue.queues qIndex).length = queue.totalPackets + xs.length := by
  have hframe : ∀ q, q ≠ qIndex → (queue'.queues q).length = (queue.queues q).length :=
    fun q hne => by
    rw [hq, update_of_ne hne]
  have hsum := sum_of_frame qIndex hframe
  rw [hq, update_self] at hsum
  rw [totalPackets, hq]
  exact hsum

/-- One queue changes, and the counters follow. -/
theorem Counted.change {xs : List SwitchPacket} (h : Counted queue)
    (hq : queue'.queues = update queue.queues qIndex xs) (hsize : ∀ p ∈ xs, 0 < p.size)
    (hbytes : queue'.bytesInQueue = update queue.bytesInQueue qIndex (bytes xs))
    (htotal : queue'.bytesInQueueTotal = queue'.totalBytes)
    (hnBytes : queue'.nBytes = queue'.totalBytes)
    (hnPackets : queue'.nPackets = queue'.totalPackets) (hmax : queue'.totalBytes < queue'.maxSize)
    (hword : queue'.totalBytes < 2 ^ 32) : Counted queue' := by
  refine ⟨fun q p hp => ?_, fun q => ?_, htotal, hnBytes, hnPackets, hmax, hword⟩
  · rw [hq] at hp
    by_cases hne : q = qIndex
    · rw [hne, update_self] at hp
      exact hsize p hp
    · rw [update_of_ne hne] at hp
      exact h.size q p hp
  · rw [hq, hbytes]
    by_cases hne : q = qIndex
    · rw [hne, update_self, update_self]
    · rw [update_of_ne hne, update_of_ne hne]
      exact h.bytesInQueue q

theorem Counted.enqueue (h : Counted queue) (hpos : 0 < p.size)
    (hfits : queue.maxSize + p.size < 2 ^ 32)
    (hs : queue.enqueue p qIndex = some queue') : Counted queue' := by
  have hlt := h.lt_maxSize
  have hle := bytes_le queue qIndex
  have hpackets := h.totalPackets_le
  have hq := enqueue_spec hs
  have hbytes : queue.totalBytes + p.size = queue'.totalBytes := by
    have := totalBytes_change hq
    rw [bytes_concat] at this
    omega
  have hnum : queue.totalPackets + 1 = queue'.totalPackets := by
    have := totalPackets_change hq
    rw [List.length_append, List.length_singleton] at this
    omega
  -- nothing wraps around
  have hself : u32 (queue.bytesInQueue qIndex + p.size) = bytes (queue.queues qIndex ++ [p]) := by
    rw [bytes_concat, h.bytesInQueue, u32_of_lt (by omega)]
  have htotal : u32 (queue.bytesInQueueTotal + p.size) = queue.totalBytes + p.size := by
    rw [h.bytesInQueueTotal, u32_of_lt (by omega)]
  have hnBytes : u32 (queue.nBytes + p.size) = queue.totalBytes + p.size := by
    rw [h.nBytes, u32_of_lt (by omega)]
  have hnPackets : u32 (queue.nPackets + 1) = queue.totalPackets + 1 := by
    rw [h.nPackets, u32_of_lt (by omega)]
  unfold BEgressQueue.enqueue at hs
  split at hs
  next hroom =>
    rw [htotal] at hroom
    cases hs
    refine h.change hq (fun p' hp' => ?_) (congrArg (update queue.bytesInQueue qIndex) hself)
      (htotal.trans hbytes) (hnBytes.trans hbytes) (hnPackets.trans hnum) (hbytes ▸ hroom)
      (by omega)
    rcases List.mem_append.mp hp' with hp' | hp'
    · exact h.size qIndex p' hp'
    · exact List.mem_singleton.mp hp' ▸ hpos
  next => cases hs

/-- The counters are not below what leaves: the assertions of `DequeueRR` hold. -/
theorem Counted.asserted (h : Counted queue) (hs : queue.dequeueRR paused = some (p, queue')) :
    p.size ≤ queue.nBytes ∧ 0 < queue.nPackets := by
  have hhead := (dequeueRR_spec hs).1
  have hle := bytes_le queue queue'.qlast
  have hlen : (queue.queues queue'.qlast).length ≤ queue.totalPackets :=
    le_sum (fun q => (queue.queues q).length) queue'.qlast
  rw [hhead, bytes_cons] at hle
  rw [hhead, List.length_cons] at hlen
  rw [h.nBytes, h.nPackets]
  omega

theorem Counted.dequeueRR (h : Counted queue) (hs : queue.dequeueRR paused = some (p, queue')) :
    Counted queue' := by
  obtain ⟨hsize, hpos⟩ := h.asserted hs
  have hlt := h.lt_maxSize
  have hword := h.lt_word
  have hpackets := h.totalPackets_le
  obtain ⟨hhead, hq⟩ := dequeueRR_spec hs
  have hle := bytes_le queue queue'.qlast
  have hbefore := h.bytesInQueue queue'.qlast
  have hbytes : queue.totalBytes - p.size = queue'.totalBytes := by
    have := totalBytes_change hq
    rw [hhead, bytes_cons] at this
    omega
  have hnum : queue.totalPackets - 1 = queue'.totalPackets := by
    have := totalPackets_change hq
    rw [hhead, List.length_cons] at this
    omega
  rw [hhead, bytes_cons] at hle hbefore
  have hself : sub32 (queue.bytesInQueue queue'.qlast) p.size =
    bytes (queue'.queues queue'.qlast) := by
    rw [hbefore, sub32_of_le (by omega) (by omega), Nat.add_sub_cancel_left]
  have htotal : sub32 queue.bytesInQueueTotal p.size = queue.totalBytes - p.size := by
    rw [h.bytesInQueueTotal, sub32_of_le (by omega) hword]
  have hnBytes : sub32 queue.nBytes p.size = queue.totalBytes - p.size := by
    rw [h.nBytes, sub32_of_le (by omega) hword]
  have hnPackets : sub32 queue.nPackets 1 = queue.totalPackets - 1 := by
    rw [h.nPackets] at hpos ⊢
    rw [sub32_of_le hpos (by omega)]
  obtain ⟨qIndex, -, hs⟩ := Option.bind_eq_some_iff.mp hs
  obtain ⟨p', -, hs⟩ := Option.bind_eq_some_iff.mp hs
  cases hs
  refine h.change hq (fun p' hp' => ?_) (congrArg (update queue.bytesInQueue qIndex) hself)
    (htotal.trans hbytes) (hnBytes.trans hbytes) (hnPackets.trans hnum) ?_ (by omega)
  · exact h.size qIndex p' (hhead ▸ List.mem_cons_of_mem _ hp')
  · rw [← hbytes]
    exact (Nat.sub_le ..).trans_lt hlt

/-! ## Turns -/

/-- Some packet may leave. -/
theorem Counted.dequeueRR_isSome (h : Counted queue) (paused : Priority → Bool) :
    (queue.dequeueRR paused).isSome ↔
      queue.queues 0 ≠ [] ∨ ∃ qIndex, queue.queues qIndex ≠ [] ∧ paused qIndex = false := by
  have hdequeue : (queue.dequeueRR paused).isSome = (queue.nextQueue paused).isSome := by
    unfold BEgressQueue.dequeueRR
    cases hnext : queue.nextQueue paused with
    | none => rfl
    | some qIndex =>
      have hne : queue.queues qIndex ≠ [] := by
        obtain ⟨hzero, rfl⟩ | ⟨-, hturn⟩ := nextQueue_cases hnext
        · exact hzero
        · have hready := List.find?_some hturn
          simp only [Bool.and_eq_true, Bool.not_eq_true', List.isEmpty_eq_false_iff] at hready
          exact hready.2
      obtain ⟨p, rest, hcons⟩ := List.exists_cons_of_ne_nil hne
      rw [Option.bind_eq_bind, Option.bind_some, hcons]
      rfl
  have hpos : ∀ qIndex, queue.queues qIndex ≠ [] → queue.bytesInQueueTotal ≠ 0 := by
    intro qIndex hne
    have hlen := length_le_bytes (h.size qIndex)
    have hle := bytes_le queue qIndex
    have hlt := List.length_pos_iff.mpr hne
    rw [h.bytesInQueueTotal]
    omega
  have hturn : (queue.roundRobin paused).isSome ↔
      ∃ qIndex, queue.queues qIndex ≠ [] ∧ paused qIndex = false := by
    refine RoundRobin.find_isSome.trans (exists_congr fun qIndex => ?_)
    simp [and_comm]
  rw [hdequeue, nextQueue]
  split
  next hzero =>
    refine iff_of_false (by simp) ?_
    rintro (hne | ⟨qIndex, hne, -⟩) <;> exact hpos _ hne hzero
  next =>
    split
    next hzero => exact iff_of_true rfl (.inl (by simpa using hzero))
    next hzero =>
      rw [hturn]
      exact (or_iff_right (by simpa using hzero)).symm

theorem rrlast_enqueue (hs : queue.enqueue p qIndex = some queue') :
    queue'.rrlast = queue.rrlast := by
  unfold BEgressQueue.enqueue at hs
  split at hs
  · cases hs
    rfl
  · cases hs

/-- The queue 0 has no turn, and a turn goes to a queue before all others that are ready. -/
theorem rrlast_dequeueRR (hs : queue.dequeueRR paused = some (p, queue')) :
    queue'.qlast = 0 ∧ queue'.rrlast = queue.rrlast ∨
      queue'.qlast ≠ 0 ∧ queue'.rrlast = queue'.qlast ∧
        ∀ qIndex, queue.queues qIndex ≠ [] → paused qIndex = false →
          RoundRobin.wait queue.rrlast queue'.qlast ≤ RoundRobin.wait queue.rrlast qIndex := by
  obtain ⟨hnext, hrrlast⟩ := nextQueue_of_dequeueRR hs
  rw [hrrlast]
  by_cases hq : queue'.qlast = 0
  · exact .inl ⟨hq, if_pos hq⟩
  · refine .inr ⟨hq, if_neg hq, fun qIndex hne hpaused => ?_⟩
    obtain ⟨-, hzero⟩ | ⟨-, hturn⟩ := nextQueue_cases hnext
    · exact absurd hzero hq
    · exact RoundRobin.wait_le_of_find hturn (by simp [hne, hpaused])

end BEgressQueue

/-! ## Runs -/

namespace EgressService

open BEgressQueue

variable {x y : EgressService}

/-- What holds of a queue at any time. -/
structure Correct (x : EgressService) : Prop where
  counted : Counted x.queue
  /-- In the order in which they were accepted, and each one once. -/
  order : ∀ qIndex, x.accepted qIndex = x.departed qIndex ++ x.queue.queues qIndex

theorem Correct.step (h : Correct x) (hs : Step x e y) : Correct y := by
  cases hs with
  | @accept p qIndex _ queue hfits hs =>
    refine ⟨h.counted.enqueue hfits.1 hfits.2 hs, fun q => ?_⟩
    dsimp only
    rw [enqueue_spec hs]
    by_cases hq : q = qIndex
    · rw [hq, update_self, update_self, h.order, List.append_assoc]
    · rw [update_of_ne hq, update_of_ne hq]
      exact h.order q
  | refuse => exact h
  | @depart paused p _ queue hs =>
    obtain ⟨hhead, hqueues⟩ := dequeueRR_spec hs
    refine ⟨h.counted.dequeueRR hs, fun q => ?_⟩
    dsimp only
    rw [hqueues]
    by_cases hq : q = queue.qlast
    · rw [hq, update_self, update_self, h.order, hhead, List.append_assoc]
      rfl
    · rw [update_of_ne hq, update_of_ne hq]
      exact h.order q
  | nothing => exact h

theorem Correct.reachable (h : machine.Reachable x) : Correct x := by
  refine h.invariant (I := Correct) ?_ fun _ ih hst => ih.step hst
  rintro x ⟨size, queue, hset, rfl⟩
  have hempty : queue.queues = fun _ => [] := by
    unfold setMaxSize at hset
    split at hset
    next => cases hset; rfl
    next =>
      split at hset
      next => cases hset
      next => cases hset; rfl
  refine ⟨counted_setMaxSize hset, fun qIndex => ?_⟩
  rw [hempty]
  rfl

/-- The queue that a call of `DequeueRR` serves. -/
def turn (st : Machine.Taken EgressService EgressEvent) : Option Priority :=
  match st.event with
  | .enqueue _ _ => none
  | .dequeueRR paused => (st.source.queue.dequeueRR paused).map fun (_, queue) => queue.qlast

/-- A queue is not empty before a step, and not paused in it. -/
def Waiting (qIndex : Priority) (st : Machine.Taken EgressService EgressEvent) : Prop :=
  st.source.queue.queues qIndex ≠ [] ∧ ∀ paused, st.event = .dequeueRR paused →
    paused qIndex = false

/-- The queues other than 0 that have their turn before a queue. -/
def ahead (x : EgressService) (qIndex : Priority) : Finset Priority :=
  RoundRobin.ahead (Finset.univ.erase 0) x.queue.rrlast qIndex

theorem card_ahead_le (x : EgressService) (hq : qIndex ≠ 0) : (x.ahead qIndex).card ≤ 6 := by
  refine (Finset.card_le_card (RoundRobin.ahead_subset _ _ _)).trans ?_
  rw [Finset.card_erase_of_mem (Finset.mem_erase.mpr ⟨hq, Finset.mem_univ _⟩),
    Finset.card_erase_of_mem (Finset.mem_univ _)]
  decide

/-- Another queue that is served is not ahead any more. -/
theorem card_ahead_step (hs : Step x e y) (hwait : Waiting qIndex ⟨x, e, y⟩)
    (hturn : turn ⟨x, e, y⟩ ≠ some qIndex) :
    (y.ahead qIndex).card + (if (turn ⟨x, e, y⟩).any (· ≠ 0) then 1 else 0) ≤
      (x.ahead qIndex).card := by
  obtain ⟨hne, hunpaused⟩ := hwait
  cases hs with
  | accept hfits hs =>
    rw [ahead, rrlast_enqueue hs]
    exact Nat.le_refl _
  | refuse => exact Nat.le_refl _
  | @depart paused p _ queue hs =>
    have hserved : turn ⟨x, .dequeueRR paused, { x with
        queue, departed := update x.departed queue.qlast (x.departed queue.qlast ++ [p]) }⟩ =
        some queue.qlast := by
      simp [turn, hs]
    rw [hserved] at hturn ⊢
    rcases rrlast_dequeueRR hs with ⟨hzero, hrr⟩ | ⟨hzero, hrr, hfirst⟩
    · simp [ahead, hrr, hzero]
    · have hlt : RoundRobin.wait x.queue.rrlast queue.qlast <
        RoundRobin.wait x.queue.rrlast qIndex := by
        refine (hfirst qIndex hne (hunpaused _ rfl)).lt_of_ne fun heq => hturn ?_
        rw [RoundRobin.wait_inj heq]
      have hcard := Finset.card_lt_card (RoundRobin.ahead_ssubset (s := Finset.univ.erase 0)
        (Finset.mem_erase.mpr ⟨hzero, Finset.mem_univ _⟩) hlt)
      simpa [ahead, hrr, hzero] using Nat.succ_le_of_lt hcard
  | nothing hs =>
    simp [turn, hs]

/-- **No queue waits for long**: at most the other six are served before it. -/
theorem served_of_trace (hq : qIndex ≠ 0) (h : machine.Trace x tr y)
    (hwait : ∀ st ∈ tr, Waiting qIndex st)
    (hcount : 7 ≤ tr.countP fun st => (turn st).any (· ≠ 0)) : ∃ st ∈ tr,
      turn st = some qIndex := by
  by_contra hnone
  push Not at hnone
  have hbound : (∀ st ∈ tr, Waiting qIndex st) → (∀ st ∈ tr, turn st ≠ some qIndex) →
      (y.ahead qIndex).card + tr.countP (fun st => (turn st).any (· ≠ 0)) ≤
      (x.ahead qIndex).card := by
    refine h.invariant (I := fun tr y => (∀ st ∈ tr, Waiting qIndex st) →
      (∀ st ∈ tr, turn st ≠ some qIndex) →
        (y.ahead qIndex).card + tr.countP (fun st => (turn st).any (· ≠ 0)) ≤ (x.ahead qIndex).card)
      (fun _ _ => Nat.le_refl _) ?_
    intro tr t e u _ ih hst hwait hturn
    have hlast : (⟨t, e, u⟩ : Machine.Taken EgressService EgressEvent) ∈ tr ++ [⟨t, e, u⟩] :=
      List.mem_append_right _ List.mem_cons_self
    have hstep := card_ahead_step hst (hwait _ hlast) (hturn _ hlast)
    have hbefore := ih (fun st hmem => hwait st (List.mem_append_left _ hmem))
      fun st hmem => hturn st (List.mem_append_left _ hmem)
    rw [List.countP_append, List.countP_singleton]
    omega
  have hsix := card_ahead_le x hq
  have := hbound hwait hnone
  omega

/-- `BEgressQueue` as a queue with priorities that take turns. -/
structure Serves (x : EgressService) : Prop where
  correct : Correct x
  lt_maxSize : x.queue.bytesInQueueTotal < x.queue.maxSize
  /-- A packet leaves if and only if one may. -/
  isSome : ∀ paused, (x.queue.dequeueRR paused).isSome ↔
    x.queue.queues 0 ≠ [] ∨ ∃ qIndex, x.queue.queues qIndex ≠ [] ∧ paused qIndex = false
  /-- It is the first one of its queue, and the assertions of `DequeueRR` hold. -/
  departs : ∀ paused p queue, x.queue.dequeueRR paused = some (p, queue) →
    (x.queue.queues queue.qlast).head? = some p ∧ (x.queue.queues 0 ≠ [] → queue.qlast = 0) ∧
      p.size ≤ x.queue.nBytes ∧ 0 < x.queue.nPackets
  /-- Seven turns are enough. -/
  bounded : ∀ qIndex tr y, qIndex ≠ 0 → machine.Trace x tr y → (∀ st ∈ tr, Waiting qIndex st) →
    7 ≤ tr.countP (fun st => (turn st).any (· ≠ 0)) → ∃ st ∈ tr, turn st = some qIndex

/-- **`BEgressQueue` serves its packets** as it should, after any run. -/
theorem egress_serves (h : machine.Reachable x) : Serves x := by
  have hcorrect := Correct.reachable h
  constructor
  case correct => exact hcorrect
  case lt_maxSize =>
    rw [hcorrect.counted.bytesInQueueTotal]
    exact hcorrect.counted.lt_maxSize
  case isSome => exact hcorrect.counted.dequeueRR_isSome
  case departs =>
    intro paused p queue hs
    refine ⟨?_, qlast_of_urgent hs, hcorrect.counted.asserted hs⟩
    rw [(dequeueRR_spec hs).1]
    rfl
  case bounded => exact fun _ _ _ hq htrace hwait hcount => served_of_trace hq htrace hwait hcount

/-- Two packets of a paused queue and one of another, after an urgent one has left: the next turn is
of the queue that is not paused. -/
theorem egress_serves_three :
    ∃ x : EgressService, x.queue.nPackets = 3 ∧ x.departed 0 = [{ ptr := 4, size := 64 }] ∧
      Serves x ∧ ((x.queue.dequeueRR (· = 3)).map fun (p, queue) => (p.ptr, queue.qlast)) =
        some (3, 5) := by
  have hinit : Initial {} := ⟨0, {}, rfl, rfl⟩
  have h₀ : machine.Reachable {} := .init hinit
  have h₁ := h₀.step (show Step {} (.enqueue { ptr := 1, size := 1000 } 3) _ from
    .accept ⟨by decide, by decide⟩ rfl)
  have h₂ := h₁.step (show Step _ (.enqueue { ptr := 2, size := 1500 } 3) _ from
    .accept ⟨by decide, by decide⟩ rfl)
  have h₃ := h₂.step (show Step _ (.enqueue { ptr := 3, size := 500 } 5) _ from
    .accept ⟨by decide, by decide⟩ rfl)
  have h₄ := h₃.step (show Step _ (.enqueue { ptr := 4, size := 64 } 0) _ from
    .accept ⟨by decide, by decide⟩ rfl)
  have h₅ := h₄.step (show Step _ (.dequeueRR fun _ => false) _ from .depart rfl)
  exact ⟨_, rfl, rfl, egress_serves h₅, rfl⟩

end EgressService
end Roce
