import Mathlib.Algebra.Order.Ring.Int
import Mathlib.Data.List.Basic

/-! # A queue of events

The clock of a discrete simulation and the events of one kind that are pending. An event is named by
a number that is never given again. -/

namespace Roce

/-- A pending event and its time. -/
structure PendingEvent where
  uid : Nat
  ts : Int
  deriving DecidableEq, Repr

/-- No pending event is in the past, and none has a number that is still to be given. -/
structure EventQueue where
  now : Int
  nextUid : Nat
  pending : List PendingEvent
  uid_lt : ∀ e ∈ pending, e.uid < nextUid
  now_le : ∀ e ∈ pending, now ≤ e.ts

namespace EventQueue

variable (q : EventQueue)

def empty : EventQueue := ⟨0, 0, [], fun _ he => absurd he List.not_mem_nil,
  fun _ he => absurd he List.not_mem_nil⟩

/-- The event has neither run nor been cancelled. -/
def isRunning (uid : Nat) : Bool := q.pending.any (·.uid = uid)

def cancel (uid : Nat) : EventQueue where
  now := q.now
  nextUid := q.nextUid
  pending := q.pending.filter (·.uid ≠ uid)
  uid_lt e he := q.uid_lt e (List.mem_of_mem_filter he)
  now_le e he := q.now_le e (List.mem_of_mem_filter he)

/-- An event is scheduled for a time, or for now if that is over. -/
def scheduleAbs (time : Int) : EventQueue where
  now := q.now
  nextUid := q.nextUid + 1
  pending := q.pending ++ [⟨q.nextUid, q.now + max 0 (time - q.now)⟩]
  uid_lt e he := by
    rcases List.mem_append.mp he with he | he
    · exact Nat.lt_succ_of_lt (q.uid_lt e he)
    · rw [List.mem_singleton.mp he]
      exact Nat.lt_succ_self _
  now_le e he := by
    rcases List.mem_append.mp he with he | he
    · exact q.now_le e he
    · rw [List.mem_singleton.mp he]
      exact Int.le_add_of_nonneg_right (le_max_left ..)

/-- The clock may go to this time: no event is missed. -/
def Due (time : Int) : Prop := q.now ≤ time ∧ ∀ e ∈ q.pending, time ≤ e.ts

/-- An event of another kind runs. -/
def advance (time : Int) (h : q.Due time) : EventQueue where
  now := time
  nextUid := q.nextUid
  pending := q.pending
  uid_lt := q.uid_lt
  now_le := h.2

/-- A pending event runs. -/
def run (e : PendingEvent) (h : q.Due e.ts) : EventQueue := (q.advance e.ts h).cancel e.uid

variable {q : EventQueue}

theorem isRunning_iff : q.isRunning uid = true ↔ ∃ e ∈ q.pending, e.uid = uid := by
  simp [isRunning]

theorem pending_scheduleAbs (q : EventQueue) (time : Int) :
    (q.scheduleAbs time).pending = q.pending ++ [⟨q.nextUid, max q.now time⟩] := by
  have hts : q.now + max 0 (time - q.now) = max q.now time := by omega
  rw [← hts]
  rfl

theorem pending_cancel (hsingle : ∀ e ∈ q.pending, e.uid = uid) : (q.cancel uid).pending = [] :=
  List.filter_eq_nil_iff.mpr fun e he => by simpa using hsingle e he

theorem cancel_of_not_isRunning (h : q.isRunning uid = false) :
    (q.cancel uid).pending = q.pending :=
  List.filter_eq_self.mpr fun e he => by
    refine decide_eq_true fun heq => ?_
    rw [isRunning_iff.mpr ⟨e, he, heq⟩] at h
    cases h

end EventQueue
end Roce
