import Roce.Lib.EventQueue
import Roce.Lib.Machine

/-! # `PeriodicEvent`

A task that runs in intervals. Whoever holds the `PeriodicEvent` may call its functions at any time,
the task too. Times are integers. -/

namespace Roce

/-- The members of `PeriodicEvent`, the events of `RunTask` in the simulator, and whether `m_task`
is running. -/
structure PeriodicEvent (τ : Type u) where
  paused : Bool := true
  itv : Int := 0
  lastInvoked : Int := 0
  task : Option τ := none
  event : Option Nat := none
  queue : EventQueue := .empty
  running : Bool := false

namespace PeriodicEvent

variable {τ : Type u}

/-- `m_event` is cancelled if it is running. -/
def cancelEvent (e : PeriodicEvent τ) : EventQueue :=
  match e.event with
  | some id => if e.queue.isRunning id then e.queue.cancel id else e.queue
  | none => e.queue

/-- `Reschedule`. -/
def reschedule (e : PeriodicEvent τ) : PeriodicEvent τ :=
  let queue := e.cancelEvent
  if e.paused then { e with queue }
  else { e with event := some queue.nextUid, queue := queue.scheduleAbs (e.lastInvoked + e.itv) }

def setTask (task : Option τ) (e : PeriodicEvent τ) : PeriodicEvent τ := { e with task }

def setInterval (itv : Int) (e : PeriodicEvent τ) : PeriodicEvent τ := { e with itv }.reschedule

def resume (e : PeriodicEvent τ) : PeriodicEvent τ := { e with paused := false }.reschedule

def pause (e : PeriodicEvent τ) : PeriodicEvent τ := { e with paused := true }.reschedule

/-- `RunTask`, up to the task if there is one. -/
def runTask (e : PeriodicEvent τ) : PeriodicEvent τ :=
  match e.task with
  | some _ => { e with lastInvoked := e.queue.now, running := true }
  | none => { e with lastInvoked := e.queue.now }.reschedule

/-- The end of `RunTask`, after the task. -/
def taskReturns (e : PeriodicEvent τ) : PeriodicEvent τ := { e with running := false }.reschedule

/-! ## The machine -/

inductive Call (τ : Type u) where
  /-- Another event of the simulator. -/
  | advance (time : Int)
  | setTask (task : Option τ)
  | setInterval (itv : Int)
  | resume
  | pause
  | runTask (time : Int)
  | taskReturns

inductive Step : PeriodicEvent τ → Call τ → PeriodicEvent τ → Prop
  | advance {e : PeriodicEvent τ} (h : e.queue.Due time) : e.running = false →
    Step e (.advance time) { e with queue := e.queue.advance time h }
  | setTask : Step e (.setTask t) (e.setTask t)
  | setInterval : Step e (.setInterval i) (e.setInterval i)
  | resume : Step e .resume e.resume
  | pause : Step e .pause e.pause
  | runTask {e : PeriodicEvent τ} (h : e.queue.Due p.ts) : e.running = false → p ∈ e.queue.pending →
    Step e (.runTask p.ts) { e with queue := e.queue.run p h }.runTask
  | taskReturns : e.running = true → Step e .taskReturns e.taskReturns

/-- A new `PeriodicEvent`, at any time. -/
def New (e : PeriodicEvent τ) : Prop := e = { queue := e.queue } ∧ e.queue.pending = []

def machine : Machine (PeriodicEvent τ) (Call τ) := ⟨New, Step⟩

/-! ## The event -/

variable {e e' : PeriodicEvent τ}

/-- Only `m_event` can be pending. -/
def Known (e : PeriodicEvent τ) : Prop := ∀ p ∈ e.queue.pending, e.event = some p.uid

/-- Nothing is pending after `m_event` has been cancelled. -/
theorem pending_cancelEvent (h : Known e) : e.cancelEvent.pending = [] := by
  unfold cancelEvent
  split
  next id hid =>
    have hsingle : ∀ p ∈ e.queue.pending, p.uid = id := fun p hp =>
      (Option.some.inj (hid.symm.trans (h p hp))).symm
    have hcancel := EventQueue.pending_cancel hsingle
    split
    next => exact hcancel
    next hrun => rwa [EventQueue.cancel_of_not_isRunning (Bool.eq_false_iff.mpr hrun)] at hcancel
  next hnone =>
    apply List.eq_nil_iff_forall_not_mem.mpr
    intro p hp
    cases hnone.symm.trans (h p hp)

/-- The discipline of the event: `RunTask` is pending once at most and not while paused, and it is
at least one interval after the last run. -/
structure Inv (e : PeriodicEvent τ) : Prop where
  known : Known e
  single : e.queue.pending.length ≤ 1
  paused : e.paused = true → e.queue.pending = []
  pending : e.paused = false → e.running = false → e.queue.pending ≠ []
  due : ∀ p ∈ e.queue.pending, e.lastInvoked + e.itv ≤ p.ts

/-- `Reschedule` establishes the invariant, whatever was changed before. -/
theorem Known.reschedule (h : Known e) : Inv e.reschedule := by
  have hnil := pending_cancelEvent h
  unfold PeriodicEvent.reschedule
  dsimp only
  split
  next hpaused =>
    have hnone : ∀ p ∈ e.cancelEvent.pending, False := fun p hp =>
      absurd (hnil ▸ hp) List.not_mem_nil
    exact {
      known := fun p hp => (hnone p hp).elim
      single := by simp [hnil]
      paused := fun _ => hnil
      pending := fun hrun => by simp [hpaused] at hrun
      due := fun p hp => (hnone p hp).elim }
  next hpaused =>
    have hp : (e.cancelEvent.scheduleAbs (e.lastInvoked + e.itv)).pending =
        [⟨e.cancelEvent.nextUid, max e.cancelEvent.now (e.lastInvoked + e.itv)⟩] := by
      rw [EventQueue.pending_scheduleAbs, hnil, List.nil_append]
    exact {
      known := fun p hmem => by
        rw [hp, List.mem_singleton] at hmem
        rw [hmem]
      single := by rw [hp, List.length_singleton]
      paused := fun hrun => absurd hrun hpaused
      pending := fun _ _ => by simp [hp]
      due := fun p hmem => by
        rw [hp, List.mem_singleton] at hmem
        rw [hmem]
        exact le_max_right .. }

/-- The clock goes to the next event. -/
theorem Inv.advance (h : Inv e) (hdue : e.queue.Due time) :
    Inv { e with queue := e.queue.advance time hdue } :=
  ⟨h.known, h.single, h.paused, h.pending, h.due⟩

/-- What runs is no longer pending. -/
theorem Inv.run (h : Inv e) (hp : p ∈ e.queue.pending) (hdue : e.queue.Due p.ts) :
    (e.queue.run p hdue).pending = [] := by
  apply EventQueue.pending_cancel
  intro p' hp'
  exact Option.some.inj ((h.known p' hp').symm.trans (h.known p hp))

theorem Inv.step (h : Inv e) (hs : Step e c e') : Inv e' := by
  cases hs with
  | advance hdue => exact h.advance hdue
  | setTask => exact ⟨h.known, h.single, h.paused, h.pending, h.due⟩
  | setInterval | resume | pause | taskReturns => exact Known.reschedule h.known
  | @runTask p e hdue _ hp =>
    have hnil := h.run hp hdue
    have hnone : ∀ q ∈ (e.queue.run p hdue).pending, False := fun q hq =>
      absurd (hnil ▸ hq) List.not_mem_nil
    unfold PeriodicEvent.runTask
    split
    next =>
      exact {
        known := fun q hq => (hnone q hq).elim
        single := by simp [hnil]
        paused := fun _ => hnil
        pending := fun _ hrun => by cases hrun
        due := fun q hq => (hnone q hq).elim }
    next => exact Known.reschedule fun q hq => (hnone q hq).elim

theorem New.inv (h : New e) : Inv e := by
  have hpaused : e.paused = true := by rw [h.1]
  have hnone : ∀ q ∈ e.queue.pending, False := fun q hq => absurd (h.2 ▸ hq) List.not_mem_nil
  exact {
    known := fun q hq => (hnone q hq).elim
    single := by simp [h.2]
    paused := fun _ => h.2
    pending := fun hrun => by simp [hpaused] at hrun
    due := fun q hq => (hnone q hq).elim }

theorem inv_of_reachable (h : machine.Reachable e) : Inv e :=
  h.invariant New.inv fun _ h hs => h.step hs

/-! ## The discipline -/

/-- The task does not run, and the interval does not change. -/
def Quiet (itv : Int) : Call τ → Prop
  | .runTask _ => False
  | .setInterval itv' => itv' = itv
  | _ => True

/-- `Reschedule` changes the event only. -/
theorem reschedule_frame (e : PeriodicEvent τ) :
    e.reschedule.lastInvoked = e.lastInvoked ∧ e.reschedule.itv = e.itv := by
  unfold reschedule
  dsimp only
  split <;> exact ⟨rfl, rfl⟩

theorem Quiet.step (hc : Quiet e.itv c) (hs : Step e c e') :
    e'.lastInvoked = e.lastInvoked ∧ e'.itv = e.itv := by
  cases hs with
  | advance | setTask => exact ⟨rfl, rfl⟩
  | setInterval =>
    obtain ⟨hlast, hitv⟩ := reschedule_frame { e with itv := e.itv }
    cases hc
    exact ⟨hlast, hitv⟩
  | resume => exact reschedule_frame { e with paused := false }
  | pause => exact reschedule_frame { e with paused := true }
  | runTask => exact hc.elim
  | taskReturns => exact reschedule_frame { e with running := false }

/-- Between two runs of the task, the last invocation and the interval stay. -/
theorem Quiet.run (hrun : machine.Run e cs e') (hq : ∀ c ∈ cs, Quiet e.itv c) :
    e'.lastInvoked = e.lastInvoked ∧ e'.itv = e.itv := by
  induction hrun with
  | nil => exact ⟨rfl, rfl⟩
  | snoc _ hs ih =>
    obtain ⟨hlast, hitv⟩ := ih fun c hc => hq c (List.mem_append_left _ hc)
    have hc := hq _ (List.mem_append_right _ (List.mem_singleton_self _))
    obtain ⟨hlast', hitv'⟩ := Quiet.step (hitv ▸ hc) hs
    exact ⟨hlast'.trans hlast, hitv'.trans hitv⟩

/-- The time of a run is the last invocation. -/
theorem lastInvoked_runTask (hs : Step e (.runTask time) e') :
    e'.lastInvoked = time ∧ e'.itv = e.itv := by
  cases hs with
  | runTask hdue =>
    unfold runTask
    split
    · exact ⟨rfl, rfl⟩
    · exact reschedule_frame _

/-- Only a pending event runs. -/
theorem mem_of_runTask (hs : Step e (.runTask time) e') : ∃ p ∈ e.queue.pending, p.ts = time := by
  cases hs with
  | runTask _ _ hp => exact ⟨_, hp, rfl⟩

/-- What whoever holds a `PeriodicEvent` may rely on. -/
structure Disciplined (e : PeriodicEvent τ) : Prop where
  single : e.queue.pending.length ≤ 1
  notPaused : ∀ time e', Step e (.runTask time) e' → e.paused = false
  pending : e.paused = false → e.running = false → e.queue.pending ≠ []
  spaced : ∀ time time' cs e₁ e₂ e₃, Step e (.runTask time) e₁ → machine.Run e₁ cs e₂ →
    (∀ c ∈ cs, Quiet e.itv c) → Step e₂ (.runTask time') e₃ → time + e.itv ≤ time'

/-- **The discipline of a `PeriodicEvent`**, in every state that calls at any times lead to: one
event of `RunTask` at most is pending, the task does not start while paused, it is pending unless it
is paused or running, and with the same interval two runs in a row are an interval apart. -/
theorem disciplined (h : machine.Reachable e) : Disciplined e where
  single := (inv_of_reachable h).single
  notPaused time e' hs := by
    obtain ⟨p, hp, -⟩ := mem_of_runTask hs
    apply Bool.eq_false_iff.mpr
    intro hpaused
    rw [(inv_of_reachable h).paused hpaused] at hp
    cases hp
  pending := (inv_of_reachable h).pending
  spaced time time' cs e₁ e₂ e₃ hfirst hrun hquiet hsecond := by
    obtain ⟨hlast, hitv⟩ := lastInvoked_runTask hfirst
    obtain ⟨hlast', hitv'⟩ := Quiet.run hrun (hitv ▸ hquiet)
    obtain ⟨p, hp, rfl⟩ := mem_of_runTask hsecond
    calc time + e.itv = e₂.lastInvoked + e₂.itv := by rw [hlast', hlast, hitv', hitv]
      _ ≤ p.ts := (inv_of_reachable ((h.step hfirst).run hrun)).due p hp

/-- A task with an interval of 10, before its first run. -/
theorem disciplined_first : ∃ e e' : PeriodicEvent Unit, machine.Reachable e ∧
    Step e (.runTask 10) e' ∧ Disciplined e := by
  let e₁ : PeriodicEvent Unit := {}
  let e₂ := e₁.setTask (some ())
  let e₃ := e₂.setInterval 10
  have hnew : machine.Reachable e₁ := .init ⟨rfl, rfl⟩
  have htask : machine.Reachable e₂ := hnew.step .setTask
  have hitv : machine.Reachable e₃ := htask.step .setInterval
  have hreach : machine.Reachable e₃.resume := hitv.step .resume
  have hpending : e₃.resume.queue.pending = [⟨0, 10⟩] := rfl
  have hdue : e₃.resume.queue.Due 10 := by
    refine ⟨by decide, fun p hp => ?_⟩
    rw [hpending, List.mem_singleton] at hp
    rw [hp]
  have hmem : ⟨0, 10⟩ ∈ e₃.resume.queue.pending := hpending ▸ List.mem_singleton_self _
  exact ⟨e₃.resume, _, hreach, .runTask hdue rfl hmem, disciplined hreach⟩

end PeriodicEvent
end Roce
