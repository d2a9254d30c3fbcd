import Mathlib.Data.List.Nodup
import Mathlib.Logic.Function.Basic

/-! # Devices that carry out one operation at a time

A function that has decided on an operation of a device may be entered again, for this device or
another one, before it starts the operation. -/

namespace Roce

open Function

/-- The devices in `pending` have an operation decided on and not started. Each is free for it, and
has no other one decided on; a device runs its current operation only. -/
structure Exclusive (current : δ → Option π) (running : δ → List π) (pending : List δ) : Prop where
  nodup : pending.Nodup
  free : ∀ d ∈ pending, current d = none
  running : ∀ d, running d = (current d).toList

namespace Exclusive

variable {current : δ → Option π} {running : δ → List π} {pending : List δ} {d : δ}

theorem ready (h : Exclusive current running (d :: pending)) : current d = none :=
  h.free d List.mem_cons_self

theorem single (h : Exclusive current running pending) (d : δ) : (running d).length ≤ 1 := by
  rw [h.running]
  exact Option.length_toList_le

theorem decide (h : Exclusive current running pending) (hd : d ∉ pending)
    (hfree : current d = none) :
    Exclusive current running (d :: pending) :=
  ⟨List.nodup_cons.mpr ⟨hd, h.nodup⟩, List.forall_mem_cons.mpr ⟨hfree, h.free⟩, h.running⟩

theorem init (hcurrent : ∀ d, current d = none) (hrunning : ∀ d, running d = []) :
    Exclusive current running [] :=
  ⟨List.nodup_nil, fun d _ => hcurrent d, fun d => by rw [hrunning, hcurrent]; rfl⟩

variable [DecidableEq δ]

/-- The innermost operation is started. -/
theorem start (h : Exclusive current running (d :: pending)) (p : π) :
    Exclusive (update current d (some p)) (update running d (running d ++ [p])) pending := by
  obtain ⟨hd, hnodup⟩ := List.nodup_cons.mp h.nodup
  refine ⟨hnodup, fun e he => ?_, fun e => ?_⟩
  · have hne : e ≠ d := fun heq => hd (heq ▸ he)
    rw [update_of_ne hne]
    exact h.free e (List.mem_cons_of_mem d he)
  · rcases eq_or_ne e d with rfl | hne
    · rw [update_self, update_self, h.running, h.ready]
      rfl
    · rw [update_of_ne hne, update_of_ne hne, h.running]

/-- An operation ends. -/
theorem complete (h : Exclusive current running []) (d : δ) :
    Exclusive (update current d none) (update running d (running d).tail) [] := by
  refine ⟨List.nodup_nil, fun e he => absurd he List.not_mem_nil, fun e => ?_⟩
  rcases eq_or_ne e d with rfl | hne
  · rw [update_self, update_self, h.running]
    cases current e <;> rfl
  · rw [update_of_ne hne, update_of_ne hne, h.running]

end Exclusive
end Roce
