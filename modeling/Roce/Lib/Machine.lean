import Mathlib.Algebra.Order.Ring.Nat

/-! # State machines, their runs and their invariants

A `Machine` is a set of initial states and a labelled step relation. A run is a list of
events; it grows at the right, so that the induction over a run peels off its last step.

The rules of this file are the only inductions over runs: an invariant that every step
preserves (`Reachable.invariant`), an invariant that holds below a bound which can only be
crossed upwards (`Reachable.invariant_of_bound`), an invariant that also speaks of the steps taken
so far (`Trace.invariant`), and simulations (`Reachable.simulation`, and `Trace.visible` and
`Trace.lift` where some steps are not seen). Within a step, a loop that may fail has the rule
`foldlM_invariant`. -/

namespace Roce

/-- A labelled state machine over states `σ` and events `ε`. -/
structure Machine (σ : Type u) (ε : Type v) where
  init : σ → Prop
  step : σ → ε → σ → Prop

namespace Machine

variable {σ : Type u} {ε : Type v} {τ : Type w} {δ : Type x}

/-- `M.Run s es s'`: the events `es`, in this order, lead from `s` to `s'`. -/
inductive Run (M : Machine σ ε) : σ → List ε → σ → Prop
  | nil : Run M s [] s
  | snoc : Run M s es t → M.step t e u → Run M s (es ++ [e]) u

/-- Some run from an initial state ends in `s`. -/
def Reachable (M : Machine σ ε) (s : σ) : Prop := ∃ s₀ es, M.init s₀ ∧ M.Run s₀ es s

/-- The machine that takes only the steps `M` can take where `C` holds. -/
def restrict (M : Machine σ ε) (C : σ → ε → Prop) : Machine σ ε where
  init := M.init
  step s e s' := C s e ∧ M.step s e s'

/-- A step that was taken. -/
structure Taken (σ : Type u) (ε : Type v) where
  source : σ
  event : ε
  target : σ

/-- A run that records its steps. -/
inductive Trace (M : Machine σ ε) : σ → List (Taken σ ε) → σ → Prop
  | nil : Trace M s [] s
  | snoc : Trace M s tr t → M.step t e u → Trace M s (tr ++ [⟨t, e, u⟩]) u

variable {M : Machine σ ε} {N : Machine τ δ}

theorem Run.single (h : M.step s e t) : M.Run s [e] t := .snoc .nil h

theorem Run.append (h₁ : M.Run s es t) (h₂ : M.Run t es' u) : M.Run s (es ++ es') u := by
  induction h₂ with
  | nil => simpa using h₁
  | snoc _ hs ih => rw [← List.append_assoc]; exact .snoc ih hs

/-- What every step preserves, every run preserves. -/
theorem Run.preserves {I : σ → Prop} (hstep : ∀ {s e t}, I s → M.step s e t → I t)
    (h : M.Run s es t) (hs : I s) : I t := by
  induction h with
  | nil => exact hs
  | snoc _ hst ih => exact hstep ih hst

/-- An invariant of the events so far and the state they lead to. -/
theorem Run.history {I : List ε → σ → Prop} (hnil : I [] s)
    (hsnoc : ∀ {es t e u}, M.Run s es t → I es t → M.step t e u → I (es ++ [e]) u)
    (h : M.Run s es t) : I es t := by
  induction h with
  | nil => exact hnil
  | snoc h hst ih => exact hsnoc h ih hst

/-- A relation between two states that is reflexive and that a step can only extend. -/
theorem Run.relates {R : σ → σ → Prop} (hrefl : ∀ s, R s s)
    (hstep : ∀ {s t e u}, R s t → M.step t e u → R s u) (h : M.Run s es t) : R s t := by
  induction h with
  | nil => exact hrefl _
  | snoc _ hst ih => exact hstep ih hst

theorem Reachable.init (h : M.init s) : M.Reachable s := ⟨s, [], h, .nil⟩

theorem Reachable.step (h : M.Reachable s) (hs : M.step s e t) : M.Reachable t := by
  obtain ⟨s₀, es, h0, hr⟩ := h
  exact ⟨s₀, _, h0, .snoc hr hs⟩

theorem Reachable.run (h : M.Reachable s) (hr : M.Run s es t) : M.Reachable t := by
  obtain ⟨s₀, _, h0, hr0⟩ := h
  exact ⟨s₀, _, h0, hr0.append hr⟩

/-- **The invariant rule.** The step may assume that its source is reachable. -/
theorem Reachable.invariant {I : σ → Prop} (hinit : ∀ {s}, M.init s → I s)
    (hstep : ∀ {s e t}, M.Reachable s → I s → M.step s e t → I t)
    (h : M.Reachable s) : I s := by
  obtain ⟨s₀, es, h0, hr⟩ := h
  induction hr with
  | nil => exact hinit h0
  | snoc hr hst ih => exact hstep ⟨_, _, h0, hr⟩ ih hst

/-- **The invariant rule below a bound.** `B` is a bound that no step re-enters: where it
holds after a step it held before. Then an invariant needs to be preserved below the bound
only. -/
theorem Reachable.invariant_of_bound {B I : σ → Prop} (hinit : ∀ {s}, M.init s → I s)
    (hback : ∀ {s e t}, M.step s e t → B t → B s)
    (hstep : ∀ {s e t}, M.Reachable s → I s → M.step s e t → B t → I t)
    (h : M.Reachable s) : B s → I s :=
  h.invariant (I := fun s => B s → I s) (fun h0 _ => hinit h0)
    fun hr ih hst hb => hstep hr (ih (hback hst hb)) hst hb

/-- **The invariant rule for a history.** -/
theorem Trace.invariant {I : List (Taken σ ε) → σ → Prop} (hinit : I [] s)
    (hstep : ∀ {tr t e u}, M.Trace s tr t → I tr t → M.step t e u → I (tr ++ [⟨t, e, u⟩]) u)
    (h : M.Trace s tr t) : I tr t := by
  induction h with
  | nil => exact hinit
  | snoc h hst ih => exact hstep h ih hst

theorem Trace.run (h : M.Trace s tr t) : M.Run s (tr.map (·.event)) t := by
  induction h with
  | nil => exact .nil
  | snoc _ hst ih => rw [List.map_append]; exact .snoc ih hst

theorem Trace.reachable (h : M.Trace s tr t) (h0 : M.init s) : M.Reachable t := ⟨s, _, h0, h.run⟩

theorem Run.trace (h : M.Run s es t) : ∃ tr, M.Trace s tr t := by
  induction h with
  | nil => exact ⟨[], .nil⟩
  | snoc _ hst ih =>
    obtain ⟨tr, htr⟩ := ih
    exact ⟨_, htr.snoc hst⟩

theorem Reachable.trace (h : M.Reachable s) : ∃ s₀ tr, M.init s₀ ∧ M.Trace s₀ tr s := by
  obtain ⟨s₀, es, h0, hr⟩ := h
  obtain ⟨tr, htr⟩ := hr.trace
  exact ⟨s₀, tr, h0, htr⟩

/-- What every step that can be taken satisfies holds of the steps of a history. -/
theorem Trace.forall_mem {P : Taken σ ε → Prop}
    (hstep : ∀ {tr t e u}, M.Trace s tr t → M.step t e u → P ⟨t, e, u⟩) (h : M.Trace s tr t) :
    ∀ st ∈ tr, P st := by
  refine h.invariant (I := fun tr _ => ∀ st ∈ tr, P st) (fun _ hst => nomatch hst) ?_
  intro tr t e u h ih hst st hmem
  rcases List.mem_append.mp hmem with hmem | hmem
  · exact ih st hmem
  · rw [List.mem_singleton.mp hmem]
    exact hstep h hst

theorem Trace.append (h₁ : M.Trace s tr t) (h₂ : M.Trace t tr' u) : M.Trace s (tr ++ tr') u := by
  induction h₂ with
  | nil => simpa using h₁
  | snoc _ hs ih => rw [← List.append_assoc]; exact .snoc ih hs

/-- What every step preserves holds at the end of a history. -/
theorem Trace.preserves {I : σ → Prop} (hstep : ∀ {s e t}, I s → M.step s e t → I t)
    (h : M.Trace s tr t) (hs : I s) : I t := h.run.preserves hstep hs

/-- The steps of a history that are visible, through a map of the states. -/
def visible (p : ε → Bool) (f : σ → τ) (tr : List (Taken σ ε)) : List (Taken τ ε) :=
  (tr.filter (p ·.event)).map fun st => ⟨f st.source, st.event, f st.target⟩

theorem visible_append (p : ε → Bool) (f : σ → τ) (tr tr' : List (Taken σ ε)) :
    visible p f (tr ++ tr') = visible p f tr ++ visible p f tr' := by
  rw [visible, List.filter_append, List.map_append, visible, visible]

/-- **Forward simulation with invisible steps.** A map of the states that commutes with the visible
steps, and does not see the others. -/
theorem Trace.visible {M' : Machine τ ε} {p : ε → Bool} {f : σ → τ}
    (hhidden : ∀ {s e t}, M.step s e t → p e = false → f t = f s)
    (hvisible : ∀ {s e t}, M.step s e t → p e = true → M'.step (f s) e (f t))
    (h : M.Trace s tr t) : M'.Trace (f s) (Machine.visible p f tr) (f t) := by
  induction h with
  | nil => exact .nil
  | @snoc tr t e u _ hst ih =>
    rw [visible_append]
    cases hp : p e with
    | false => simpa [Machine.visible, hp, hhidden hst hp] using ih
    | true => simpa [Machine.visible, hp] using ih.snoc (hvisible hst hp)

/-- **Backward simulation with invisible steps**, from the states that satisfy an invariant. -/
theorem Trace.lift {M' : Machine τ ε} {p : ε → Bool} {f : σ → τ} {I : σ → Prop}
    (hinv : ∀ {s e t}, I s → M.step s e t → I t)
    (hlift : ∀ {s e u}, I s → M'.step (f s) e u →
      ∃ tr t, M.Trace s tr t ∧ f t = u ∧ Machine.visible p f tr = [⟨f s, e, u⟩])
    (h : M'.Trace t₀ tr u) (hs : I s) (ht : f s = t₀) :
    ∃ tr' t, M.Trace s tr' t ∧ f t = u ∧ Machine.visible p f tr' = tr := by
  subst ht
  induction h with
  | nil => exact ⟨[], s, .nil, rfl, rfl⟩
  | snoc _ hst ih =>
    obtain ⟨tr₁, t₁, h₁, rfl, hv₁⟩ := ih
    obtain ⟨tr₂, t₂, h₂, rfl, hv₂⟩ := hlift (h₁.preserves hinv hs) hst
    exact ⟨_, t₂, h₁.append h₂, rfl, by rw [visible_append, hv₁, hv₂]⟩

/-- **Forward simulation.** Every step of `M` is matched by a run of `N`. -/
theorem Reachable.simulation {R : σ → τ → Prop}
    (hinit : ∀ {s}, M.init s → ∃ t, N.init t ∧ R s t)
    (hstep : ∀ {s e s' t}, R s t → M.step s e s' → ∃ es t', N.Run t es t' ∧ R s' t')
    (h : M.Reachable s) : ∃ t, N.Reachable t ∧ R s t := by
  refine h.invariant (I := fun s => ∃ t, N.Reachable t ∧ R s t) (fun h0 => ?_)
    fun _ ih hst => ?_
  · obtain ⟨t, ht, hR⟩ := hinit h0
    exact ⟨t, .init ht, hR⟩
  · obtain ⟨t, ht, hR⟩ := ih
    obtain ⟨es, t', hrun, hR'⟩ := hstep hR hst
    exact ⟨t', ht.run hrun, hR'⟩

theorem Reachable.of_restrict {C : σ → ε → Prop} (h : (M.restrict C).Reachable s) :
    M.Reachable s := by
  refine Reachable.invariant (M := M.restrict C) (I := M.Reachable) (fun h0 => .init h0)
    (fun _ ih hst => ?_) h
  exact ih.step hst.2

theorem Trace.of_restrict {C : σ → ε → Prop} (h : (M.restrict C).Trace s tr t) :
    M.Trace s tr t := by
  induction h with
  | nil => exact .nil
  | snoc _ hst ih => exact ih.snoc hst.2

end Machine

/-! ## Loops that may fail -/

/-- The rule of a loop: an invariant of the state and of what is left to do. -/
theorem foldlM_invariant {f : σ → α → Option σ} {I : List α → σ → Prop}
    (hstep : ∀ {x l s t}, I (x :: l) s → f s x = some t → I l t) {l : List α} (h : I l s)
    (hs : l.foldlM f s = some s') : I [] s' := by
  induction l generalizing s with
  | nil =>
    cases hs
    exact h
  | cons x l ih =>
    rw [List.foldlM_cons] at hs
    obtain ⟨t, ht, hs⟩ := Option.bind_eq_some_iff.mp hs
    exact ih (hstep h ht) hs

/-- A computation that returns what another one returns, step by step. -/
theorem bind_mono {x y : Option α} {f g : α → Option β} (hxy : ∀ {a}, x = some a → y = some a)
    (hfg : ∀ {a b}, f a = some b → g a = some b) (h : x.bind f = some b) : y.bind g = some b := by
  obtain ⟨a, hx, hf⟩ := Option.bind_eq_some_iff.mp h
  exact Option.bind_eq_some_iff.mpr ⟨a, hxy hx, hfg hf⟩

theorem foldlM_mono {f g : σ → α → Option σ} (hfg : ∀ {s x t}, f s x = some t → g s x = some t)
    {l : List α} (h : l.foldlM f s = some t) : l.foldlM g s = some t := by
  induction l generalizing s t with
  | nil => exact h
  | cons x l ih =>
    rw [List.foldlM_cons] at h ⊢
    exact bind_mono hfg ih h

/-- Steps that are computed lead to reachable states. -/
theorem Machine.Reachable.of_foldlM {M : Machine σ ε} {exec : σ → α → Option σ}
    (hexec : ∀ {s x t}, exec s x = some t → ∃ e, M.step s e t) (h : M.Reachable s) {l : List α}
    (hs : l.foldlM exec s = some t) : M.Reachable t := by
  refine foldlM_invariant (I := fun _ => M.Reachable) (fun hr hx => ?_) h hs
  obtain ⟨e, hst⟩ := hexec hx
  exact hr.step hst

end Roce
