import Roce.Flow.FlowLines
import Mathlib.Algebra.BigOperators.Group.Finset.Basic
import Mathlib.Algebra.Order.BigOperators.Group.Finset

/-! # The number of foreground flows that run

However the scheduler is used, `m_fg_running` counts all calls of `OnFlowFinish` that are still to
come for foreground flows, so the assertion of `OnFlowFinish` does not fail. -/

namespace Roce

open Function

open FlowScheduler (Foreground Finished finishFlow_spec)

/-- The calls of `OnFlowFinish` of a foreground flow that a frame has still to make. -/
def FlowFrame.finishes (flows : List SerializedFlow) : FlowFrame → Nat
  | .notifyComplete flow n => if Foreground flows flow then n else 0
  | _ => 0

namespace FlowSimulation

variable {s s' : FlowScheduler} {frames stack : List FlowFrame} {flow : Nat} {x y : FlowSimulation}

/-- The calls of `OnFlowFinish` that the completion of a foreground flow makes. -/
def expected (s : FlowScheduler) (flow : Nat) : Nat :=
  if Foreground s.flows flow ∧ s.completed flow = false then s.callbacks flow else 0

def finishesOf (flows : List SerializedFlow) (frames : List FlowFrame) : Nat :=
  (frames.map (FlowFrame.finishes flows)).sum

/-- All calls of `OnFlowFinish` that are still to come are counted. -/
def FinishCounts (s : FlowScheduler) (frames : List FlowFrame) : Prop :=
  ∑ flow ∈ Finset.range s.flows.length, expected s flow + finishesOf s.flows frames ≤ s.fgRunning

theorem sum_eq_of_ne {f g : Nat → Nat} (hn : i < n) (h : ∀ t ≠ i, f t = g t) :
    ∑ t ∈ Finset.range n, f t + g i = ∑ t ∈ Finset.range n, g t + f i := by
  have hmem := Finset.mem_range.mpr hn
  have hsum : ∑ t ∈ (Finset.range n).erase i, f t = ∑ t ∈ (Finset.range n).erase i, g t :=
    Finset.sum_congr rfl fun t ht => h t (Finset.ne_of_mem_erase ht)
  rw [← Finset.add_sum_erase _ f hmem, ← Finset.add_sum_erase _ g hmem, hsum]
  omega

theorem finishesOf_cons (flows : List SerializedFlow) (frame : FlowFrame)
    (frames : List FlowFrame) :
    finishesOf flows (frame :: frames) = frame.finishes flows + finishesOf flows frames := by
  rw [finishesOf, List.map_cons, List.sum_cons, finishesOf]

theorem finishesOf_outside (flows : List SerializedFlow) (frames : List FlowFrame) :
    finishesOf flows (.outside :: frames) = finishesOf flows frames := by
  rw [finishesOf_cons]
  exact Nat.zero_add _

theorem finishesOf_onFlowFinish (flows : List SerializedFlow) (frames : List FlowFrame) :
    finishesOf flows (.onFlowFinish flow targets :: frames) = finishesOf flows frames := by
  rw [finishesOf_cons]
  exact Nat.zero_add _

theorem FinishCounts.congr (h : FinishCounts s frames) (hf : s'.flows = s.flows)
    (hcb : s'.callbacks = s.callbacks) (hc : s'.completed = s.completed)
    (hfg : s'.fgRunning = s.fgRunning) : FinishCounts s' frames := by
  unfold FinishCounts expected
  rw [hf, hcb, hc, hfg]
  exact h

theorem FinishCounts.runFlow (h : FinishCounts s frames) (hlt : flow < s.flows.length) :
    FinishCounts (s.runFlow flow) frames := by
  have hsum := sum_eq_of_ne (f := expected (s.runFlow flow)) (g := expected s) hlt fun t ht => by
    have hcb : (s.runFlow flow).callbacks t = s.callbacks t := update_of_ne ht ..
    rw [expected, expected, hcb]
    rfl
  have hcb : (s.runFlow flow).callbacks flow = s.callbacks flow + 1 := update_self ..
  have hself : expected (s.runFlow flow) flow ≤
      expected s flow + if Foreground s.flows flow then 1 else 0 := by
    rw [expected, expected, hcb]
    change (if Foreground s.flows flow ∧ s.completed flow = false then _ else _) ≤ _
    by_cases hfg : Foreground s.flows flow
    · rw [if_pos hfg]
      split
      · exact Nat.le_refl _
      · exact Nat.zero_le _
    · rw [if_neg fun hand => hfg hand.1, if_neg fun hand => hfg hand.1, if_neg hfg]
  have hrunning : (s.runFlow flow).fgRunning =
      s.fgRunning + if Foreground s.flows flow then 1 else 0 := by
    cases hbg : (s.info flow).inBackground with
    | true =>
      rw [if_neg (FlowScheduler.not_foreground hbg)]
      exact if_pos hbg
    | false =>
      have hfg : Foreground s.flows flow := hbg
      rw [if_pos hfg]
      exact if_neg (by rw [hbg]; exact Bool.false_ne_true)
  unfold FinishCounts at h ⊢
  rw [hrunning]
  change ∑ t ∈ Finset.range s.flows.length, expected (s.runFlow flow) t +
    finishesOf s.flows frames ≤ _
  omega

theorem FinishCounts.notifyComplete (h : FinishCounts s frames) (hlt : flow < s.flows.length)
    (hc : s.completed flow = false) :
    FinishCounts { s with completed := update s.completed flow true }
      (.notifyComplete flow (s.callbacks flow) :: frames) := by
  have hsum := sum_eq_of_ne
    (f := expected { s with completed := update s.completed flow true }) (g := expected s) hlt
    fun t ht => by
      have hne : update s.completed flow true t = s.completed t := update_of_ne ht ..
      simp only [expected, hne]
  have hself : expected { s with completed := update s.completed flow true } flow = 0 := by
    simp [expected]
  have hframe : FlowFrame.finishes s.flows (.notifyComplete flow (s.callbacks flow)) =
    expected s flow := by
    simp only [FlowFrame.finishes, expected, hc, and_true]
  unfold FinishCounts at h ⊢
  rw [finishesOf_cons]
  dsimp only
  rw [hframe]
  omega

theorem FinishCounts.onFlowFinish (h : FinishCounts s (.notifyComplete flow (n + 1) :: frames))
    (he : Finished s s' flow) :
    FinishCounts s' (.onFlowFinish flow targets :: .notifyComplete flow n :: frames) := by
  have hfg := he.fgRunning
  have hflows : s'.flows = s.flows := by rw [he.rest]
  have hexpected : expected s' = expected s := by
    funext t
    rw [he.rest]
    rfl
  unfold FinishCounts at h ⊢
  rw [finishesOf_cons] at h
  rw [finishesOf_onFlowFinish, finishesOf_cons, hflows, hexpected]
  simp only [FlowFrame.finishes] at h ⊢
  split at h
  next hpos =>
    rw [if_pos hpos] at hfg ⊢
    omega
  next hneg =>
    rw [if_neg hneg] at hfg ⊢
    omega

/-- The assertion of `OnFlowFinish` does not fail. -/
theorem FinishCounts.finishFlow (h : FinishCounts s (.notifyComplete flow (n + 1) :: frames)) :
    ∃ s', s.finishFlow flow = some s' := by
  unfold FlowScheduler.finishFlow
  split
  next hfail =>
    simp only [Bool.and_eq_true, Bool.not_eq_true', decide_eq_true_eq] at hfail
    have hfg : Foreground s.flows flow := hfail.1
    unfold FinishCounts at h
    rw [finishesOf_cons, hfail.2] at h
    simp only [FlowFrame.finishes, if_pos hfg] at h
    omega
  next => exact ⟨_, rfl⟩

/-- A flow is created. -/
theorem FinishCounts.create (h : FinishCounts s frames) (hfresh : Fresh s frames) :
    FinishCounts { s with flows := s.flows ++ [info] } frames := by
  have hfg : ∀ t < s.flows.length, Foreground (s.flows ++ [info]) t ↔ Foreground s.flows t :=
    fun t ht => by
    simp [Foreground, List.getElem?_append_left ht]
  have hsum : ∑ t ∈ Finset.range s.flows.length, expected { s with flows := s.flows ++ [info] } t =
      ∑ t ∈ Finset.range s.flows.length, expected s t :=
    Finset.sum_congr rfl fun t ht => by simp only [expected, hfg t (Finset.mem_range.mp ht)]
  have hnew : expected { s with flows := s.flows ++ [info] } s.flows.length = 0 := by
    have hcb : s.callbacks s.flows.length = 0 :=
      congrArg FlowView.callbacks (hfresh.view _ (Nat.le_refl _))
    simp [expected, hcb]
  have hframes : finishesOf (s.flows ++ [info]) frames = finishesOf s.flows frames := by
    refine congrArg List.sum (List.map_congr_left fun frame hmem => ?_)
    cases frame with
    | notifyComplete flow n =>
      cases n with
      | zero => simp [FlowFrame.finishes]
      | succ n => simp only [FlowFrame.finishes, hfg flow (hfresh.lt_of_owes hmem rfl)]
    | outside | onFlowFinish => rfl
  unfold FinishCounts at h ⊢
  dsimp only
  rw [List.length_append, List.length_singleton, Finset.sum_range_succ, hsum, hnew, hframes]
  exact h

theorem FinishCounts.step (h : FinishCounts x.scheduler x.frames)
    (hfresh : Fresh x.scheduler x.frames)
    (hs : Step x call y) : FinishCounts y.scheduler y.frames := by
  have hout : ∀ {s frames}, FinishCounts s frames → FinishCounts s (.outside :: frames) :=
    fun h => by rwa [FinishCounts, finishesOf_outside]
  cases hs with
  | @start l time l' flow added s _ he =>
    have hlt : flow < s.flows.length := hfresh.lt_of_event he
    have h' : FinishCounts { s with now := time, events := l ++ l' } [] := h.congr rfl rfl rfl rfl
    exact hout (h'.runFlow hlt)
  | hold => exact h.congr rfl rfl rfl rfl
  | test => rw [checkForeground_rest]; exact h.congr rfl rfl rfl rfl
  | event => exact hout (h.congr rfl rfl rfl rfl)
  | create => exact h.create hfresh
  | addFlow => exact h.congr rfl rfl rfl rfl
  | addDependency _ _ hadd =>
    obtain ⟨d, -, hd⟩ := addDependency_spec hadd
    rw [hd.rest]
    exact h.congr rfl rfl rfl rfl
  | notifyComplete hcb hc =>
    refine h.notifyComplete (hfresh.lt fun heq => ?_) hc
    exact absurd (congrArg FlowView.callbacks heq) (Nat.ne_of_gt hcb)
  | callback => exact hout h
  | onFlowFinish hfin => exact h.onFlowFinish (finishFlow_spec hfin)
  | wait hr =>
    rw [(resolve_spec hr).rest]
    rw [FinishCounts, finishesOf_onFlowFinish] at h ⊢
    exact h
  | @run flow _ source targets stack s s' hr =>
    have hlt := hfresh.told _ _ List.mem_cons_self flow List.mem_cons_self
    have h' : FinishCounts s' (.onFlowFinish source targets :: stack) := by
      rw [(resolve_spec hr).rest]
      rw [FinishCounts, finishesOf_onFlowFinish] at h ⊢
      exact h
    refine hout (h'.runFlow ?_)
    rw [(resolve_spec hr).rest]
    exact hlt
  | finish =>
    rw [checkForeground_rest]
    rw [FinishCounts, finishesOf_onFlowFinish] at h
    exact h
  | leave => rwa [FinishCounts, finishesOf_outside] at h
  | completed =>
    rw [FinishCounts, finishesOf_cons] at h
    refine Nat.le_trans (Nat.add_le_add_left (Nat.le_add_left ..) _) h

end FlowSimulation
end Roce
