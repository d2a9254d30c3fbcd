import Roce.Flow.McastChains

/-! # The multicasts run in their chains

Each chain is a line of flows. The chains that have called `OnChainComplete` are those of which the
last wait has completed, up to the one that is just going to. -/

namespace Roce

open Function

namespace PhaseSimulation

open FlowSimulation
open AgFlowMcastPhase (addChains_spec addChains_isSome buildMulticastChains_spec)

variable {group : OrdMap Nat Unit} {roots : Nat} {x y : PhaseSimulation}
  {phase : AgFlowMcastPhase}

/-! ## The flows of the phase -/

/-- Two flows of a chain that follow each other. -/
theorem next_of_flatMap {chain : List PhaseMcast}
    (h : chain.flatMap PhaseMcast.flows = before ++ flow :: next :: rest) :
    (∃ mcast ∈ chain, mcast.multicast = flow ∧ mcast.wait = next) ∨
      ∃ mcast ∈ chain, mcast.wait = flow := by
  induction chain generalizing before with
  | nil => simp at h
  | cons mcast chain ih =>
    rw [List.flatMap_cons] at h
    match before with
    | [] =>
      cases h
      exact .inl ⟨mcast, List.mem_cons_self, rfl, rfl⟩
    | [b] =>
      obtain ⟨-, h⟩ := List.cons.inj h
      exact .inr ⟨mcast, List.mem_cons_self, (List.cons.inj h).1⟩
    | b :: b' :: before =>
      obtain ⟨-, h⟩ := List.cons.inj h
      rcases ih (List.cons.inj h).2 with ⟨m, hm, heq⟩ | ⟨m, hm, heq⟩
      · exact .inl ⟨m, List.mem_cons_of_mem _ hm, heq⟩
      · exact .inr ⟨m, List.mem_cons_of_mem _ hm, heq⟩

/-- The last wait of a chain is the last flow of its line. -/
theorem mem_lastWaits : wait ∈ phase.lastWaits ↔ ∃ chain ∈ phase.chains, ∃ before,
    chain.flatMap PhaseMcast.flows = before ++ [wait] := by
  rw [AgFlowMcastPhase.lastWaits, List.mem_filterMap]
  refine exists_congr fun chain => and_congr_right fun _ => ?_
  rcases List.eq_nil_or_concat chain with rfl | ⟨init, mcast, rfl⟩
  · simp
  · rw [List.concat_eq_append, List.getLast?_concat, Option.map_some, Option.some_inj,
      List.flatMap_append, List.flatMap_singleton]
    constructor
    · rintro rfl
      exact ⟨init.flatMap PhaseMcast.flows ++ [mcast.multicast], by simp [PhaseMcast.flows]⟩
    · rintro ⟨before, h⟩
      rw [PhaseMcast.flows, List.append_cons] at h
      exact (List.cons.inj (List.append_inj' h rfl).2).1

theorem lastWaits_sublist (phase : AgFlowMcastPhase) :
    phase.lastWaits.Sublist phase.lines.flatten := by
  rw [AgFlowMcastPhase.lastWaits, AgFlowMcastPhase.lines]
  generalize phase.chains = chains
  induction chains with
  | nil => exact .slnil
  | cons chain chains ih =>
    rw [List.filterMap_cons, List.map_cons, List.flatten_cons]
    split
    next => exact ih.trans (List.sublist_append_right ..)
    next wait hw =>
      obtain ⟨mcast, hlast, rfl⟩ := Option.map_eq_some_iff.mp hw
      refine (List.singleton_sublist.mpr ?_).append ih
      exact List.mem_flatMap.mpr ⟨mcast, List.mem_of_getLast? hlast, by simp [PhaseMcast.flows]⟩

theorem lastWaits_subset : phase.lastWaits ⊆ phase.lines.flatten := (lastWaits_sublist phase).subset

/-! ## The invariant -/

/-- The lines of the chains, and how many of them have called `OnChainComplete`. -/
structure Inv (group : OrdMap Nat Unit) (roots : Nat) (x : PhaseSimulation) : Prop where
  lines : Lines x.sim.scheduler x.sim.frames x.phase.lines
  counts : FinishCounts x.sim.scheduler x.sim.frames
  notifying : Notifying x.sim
  flow_lt : x.phase.flow < x.sim.scheduler.flows.length
  flow_not : x.phase.flow ∉ x.phase.lines.flatten
  starts_le : x.phase.starts ≤ x.sim.scheduler.callbacks x.phase.flow
  starting : x.phase.starts < x.sim.scheduler.callbacks x.phase.flow →
    ∃ stack, x.sim.frames = .outside :: stack
  starts : x.phase.starts ≤ 1
  unstarted : x.phase.starts = 0 → x.phase.chains = [] ∧ x.phase.notified = 0
  sources : 0 < x.phase.starts → x.phase.mcasts.map (·.mcastSrc) = group.keys ∧
    x.phase.chains.length = roots ∧ x.phase.numChains = roots
  nonempty : ∀ chain ∈ x.phase.chains, chain ≠ []
  calledBack : x.phase.calledBack.Nodup ∧ x.phase.calledBack ⊆ x.phase.lastWaits
  completedChains : x.phase.completedChains = x.phase.calledBack.length
  called : ∀ wait ∈ x.phase.calledBack, x.sim.scheduler.completed wait = true
  due : ∀ wait ∈ x.phase.lastWaits, x.sim.scheduler.completed wait = true →
    wait ∈ x.phase.calledBack ∨ ∃ n stack, x.sim.frames = .notifyComplete wait n :: stack
  notified : x.phase.notified ≤ 1
  complete : 0 < x.phase.starts → (x.phase.notified = 1 ↔
    x.phase.completedChains = x.phase.numChains)
  flow_completed : x.sim.scheduler.completed x.phase.flow = true ↔ x.phase.notified = 1

theorem Inv.length_lastWaits (h : Inv group roots x) :
    x.phase.lastWaits.length = x.phase.chains.length := by
  rw [AgFlowMcastPhase.lastWaits]
  have hne := h.nonempty
  generalize x.phase.chains = chains at hne
  induction chains with
  | nil => rfl
  | cons chain chains ih =>
    obtain ⟨hchain, hne⟩ := List.forall_mem_cons.mp hne
    have hlast : (chain.getLast?.map (·.wait)) = some (chain.getLast hchain).wait := by
      rw [List.getLast?_eq_some_getLast hchain, Option.map_some]
    rw [List.filterMap_cons]
    simp only [hlast]
    rw [List.length_cons, List.length_cons, ih hne]

/-- No flow of a chain completes before the event of the next one. -/
theorem Inv.afterStart {sim : FlowSimulation} {call : FlowCall} (h : Inv group roots ⟨sim, phase⟩)
    (hothers : phase.Others sim.scheduler call)
    (hturn : StartsInTurn ⟨sim, phase⟩ (.sim call)) :
      AfterStart phase.lines sim.scheduler call := by
  cases call with
  | notifyComplete flow =>
    intro line hl before next rest hline hsched
    obtain ⟨chain, hchain, rfl⟩ := List.mem_map.mp hl
    rcases next_of_flatMap hline with ⟨mcast, hm, hflow, rfl⟩ | ⟨mcast, hm, hflow⟩
    · exact hturn mcast (List.mem_flatten.mpr ⟨chain, hchain, hm⟩) hflow hsched
    · have hmem : next ∈ phase.lines.flatten :=
        List.mem_flatten.mpr ⟨_, hl, hline ▸ by simp⟩
      obtain ⟨time, he⟩ := scheduled_iff.mp hsched
      have hnow : time = sim.scheduler.now :=
        Int.le_antisymm (h.lines.pending next hmem time he) (h.lines.future _ he)
      rw [hnow] at he
      exact hothers.2 ⟨mcast, List.mem_flatten.mpr ⟨chain, hchain, hm⟩, hflow⟩ next hmem he
  | _ => trivial

theorem foreign_of_others {s : FlowScheduler} {call : FlowCall} (h : phase.Others s call) :
    Foreign phase.lines.flatten call := by
  cases call with
  | addFlow | addDependency => exact h
  | _ => trivial

/-- A step of the simulation that is not one of the phase. -/
theorem Inv.sim {sim sim' : FlowSimulation} {call : FlowCall} (h : Inv group roots ⟨sim, phase⟩)
    (hturn : StartsInTurn ⟨sim, phase⟩ (.sim call))
    (hstarts : phase.starts = sim.scheduler.callbacks phase.flow)
    (hothers : phase.Others sim.scheduler call)
    (hback : ∀ wait n stack, sim.frames = .notifyComplete wait n :: stack → wait ∈ phase.lastWaits →
      wait ∈ phase.calledBack)
    (hs : FlowSimulation.Step sim call sim') : Inv group roots ⟨sim', phase⟩ := by
  constructor
  case lines => exact h.lines.step hs (foreign_of_others hothers) (h.afterStart hothers hturn)
  case counts => exact h.counts.step h.lines.fresh hs
  case notifying => exact h.notifying.step hs
  case flow_lt => exact Nat.lt_of_lt_of_le h.flow_lt hs.flows.length_le
  case flow_not => exact h.flow_not
  case starts_le =>
    refine Nat.le_trans (Nat.le_of_eq hstarts) ?_
    rcases hs.callbacks_eq (t := phase.flow) with heq | ⟨hle, -⟩
    · exact Nat.le_of_eq heq.symm
    · exact hle
  case starting =>
    intro hlt
    rcases hs.callbacks_eq (t := phase.flow) with heq | ⟨-, hframes⟩
    · exact absurd (hstarts.trans heq.symm) (Nat.ne_of_lt hlt)
    · exact hframes
  case starts => exact h.starts
  case unstarted => exact h.unstarted
  case sources => exact h.sources
  case nonempty => exact h.nonempty
  case calledBack => exact h.calledBack
  case completedChains => exact h.completedChains
  case called =>
    intro wait hw
    have hc := h.called wait hw
    exact hs.completed_eq.elim (·.trans hc) (·.2.1)
  case due =>
    intro wait hw hc
    rcases hs.completed_eq (t := wait) with heq | ⟨-, -, hframes⟩
    · rcases h.due wait hw (heq ▸ hc) with hcalled | ⟨n, stack, hframes⟩
      · exact .inl hcalled
      · exact .inl (hback wait n stack hframes hw)
    · exact .inr hframes
  case notified => exact h.notified
  case complete => exact h.complete
  case flow_completed =>
    rcases hs.completed_eq (t := phase.flow) with heq | ⟨rfl, -⟩
    · rw [heq]
      exact h.flow_completed
    · exact absurd rfl hothers.1

/-- `OnFlowStarted`, which is called once. -/
theorem Inv.onFlowStarted {s s' : FlowScheduler} {chains : List (List PhaseMcast)}
    (hdvd : roots ∣ group.keys.length) (hne : group.keys ≠ [])
    (h : Inv group roots ⟨⟨s, added, .outside :: stack⟩, phase⟩) (hzero : phase.starts = 0)
    (hcb : phase.starts < s.callbacks phase.flow)
    (horder : AgFlowMcastPhase.buildMulticastChains group.keys roots = some order)
    (hchains : AgFlowMcastPhase.addChains s order = some (s', chains)) :
    Inv group roots ⟨⟨s', added', .outside :: stack⟩, { phase with
      starts := phase.starts + 1, chains := phase.chains ++ chains
      numChains := order.length }⟩ := by
  obtain ⟨hnil, hnotified⟩ := h.unstarted hzero
  obtain ⟨hflatten, hlength, hchain⟩ := buildMulticastChains_spec hdvd horder
  have hfresh : Fresh s (.outside :: stack) := h.lines.fresh
  have hlines : phase.lines = [] := by rw [AgFlowMcastPhase.lines, hnil, List.map_nil]
  have hempty : Lines s (.outside :: stack) [] := hlines ▸ h.lines
  have hbuilding : Building s s stack [] [] := by
    refine ⟨hempty.of_flatten (by simp) fun line hl => .inl ?_, h.counts, rfl, List.prefix_rfl,
      fun flow hf => absurd hf List.not_mem_nil⟩
    exact List.mem_singleton.mp hl
  obtain ⟨hbuilt, hsrcs, hnew⟩ := addChains_spec hfresh hbuilding hchains
  have hrest := hbuilt.rest
  have hcompleted : s'.completed = s.completed := by rw [hrest]
  have hcallbacks : s'.callbacks = s.callbacks := by rw [hrest]
  have hold : ∀ flow ∈ (chains.map (·.flatMap PhaseMcast.flows)).flatten,
    s.completed flow = false :=
    fun flow hf => congrArg FlowView.completed (hfresh.view flow (hnew flow hf))
  have hlast : ∀ wait ∈ AgFlowMcastPhase.lastWaits { phase with
      starts := phase.starts + 1, chains := phase.chains ++ chains, numChains := order.length },
      s'.completed wait = false := by
    intro wait hw
    have hmem := lastWaits_subset hw
    rw [AgFlowMcastPhase.lines, hnil, List.nil_append] at hmem
    rw [hcompleted]
    exact hold wait hmem
  have hcalled : phase.calledBack = [] := by
    have hsub := h.calledBack.2
    rw [AgFlowMcastPhase.lastWaits, hnil] at hsub
    exact List.subset_nil.mp hsub
  have hroots : roots ≠ 0 := by
    rintro rfl
    exact hne (List.length_eq_zero_iff.mp (Nat.zero_dvd.mp hdvd))
  have hcount : phase.completedChains = 0 := by
    rw [h.completedChains, hcalled]
    rfl
  constructor
  case lines =>
    dsimp only
    rw [AgFlowMcastPhase.lines, hnil]
    refine hbuilt.lines.of_flatten (by simp) fun line hl => .inr ?_
    exact List.mem_append_left _ (by simpa using hl)
  case counts => exact hbuilt.counts
  case notifying =>
    intro flow n hmem
    rw [hcompleted]
    exact h.notifying flow n hmem
  case flow_lt => exact Nat.lt_of_lt_of_le h.flow_lt hbuilt.flows.length_le
  case flow_not =>
    rw [AgFlowMcastPhase.lines, hnil, List.nil_append]
    exact fun hmem => Nat.not_lt_of_le (hnew _ hmem) h.flow_lt
  case starts_le =>
    dsimp only
    rw [hcallbacks]
    exact hcb
  case starting => exact fun _ => ⟨stack, rfl⟩
  case starts =>
    dsimp only
    rw [hzero]
  case unstarted => exact fun heq => absurd heq (Nat.succ_ne_zero _)
  case sources =>
    intro _
    have hmap : chains.flatten.map (·.mcastSrc) = group.keys := by
      rw [List.map_flatten, hsrcs, hflatten]
    have hlen : chains.length = roots := by rw [← hlength, ← hsrcs, List.length_map]
    dsimp only [AgFlowMcastPhase.mcasts]
    rw [hnil, List.nil_append]
    exact ⟨hmap, hlen, hlength⟩
  case nonempty =>
    dsimp only
    rw [hnil, List.nil_append]
    rintro chain hmem rfl
    refine hchain hne [] ?_ rfl
    rw [← hsrcs]
    exact List.mem_map.mpr ⟨[], hmem, rfl⟩
  case calledBack =>
    dsimp only
    rw [hcalled]
    exact ⟨List.nodup_nil, List.nil_subset _⟩
  case completedChains => exact h.completedChains
  case called =>
    dsimp only
    rw [hcalled]
    exact fun wait hw => absurd hw List.not_mem_nil
  case due =>
    intro wait hw hc
    dsimp only at hc
    rw [hlast wait hw] at hc
    cases hc
  case notified => exact h.notified
  case complete =>
    intro _
    dsimp only
    rw [hnotified, hcount, hlength]
    exact iff_of_false Nat.zero_ne_one hroots.symm
  case flow_completed =>
    dsimp only
    rw [hcompleted]
    exact h.flow_completed

theorem Inv.starts_pos (h : Inv group roots x) (hw : wait ∈ x.phase.lastWaits) :
    0 < x.phase.starts := by
  refine Nat.pos_of_ne_zero fun hzero => ?_
  rw [AgFlowMcastPhase.lastWaits, (h.unstarted hzero).1] at hw
  exact List.not_mem_nil hw

/-- A chain that has not called `OnChainComplete` is one of those that are awaited. -/
theorem Inv.completedChains_lt (h : Inv group roots x) (hw : wait ∈ x.phase.lastWaits)
    (hnew : wait ∉ x.phase.calledBack) : x.phase.completedChains + 1 ≤ x.phase.numChains := by
  obtain ⟨hnodup, hsub⟩ := h.calledBack
  obtain ⟨-, hlength, hnum⟩ := h.sources (h.starts_pos hw)
  have hle := (List.Nodup.cons hnew hnodup).subperm (List.cons_subset.mpr ⟨hw, hsub⟩) |>.length_le
  rw [List.length_cons, h.length_lastWaits, hlength] at hle
  rwa [h.completedChains, hnum]

/-- `OnChainComplete` of a chain that is not the last one. -/
theorem Inv.onChainComplete {s : FlowScheduler}
    (h : Inv group roots ⟨⟨s, added, .notifyComplete wait n :: stack⟩, phase⟩)
    (hw : wait ∈ phase.lastWaits) (hnew : wait ∉ phase.calledBack)
    (hlt : phase.completedChains + 1 < phase.numChains) :
    Inv group roots ⟨⟨s, added, .notifyComplete wait n :: stack⟩, { phase with
      completedChains := phase.completedChains + 1, calledBack := wait :: phase.calledBack }⟩ := by
  constructor
  case lines => exact h.lines
  case counts => exact h.counts
  case notifying => exact h.notifying
  case flow_lt => exact h.flow_lt
  case flow_not => exact h.flow_not
  case starts_le => exact h.starts_le
  case starting => exact h.starting
  case starts => exact h.starts
  case unstarted => exact h.unstarted
  case sources => exact h.sources
  case nonempty => exact h.nonempty
  case calledBack =>
    exact ⟨List.Nodup.cons hnew h.calledBack.1, List.cons_subset.mpr ⟨hw, h.calledBack.2⟩⟩
  case completedChains => exact congrArg (· + 1) h.completedChains
  case called =>
    exact List.forall_mem_cons.mpr ⟨h.notifying wait n List.mem_cons_self, h.called⟩
  case due => exact fun w hwait hc => (h.due w hwait hc).imp (List.mem_cons_of_mem _) id
  case notified => exact h.notified
  case complete =>
    intro hpos
    have hiff := h.complete hpos
    dsimp only at hiff ⊢
    rw [hiff]
    omega
  case flow_completed => exact h.flow_completed

/-- `OnChainComplete` of the last chain, and the entry of `NotifyComplete` of the phase. -/
theorem Inv.notifyComplete {s : FlowScheduler}
    (h : Inv group roots ⟨⟨s, added, .notifyComplete wait n :: stack⟩, phase⟩)
    (hw : wait ∈ phase.lastWaits) (hnew : wait ∉ phase.calledBack)
    (heq : phase.completedChains + 1 = phase.numChains) (hc : s.completed phase.flow = false) :
    Inv group roots
      ⟨⟨{ s with completed := update s.completed phase.flow true }, added,
          .notifyComplete phase.flow (s.callbacks phase.flow) :: .outside ::
            .notifyComplete wait n :: stack⟩,
        { phase with
          completedChains := phase.completedChains + 1, calledBack := wait :: phase.calledBack
          notified := phase.notified + 1 }⟩ := by
  have hpos := h.starts_pos hw
  have hcb : 0 < s.callbacks phase.flow := Nat.lt_of_lt_of_le hpos h.starts_le
  have hne : wait ≠ phase.flow := fun heq => h.flow_not (heq ▸ lastWaits_subset hw)
  have hzero : phase.notified = 0 := by
    have hnot : phase.notified ≠ 1 := fun hone => by
      have htrue := h.flow_completed.mpr hone
      rw [hc] at htrue
      cases htrue
    exact (Nat.le_one_iff_eq_zero_or_eq_one.mp h.notified).resolve_right hnot
  -- The call is a callback that completes the phase.
  have hcallback : FlowSimulation.Step ⟨s, added, .notifyComplete wait n :: stack⟩ .callback _ :=
    .callback
  have hnotify : FlowSimulation.Step ⟨s, added, .outside :: .notifyComplete wait n :: stack⟩
      (.notifyComplete phase.flow) _ := .notifyComplete hcb hc
  have hafter : AfterStart phase.lines s (.notifyComplete phase.flow) := by
    intro line hl before next rest hline
    refine absurd (List.mem_flatten.mpr ⟨line, hl, ?_⟩) h.flow_not
    rw [hline]
    exact List.mem_append_right _ List.mem_cons_self
  have hlines := h.lines.step hcallback trivial trivial
  constructor
  case lines => exact hlines.step hnotify trivial hafter
  case counts => exact (h.counts.step h.lines.fresh hcallback).step hlines.fresh hnotify
  case notifying => exact (h.notifying.step hcallback).step hnotify
  case flow_lt => exact h.flow_lt
  case flow_not => exact h.flow_not
  case starts_le => exact h.starts_le
  case starting =>
    intro hlt
    obtain ⟨stack', hframes⟩ := h.starting hlt
    cases hframes
  case starts => exact h.starts
  case unstarted =>
    exact fun hz => absurd hpos (by dsimp only at hz; rw [hz]; exact Nat.lt_irrefl 0)
  case sources => exact h.sources
  case nonempty => exact h.nonempty
  case calledBack =>
    exact ⟨List.Nodup.cons hnew h.calledBack.1, List.cons_subset.mpr ⟨hw, h.calledBack.2⟩⟩
  case completedChains => exact congrArg (· + 1) h.completedChains
  case called =>
    intro w hmem
    have htrue : s.completed w = true := by
      rcases List.mem_cons.mp hmem with rfl | hmem
      · exact h.notifying w n List.mem_cons_self
      · exact h.called w hmem
    refine (update_apply ..).trans ?_
    rw [htrue, ite_self]
  case due =>
    intro w hwait hcw
    have hcw : s.completed w = true := by
      have hwne : w ≠ phase.flow := fun heq => h.flow_not (heq ▸ lastWaits_subset hwait)
      exact (update_of_ne hwne ..).symm.trans hcw
    refine .inl ?_
    rcases h.due w hwait hcw with hcalled | ⟨n', stack', hframes⟩
    · exact List.mem_cons_of_mem _ hcalled
    · cases hframes
      exact List.mem_cons_self
  case notified =>
    dsimp only
    rw [hzero]
  case complete =>
    intro _
    dsimp only
    rw [hzero]
    exact iff_of_true rfl heq
  case flow_completed =>
    dsimp only
    rw [hzero, update_self]
    exact iff_of_true rfl rfl

theorem Inv.init (h : (machine infos flow group roots).init x) : Inv group roots x := by
  obtain ⟨⟨s, hs, hsim⟩, hphase, hlt⟩ := h
  obtain ⟨sim, phase⟩ := x
  subst hsim hphase
  have hfresh := Fresh.construct hs
  obtain ⟨hevents, hnow, -⟩ := FlowScheduler.tracked_construct hs
  have hzero := callbacks_construct hs
  have hfuture : ∀ e ∈ s.events, s.now ≤ e.1 := by
    rw [hevents, hnow]
    refine List.forall_mem_append.mpr ⟨fun e he => ?_,
      List.forall_mem_singleton.mpr (Int.le_refl 0)⟩
    obtain ⟨⟨info, t⟩, -, rfl⟩ := List.mem_map.mp he
    exact le_max_left ..
  constructor
  case lines =>
    refine ⟨hfresh, List.nodup_nil, ?_, ?_, ?_, ?_, ?_, Int.le_of_eq hnow.symm, hfuture, ?_⟩
    all_goals simp [AgFlowMcastPhase.lines]
  case counts =>
    have hsum : ∑ t ∈ Finset.range s.flows.length, expected s t = 0 := by
      refine Finset.sum_eq_zero fun t _ => ?_
      rw [expected, (hzero t).1, ite_self]
    unfold FinishCounts
    dsimp only
    rw [hsum]
    exact Nat.zero_le _
  case notifying => exact fun flow n hmem => absurd hmem List.not_mem_nil
  case flow_lt => exact hlt
  case starts_le => exact Nat.zero_le _
  case starting =>
    exact fun hpos => absurd hpos (by dsimp only; rw [(hzero _).1]; exact Nat.lt_irrefl 0)
  case flow_completed => simp [(hzero flow).2]
  case flow_not | starts | unstarted | sources | nonempty | calledBack | completedChains | called |
    due |
      notified | complete =>
    simp [AgFlowMcastPhase.lines, AgFlowMcastPhase.lastWaits]

/-! ## The schedule -/

theorem Inv.step (hdvd : roots ∣ group.keys.length) (hne : group.keys ≠ [])
    (h : Inv group roots x) (hturn : StartsInTurn x call) (hs : Step group roots x call y) :
    Inv group roots y := by
  cases hs with
  | sim hstarts hothers hback hs => exact h.sim hturn hstarts hothers hback hs
  | onFlowStarted hcb horder hchains => exact h.onFlowStarted hdvd hne hturn hcb horder hchains
  | onChainComplete hw hnew hlt => exact h.onChainComplete hw hnew hlt
  | notifyComplete hw hnew heq hc => exact h.notifyComplete hw hnew heq hc

theorem Inv.lastWaits_called (h : Inv group roots x) (hone : x.phase.notified = 1) :
    ∀ wait ∈ x.phase.lastWaits, wait ∈ x.phase.calledBack := by
  have hpos : 0 < x.phase.starts := by
    refine Nat.pos_of_ne_zero fun hzero => ?_
    rw [(h.unstarted hzero).2] at hone
    cases hone
  obtain ⟨hnodup, hsub⟩ := h.calledBack
  obtain ⟨-, hlength, hnum⟩ := h.sources hpos
  have hcount := (h.complete hpos).mp hone
  rw [h.completedChains, hnum] at hcount
  have hle : x.phase.lastWaits.length ≤ x.phase.calledBack.length := by
    rw [h.length_lastWaits, hlength, hcount]
  exact fun wait hw => ((hnodup.subperm hsub).perm_of_length_le hle).mem_iff.mpr hw

/-- The phase completes after all its flows. -/
theorem Inv.completed (h : Inv group roots x) (hone : x.phase.notified = 1) :
    ∀ flow ∈ x.phase.lines.flatten, x.sim.scheduler.completed flow = true := by
  intro flow hmem
  obtain ⟨line, hl, hf⟩ := List.mem_flatten.mp hmem
  obtain ⟨chain, hchain, rfl⟩ := List.mem_map.mp hl
  obtain ⟨init, mcast, rfl⟩ : ∃ init mcast, chain = init ++ [mcast] := by
    rcases List.eq_nil_or_concat chain with rfl | ⟨init, mcast, rfl⟩
    · exact absurd rfl (h.nonempty _ hchain)
    · exact ⟨init, mcast, List.concat_eq_append⟩
  have hsplit : (init ++ [mcast]).flatMap PhaseMcast.flows =
      (init.flatMap PhaseMcast.flows ++ [mcast.multicast]) ++ [mcast.wait] := by
    simp [PhaseMcast.flows]
  have hlast := mem_lastWaits.mpr ⟨_, hchain, _, hsplit⟩
  have hdone := h.called _ (h.lastWaits_called hone _ hlast)
  have hline := h.lines.line _ hl
  have hpairs := hline.pairwise
  rw [hsplit, List.pairwise_append] at hpairs
  rw [hsplit, List.mem_append] at hf
  rcases hf with hf | hf
  · have hpos := hline.callbacks_of_completed
      (hsplit ▸ List.mem_append_right _ (List.mem_singleton_self _)) hdone
    exact congrArg FlowView.completed (hpairs.2.2 flow hf _ (List.mem_singleton_self _) hpos)
  · rwa [List.mem_singleton.mp hf]

/-- The innermost frame goes on, or is left. -/
theorem Inv.ends (hdvd : roots ∣ group.keys.length) (hne : group.keys ≠ []) (h : Inv group roots x)
    (hframes : x.sim.frames = frame :: stack)
    (hown : ∀ flow targets, frame = .onFlowFinish flow targets → flow ∈ x.phase.lines.flatten) :
    ∃ call y, Step group roots x call y := by
  obtain ⟨⟨s, added, frames⟩, phase⟩ := x
  obtain rfl : frames = frame :: stack := hframes
  by_cases hcb : phase.starts = s.callbacks phase.flow
  · have hgo : ∀ {call sim'}, phase.Others s call →
        (∀ wait n stack', frame :: stack = .notifyComplete wait n :: stack' →
          wait ∈ phase.lastWaits → wait ∈ phase.calledBack) →
        FlowSimulation.Step ⟨s, added, frame :: stack⟩ call sim' →
        ∃ call y, Step group roots ⟨⟨s, added, frame :: stack⟩, phase⟩ call y :=
      fun hothers hback hs => ⟨_, _, .sim hcb hothers hback hs⟩
    cases frame with
    | outside => exact @hgo .leave _ trivial (fun _ _ _ heq => by cases heq) .leave
    | notifyComplete wait n =>
      by_cases hw : wait ∈ phase.lastWaits ∧ wait ∉ phase.calledBack
      · rcases Nat.lt_or_eq_of_le (h.completedChains_lt hw.1 hw.2) with hlt | heq
        · exact ⟨_, _, .onChainComplete hw.1 hw.2 hlt⟩
        · refine ⟨_, _, .notifyComplete hw.1 hw.2 heq ?_⟩
          have hnot : phase.notified ≠ 1 := fun hone => by
            have hcount := (h.complete (h.starts_pos hw.1)).mp hone
            exact Nat.succ_ne_self _ (heq.trans hcount.symm)
          exact Bool.eq_false_iff.mpr fun htrue => hnot (h.flow_completed.mp htrue)
      · have hback : ∀ wait' n' stack', FlowFrame.notifyComplete wait n :: stack =
            .notifyComplete wait' n' :: stack' → wait' ∈ phase.lastWaits →
              wait' ∈ phase.calledBack := by
          intro wait' n' stack' heq hw'
          cases heq
          exact by_contra fun hnew => hw ⟨hw', hnew⟩
        cases n with
        | zero => exact @hgo .leave _ trivial hback .completed
        | succ n =>
          obtain ⟨s', hfin⟩ := h.counts.finishFlow
          exact @hgo .onFlowFinish _ trivial hback (.onFlowFinish hfin (.refl _))
    | onFlowFinish source targets =>
      cases targets with
      | nil => exact @hgo .checkForeground _ trivial (fun _ _ _ heq => by cases heq) .finish
      | cons target targets =>
        obtain ⟨next, s', rfl, hr, hrem, hstart⟩ := h.lines.resolve (hown source _ rfl)
        exact @hgo (.tell (some next)) _ trivial (fun _ _ _ heq => by cases heq)
          (.run hr hrem hstart)
  · have hlt := Nat.lt_of_le_of_ne h.starts_le hcb
    obtain ⟨stack', hout⟩ := h.starting hlt
    cases hout
    obtain ⟨order, horder⟩ : ∃ order,
        AgFlowMcastPhase.buildMulticastChains group.keys roots = some order :=
      ⟨_, if_neg (by simpa using Nat.mod_eq_zero_of_dvd hdvd)⟩
    obtain ⟨s', chains, hchains⟩ := addChains_isSome (s := s)
      ((buildMulticastChains_spec hdvd horder).2.2 hne)
    exact ⟨_, _, .onFlowStarted hlt horder hchains⟩

/-- The multicasts run in their chains, if the phase is started once and no multicast completes
before the event of its wait has run. -/
theorem runs_in_chains (hdvd : roots ∣ group.keys.length) (hne : group.keys ≠ [])
    (h : ((machine infos flow group roots).restrict StartsInTurn).Reachable x) :
    RunsInChains group roots x := by
  have hinv : Inv group roots x := by
    refine h.invariant (fun hinit => ?_) fun _ hi hs => ?_
    · exact .init hinit
    · exact hi.step hdvd hne hs.1 hs.2
  have hchain : ∀ chain ∈ x.phase.chains, chain.flatMap PhaseMcast.flows ∈ x.phase.lines :=
    fun _ hc =>
    List.mem_map_of_mem hc
  have hpairs : ∀ chain ∈ x.phase.chains, _ := fun chain hc =>
    List.pairwise_flatMap.mp (hinv.lines.line _ (hchain chain hc)).pairwise
  have hdone : ∀ {flow}, view x.sim.scheduler x.sim.frames flow = .finished →
      x.sim.scheduler.completed flow = true := fun hv => congrArg FlowView.completed hv
  constructor
  case sources => exact fun hpos => (hinv.sources hpos).1
  case chainCount => exact fun hpos => (hinv.sources hpos).2.1
  case distinct => exact hinv.lines.nodup
  case once =>
    intro flow hmem
    obtain ⟨line, hl, hf⟩ := List.mem_flatten.mp hmem
    exact (hinv.lines.line line hl).callbacks_le hf
  case order =>
    intro chain hc
    refine (hpairs chain hc).2.imp fun {mcast next} hp hpos => ⟨hdone ?_, hdone ?_⟩
    · exact hp _ List.mem_cons_self _ List.mem_cons_self hpos
    · exact hp _ (List.mem_cons_of_mem _ List.mem_cons_self) _ List.mem_cons_self hpos
  case waits =>
    intro mcast hm hpos
    obtain ⟨chain, hc, hm⟩ := List.mem_flatten.mp hm
    have hp := (hpairs chain hc).1 mcast hm
    exact hdone ((List.pairwise_cons.mp hp).1 _ (List.mem_singleton_self _) hpos)
  case single =>
    intro line hl flow hf flow' hf' hr hr'
    exact (hinv.lines.line line hl).eq_of_running hf hf' hr.1 hr.2 hr'.1 hr'.2
  case notified => exact hinv.notified
  case after =>
    intro hpos
    refine ⟨Nat.pos_of_ne_zero fun hzero => ?_, hinv.completed (Nat.le_antisymm hinv.notified hpos)⟩
    rw [(hinv.unstarted hzero).2] at hpos
    exact Nat.lt_irrefl 0 hpos
  case notifies =>
    intro hframes hpos hall
    obtain ⟨hnodup, hsub⟩ := hinv.calledBack
    obtain ⟨-, hlength, hnum⟩ := hinv.sources hpos
    have hcalled : x.phase.lastWaits ⊆ x.phase.calledBack := by
      intro wait hw
      refine (hinv.due wait hw (hall wait (lastWaits_subset hw))).resolve_right ?_
      rintro ⟨n, stack, heq⟩
      rw [hframes] at heq
      cases heq
    have hlast := hinv.lines.nodup.sublist (lastWaits_sublist x.phase)
    refine (hinv.complete hpos).mpr ?_
    rw [hinv.completedChains, hnum, ← hlength, ← hinv.length_lastWaits]
    exact Nat.le_antisymm (hnodup.subperm hsub).length_le (hlast.subperm hcalled).length_le
  case runs =>
    intro hframes line hl hopen
    obtain ⟨flow, hf, hc⟩ := hopen
    have hline := hinv.lines.line line hl
    rw [hframes] at hline
    obtain ⟨head, hmem, hrun | hsched⟩ := hline.exists_running hf hc
    · exact ⟨head, hmem, .inl hrun⟩
    · obtain ⟨time, he⟩ := scheduled_iff.mp hsched
      have hle := hinv.lines.pending head (List.mem_flatten.mpr ⟨line, hl, hmem⟩) time he
      rw [Int.le_antisymm hle (hinv.lines.future _ he)] at he
      exact ⟨head, hmem, .inr he⟩
  case ends => exact fun frame stack hframes hown => hinv.ends hdvd hne hframes hown

/-- The assertion of the loop over the targets fails. -/
theorem no_step_of_told {s : FlowScheduler} {rest : List FlowPtr}
    (hzero : s.remDependencies target = 0) :
    ¬Step group roots ⟨⟨s, added, .onFlowFinish source (target :: rest) :: stack⟩, phase⟩
      call y := by
  have hr : s.resolve target = none := if_pos hzero
  intro hs
  cases hs with
  | sim _ _ _ hs =>
    cases hs with
    | wait hs | run hs =>
      rw [hr] at hs
      cases hs

/-- A step of the simulation in which no chain completes. -/
theorem reachable_sim {x y : FlowSimulation} {call : FlowCall}
    (hx : ((machine infos flow group roots).restrict StartsInTurn).Reachable ⟨x, phase⟩)
    (hs : FlowSimulation.Step x call y) (hstarts : phase.starts = x.scheduler.callbacks phase.flow)
    (hothers : phase.Others x.scheduler call) (hturn : StartsInTurn ⟨x, phase⟩ (.sim call))
    (hlast : ∀ wait n stack, x.frames = .notifyComplete wait n :: stack → wait ∉ phase.lastWaits) :
    ((machine infos flow group roots).restrict StartsInTurn).Reachable ⟨y, phase⟩ :=
  hx.step ⟨hturn, .sim hstarts hothers
    (fun wait n stack hframes hw => absurd hw (hlast wait n stack hframes)) hs⟩

/-- A phase with one chain of two servers has been started, between two other events. -/
theorem reachable_started :
    ((machine [{ id := "phase", enable := true }] 0 ⟨[(1, ()), (2, ())], by decide⟩ 1).restrict
      StartsInTurn).Reachable
      ⟨⟨{ flows := [{ id := "phase", enable := true }, {}, {}, {}, {}]
          names := fun flow =>
            [{ id := "phase", enable := true : SerializedFlow }][flow]?.map (·.id)
          callbacks := update (fun _ => 0) 0 1
          fgRunning := 1
          dependencies := update (update (update (fun _ => []) 1 [some 2]) 2 [some 3]) 3 [some 4]
          remDependencies := update (update (update (fun _ => 0) (some 2) 1) (some 3) 1) (some 4) 1
          events := [(0, .start 1), (0, .start 2), (0, .start 3), (0, .start 4)] },
        [4, 3, 2, 1, 0], []⟩,
        { flow := 0, chains := [[⟨1, 1, 2⟩, ⟨2, 3, 4⟩]], numChains := 1, starts := 1 }⟩ := by
  let infos : List SerializedFlow := [{ id := "phase", enable := true }]
  let group : OrdMap Nat Unit := ⟨[(1, ()), (2, ())], by decide⟩
  let s₀ : FlowScheduler :=
    { flows := infos
      names := fun flow => infos[flow]?.map (·.id)
      events := [(0, .start 0), (0, .checkForeground)] }
  let s₁ : FlowScheduler :=
    { flows := infos ++ [{}] ++ [{}] ++ [{}] ++ [{}]
      names := fun flow => infos[flow]?.map (·.id)
      callbacks := update (fun _ => 0) 0 1
      fgRunning := 1
      dependencies := update (update (update (fun _ => []) 1 [some 2]) 2 [some 3]) 3 [some 4]
      remDependencies := update (update (update (fun _ => 0) (some 2) 1) (some 3) 1) (some 4) 1
      events := [(0, .checkForeground), (0, .start 1), (0, .start 2), (0, .start 3),
        (0, .start 4)] }
  have horder : AgFlowMcastPhase.buildMulticastChains group.keys 1 = some [[1, 2]] :=
    show AgFlowMcastPhase.buildMulticastChains [1, 2] 1 = some [[1, 2]] from rfl
  have hstart : FlowSimulation.Step ⟨s₀, [0], []⟩ (.scheduled (.start 0)) _ :=
    .start (l := []) rfl rfl (by simp) (by simp) rfl
  have htest : FlowSimulation.Step ⟨s₁, [4, 3, 2, 1, 0], []⟩ (.scheduled .checkForeground) _ :=
    .test (l := []) rfl rfl (by simp) (by decide)
  have h₀ : ((machine infos 0 group 1).restrict StartsInTurn).Reachable
    ⟨⟨s₀, [0], []⟩, { flow := 0 }⟩ :=
    .init ⟨⟨s₀, rfl, rfl⟩, rfl, by decide⟩
  have h₁ := reachable_sim h₀ hstart rfl trivial trivial (by simp)
  have h₂ : ((machine infos 0 group 1).restrict StartsInTurn).Reachable
      ⟨⟨s₁, [4, 3, 2, 1, 0], [.outside]⟩,
        { flow := 0, chains := [[⟨1, 1, 2⟩, ⟨2, 3, 4⟩]], numChains := 1, starts := 1 }⟩ :=
    h₁.step ⟨show StartsInTurn _ .onFlowStarted from rfl, .onFlowStarted Nat.zero_lt_one horder rfl⟩
  have h₃ := reachable_sim h₂ .leave rfl trivial trivial (by simp)
  exact reachable_sim h₃ htest rfl trivial trivial (by simp)

/-- A multicast that completes inside its own start runs its wait before the event of the wait,
which then runs the wait again; when the wait completes, the next multicast is told twice. -/
theorem multicast_in_start : ∃ (infos : List SerializedFlow) (group : OrdMap Nat Unit)
    (x : PhaseSimulation), group.keys = [1, 2] ∧ (machine infos 0 group 1).Reachable x ∧
      x.phase.starts = 1 ∧ x.phase.notified = 0 ∧ x.sim.frames ≠ [] ∧
      (∀ call y, ¬Step group 1 x call y) ∧ ¬RunsInChains group 1 x := by
  have h₀ := reachable_started.of_restrict
  have go : ∀ {infos group phase x call y}, (machine infos 0 group 1).Reachable ⟨x, phase⟩ →
      FlowSimulation.Step x call y → phase.starts = x.scheduler.callbacks phase.flow →
      phase.Others x.scheduler call →
      (∀ wait n stack, x.frames = .notifyComplete wait n :: stack → wait ∉ phase.lastWaits) →
      (machine infos 0 group 1).Reachable ⟨y, phase⟩ := fun hx hs hstarts hothers hlast =>
    hx.step (.sim hstarts hothers
      (fun wait n stack hframes hw => absurd hw (hlast wait n stack hframes)) hs)
  have h₁ := go h₀ (.start (l := []) rfl rfl (by simp) (by decide) rfl) rfl trivial (by simp)
  have h₂ := go h₁ (show FlowSimulation.Step _ (.notifyComplete 1) _ from .notifyComplete
    (by decide) rfl)
    rfl ⟨by decide, fun hw => absurd hw (by decide)⟩ (by simp)
  have h₃ := go h₂ (.onFlowFinish rfl (.refl _)) rfl trivial (by simp [AgFlowMcastPhase.lastWaits])
  have h₄ := go h₃ (.run rfl rfl (by decide)) rfl trivial (by simp)
  have h₅ := go h₄ .leave rfl trivial (by simp)
  have h₆ := go h₅ .finish rfl trivial (by simp)
  have h₇ := go h₆ .completed rfl trivial (by simp [AgFlowMcastPhase.lastWaits])
  have h₈ := go h₇ .leave rfl trivial (by simp)
  have h₉ := go h₈ (.start (l := []) rfl rfl (by simp) (by decide) rfl) rfl trivial (by simp)
  have h₁₀ := go h₉ .leave rfl trivial (by simp)
  have h₁₁ := go h₁₀ (.hold (l := []) rfl rfl (by simp) (by decide) (by decide)) rfl trivial
    (by simp)
  have h₁₂ := go h₁₁ (.hold (l := []) rfl rfl (by simp) (by decide) (by decide)) rfl trivial
    (by simp)
  have h₁₃ := go h₁₂ (show FlowSimulation.Step _ (.event 5) _ from .event rfl (by decide)
    (by decide))
    rfl trivial (by simp)
  have h₁₄ := go h₁₃ (show FlowSimulation.Step _ (.notifyComplete 2) _ from .notifyComplete
    (by decide) rfl)
    rfl ⟨by decide, fun _ => by decide⟩ (by simp)
  have h₁₅ := go h₁₄ (.onFlowFinish rfl (.refl _)) rfl trivial
    (by simp [AgFlowMcastPhase.lastWaits])
  have h₁₆ := go h₁₅ (.run rfl rfl (by decide)) rfl trivial (by simp)
  have h₁₇ := go h₁₆ .leave rfl trivial (by simp)
  have h₁₈ := go h₁₇ .finish rfl trivial (by simp)
  have h₁₉ := go h₁₈ (.onFlowFinish rfl (.refl _)) rfl trivial
    (by simp [AgFlowMcastPhase.lastWaits])
  refine ⟨_, _, _, rfl, h₁₉, rfl, rfl, List.cons_ne_nil _ _, fun _ _ => no_step_of_told rfl,
    fun h => ?_⟩
  obtain ⟨call, y, hs⟩ := h.ends _ _ rfl fun flow targets heq => by
    cases heq
    decide
  exact no_step_of_told rfl hs

/-- The second multicast of a chain runs after the first one and its wait. -/
theorem runs_in_chains_two : ∃ (infos : List SerializedFlow) (group : OrdMap Nat Unit)
    (x : PhaseSimulation), group.keys = [1, 2] ∧
      ((machine infos 0 group 1).restrict StartsInTurn).Reachable x ∧ x.Running 3 ∧
      RunsInChains group 1 x := by
  have h₀ := reachable_started
  have h₁ := reachable_sim h₀
    (.start (l := []) rfl rfl (by simp) (by decide) rfl) rfl trivial trivial (by simp)
  have h₂ := reachable_sim h₁ .leave rfl trivial trivial (by simp)
  have h₃ := reachable_sim h₂
    (.hold (l := []) rfl rfl (by simp) (by decide) (by decide)) rfl trivial trivial
    (by simp)
  have h₄ := reachable_sim h₃
    (.hold (l := []) rfl rfl (by simp) (by decide) (by decide)) rfl trivial trivial
    (by simp)
  have h₅ := reachable_sim h₄
    (.hold (l := []) rfl rfl (by simp) (by decide) (by decide)) rfl trivial trivial
    (by simp)
  have h₆ := reachable_sim h₅
    (show FlowSimulation.Step _ (.event 5) _ from .event rfl (by decide) (by decide))
    rfl trivial trivial (by simp)
  have h₇ := reachable_sim h₆
    (show FlowSimulation.Step _ (.notifyComplete 1) _ from .notifyComplete (by decide) rfl)
    rfl ⟨by decide, fun hw => absurd hw (by decide)⟩
    (fun _ _ _ hsched => absurd hsched List.not_mem_nil) (by simp)
  have h₈ := reachable_sim h₇ (.onFlowFinish rfl (.refl _)) rfl trivial trivial
    (by simp [AgFlowMcastPhase.lastWaits])
  have h₉ := reachable_sim h₈ (.run rfl rfl (by decide)) rfl trivial trivial (by simp)
  have h₁₀ := reachable_sim h₉ .leave rfl trivial trivial (by simp)
  have h₁₁ := reachable_sim h₁₀ .finish rfl trivial trivial (by simp)
  have h₁₂ := reachable_sim h₁₁ .completed rfl trivial trivial
    (by simp [AgFlowMcastPhase.lastWaits])
  have h₁₃ := reachable_sim h₁₂ .leave rfl trivial trivial (by simp)
  have h₁₄ := reachable_sim h₁₃
    (show FlowSimulation.Step _ (.event 9) _ from .event rfl (by decide) (by decide))
    rfl trivial trivial (by simp)
  have h₁₅ := reachable_sim h₁₄
    (show FlowSimulation.Step _ (.notifyComplete 2) _ from .notifyComplete (by decide) rfl)
    rfl ⟨by decide, fun _ => by decide⟩
    (fun _ _ _ hsched => absurd hsched List.not_mem_nil) (by simp)
  have h₁₆ := reachable_sim h₁₅ (.onFlowFinish rfl (.refl _)) rfl trivial trivial
    (by simp [AgFlowMcastPhase.lastWaits])
  have h₁₇ := reachable_sim h₁₆ (.run rfl rfl (by decide)) rfl trivial trivial (by simp)
  exact ⟨_, _, _, rfl, h₁₇, ⟨by decide, rfl⟩, runs_in_chains (by decide) (by decide) h₁₇⟩

end PhaseSimulation
end Roce
