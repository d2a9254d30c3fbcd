import Roce.Flow.FlowView

/-! # Flows that run one after another

A line is a list of flows, each of which depends on the one before it and on nothing else. What the
scheduler knows of the flows of a line says how far the line has come: some flows have completed and
their targets have been told, then there is the head of the line, and no flow after it has been
run. -/

namespace Roce

open Function

namespace FlowSimulation

open FlowScheduler (Scheduled Finished finishFlow_spec)

/-- The first flow of a line whose targets have not been told of its completion. Its target has not
been run, and will not be run by an event. -/
inductive Head (s : FlowScheduler) (frames : List FlowFrame) (flow : Nat) (rest : List Nat) : Prop
  | due : view s frames flow = .due → Head s frames flow rest
  | running : view s frames flow = .running → Head s frames flow rest
  | completing : view s frames flow = .completing (.notifyComplete flow 1) →
    (∀ next ∈ rest.head?, view s frames next = .waiting 0) → Head s frames flow rest
  | telling : rest.head? = some next →
    view s frames flow = .completing (.onFlowFinish flow [some next]) →
    view s frames next = .waiting 0 → Head s frames flow rest

/-- How far a line has come. -/
inductive Line (s : FlowScheduler) (frames : List FlowFrame) (line : List Nat) : Prop
  | finished : (∀ flow ∈ line, view s frames flow = .finished) → Line s frames line
  | head : line = before ++ flow :: rest → (∀ prev ∈ before, view s frames prev = .finished) →
    Head s frames flow rest →
    (∀ next ∈ rest, ∃ n ≤ 1, view s frames next = .waiting n) → Line s frames line

variable {s s' : FlowScheduler} {frames frames' stack : List FlowFrame} {frame : FlowFrame}
  {flow next : Nat} {target : FlowPtr} {targets : List FlowPtr} {line : List Nat}
  {lines : List (List Nat)} {x y : FlowSimulation} {call : FlowCall}

/-! ## One line -/

/-- Where a flow of a line is. -/
inductive Position (s : FlowScheduler) (frames : List FlowFrame) (line : List Nat)
    (flow : Nat) : Prop
  | finished : view s frames flow = .finished → Position s frames line flow
  | waiting : n ≤ 1 → view s frames flow = .waiting n → Position s frames line flow
  | head : line = before ++ flow :: rest → (∀ prev ∈ before, view s frames prev = .finished) →
    Head s frames flow rest →
    (∀ next ∈ rest, ∃ n ≤ 1, view s frames next = .waiting n) → Position s frames line flow

theorem Line.position (h : Line s frames line) (hmem : flow ∈ line) :
    Position s frames line flow := by
  cases h with
  | finished hall => exact .finished (hall flow hmem)
  | @head before f rest hline hbefore hhead hrest =>
    rw [hline, List.mem_append, List.mem_cons] at hmem
    rcases hmem with hmem | rfl | hmem
    · exact .finished (hbefore flow hmem)
    · exact .head hline hbefore hhead hrest
    · obtain ⟨n, hn, hv⟩ := hrest flow hmem
      exact .waiting hn hv

theorem Head.not_waiting (h : Head s frames flow rest) (n : Nat) :
    view s frames flow ≠ .waiting n := by
  intro hw
  cases h with
  | due hv | running hv | completing hv | telling _ hv =>
    rw [hv] at hw
    cases hw

/-- Nothing happens to a line, except that the events of the flows that wait are taken. -/
theorem Line.congr (h : Line s frames line)
    (hv : ∀ flow ∈ line, view s' frames' flow = view s frames flow ∨
      view s frames flow = .waiting 1 ∧ view s' frames' flow = .waiting 0) :
        Line s' frames' line := by
  have hkeep : ∀ flow ∈ line, view s frames flow ≠ .waiting 1 →
      view s' frames' flow = view s frames flow := fun flow hmem hne =>
    (hv flow hmem).resolve_right fun hw => hne hw.1
  have hzero : ∀ flow ∈ line, view s frames flow = .waiting 0 →
    view s' frames' flow = .waiting 0 := by
    intro flow hmem hz
    exact (hv flow hmem).elim (·.trans hz) (·.2)
  have hfinished : ∀ flow ∈ line, view s frames flow = .finished →
    view s' frames' flow = .finished := by
    intro flow hmem hf
    rw [hkeep flow hmem, hf]
    rw [hf]
    exact fun heq => by cases heq
  cases h with
  | finished hall => exact .finished fun flow hmem => hfinished flow hmem (hall flow hmem)
  | @head before flow rest hline hbefore hhead hrest =>
    subst hline
    have hself := hkeep flow (List.mem_append_right _ List.mem_cons_self) (hhead.not_waiting 1)
    have hmem : ∀ next ∈ rest, next ∈ before ++ flow :: rest := fun next hmem =>
      List.mem_append_right _ (List.mem_cons_of_mem _ hmem)
    have hmem? : ∀ next ∈ rest.head?, next ∈ before ++ flow :: rest := fun next hnext =>
      hmem next (List.mem_of_mem_head? hnext)
    refine .head rfl (fun prev hp => hfinished prev (List.mem_append_left _ hp) (hbefore prev hp))
      ?_ ?_
    · cases hhead with
      | due hd => exact .due (hself.trans hd)
      | running hr => exact .running (hself.trans hr)
      | completing hc hn =>
        exact .completing (hself.trans hc)
          fun next hnext => hzero next (hmem? next hnext) (hn next hnext)
      | telling hnext ht hn => exact .telling hnext (hself.trans ht) (hzero _ (hmem? _ hnext) hn)
    · intro next hnext
      obtain ⟨n, hn, hw⟩ := hrest next hnext
      rcases hv next (hmem next hnext) with heq | ⟨-, heq⟩
      · exact ⟨n, hn, heq.trans hw⟩
      · exact ⟨0, Nat.zero_le 1, heq⟩

/-- Something happens to the head of a line only. -/
theorem Line.update (hline : line = before ++ flow :: rest)
    (hnodup : line.Nodup) (hbefore : ∀ prev ∈ before, view s frames prev = .finished)
    (hrest : ∀ next ∈ rest, ∃ n ≤ 1, view s frames next = .waiting n)
    (hv : ∀ t ∈ line, t ≠ flow → view s' frames' t = view s frames t)
    (hhead : Head s' frames' flow rest) : Line s' frames' line := by
  subst hline
  obtain ⟨-, hnodup, hdisjoint⟩ := List.nodup_append.mp hnodup
  obtain ⟨hnot, -⟩ := List.nodup_cons.mp hnodup
  refine .head rfl (fun prev hp => ?_) hhead fun next hn => ?_
  · rw [hv prev (List.mem_append_left _ hp) (hdisjoint prev hp flow List.mem_cons_self)]
    exact hbefore prev hp
  · have hne : next ≠ flow := fun heq => hnot (heq ▸ hn)
    rw [hv next (List.mem_append_right _ (List.mem_cons_of_mem _ hn)) hne]
    exact hrest next hn

/-- The targets of the head have been told, and the line has a new head. -/
theorem Line.advance (hline : line = before ++ flow :: rest) (hnodup : line.Nodup)
    (hbefore : ∀ prev ∈ before, view s frames prev = .finished)
    (hv : ∀ t ∈ line, t ≠ flow → t ∉ rest.head? → view s' frames' t = view s frames t)
    (hrest : ∀ next ∈ rest, ∃ n ≤ 1, view s frames next = .waiting n)
    (hself : view s' frames' flow = .finished)
    (hhead : ∀ next ∈ rest.head?, Head s' frames' next rest.tail) : Line s' frames' line := by
  subst hline
  obtain ⟨-, hnodup, hdisjoint⟩ := List.nodup_append.mp hnodup
  obtain ⟨hnot, hnodup⟩ := List.nodup_cons.mp hnodup
  have hprev : ∀ prev ∈ before, view s' frames' prev = .finished := by
    intro prev hp
    have hne := hdisjoint prev hp
    rw [hv prev (List.mem_append_left _ hp) (hne flow List.mem_cons_self) fun hmem =>
      hne prev (List.mem_cons_of_mem _ (List.mem_of_mem_head? hmem)) rfl]
    exact hbefore prev hp
  cases rest with
  | nil =>
    refine .finished fun t hmem => ?_
    rcases List.mem_append.mp hmem with hmem | hmem
    · exact hprev t hmem
    · rwa [List.mem_singleton.mp hmem]
  | cons next rest =>
    refine .head (List.append_cons before flow (next :: rest)) (fun prev hp => ?_) (hhead next rfl)
      fun t hmem => ?_
    · rcases List.mem_append.mp hp with hp | hp
      · exact hprev prev hp
      · rwa [List.mem_singleton.mp hp]
    · have ht : t ∈ next :: rest := List.mem_cons_of_mem _ hmem
      have hne : t ≠ next := fun heq => (List.nodup_cons.mp hnodup).1 (heq ▸ hmem)
      rw [hv t (List.mem_append_right _ (List.mem_cons_of_mem _ ht)) (fun heq => hnot (heq ▸ ht))
        fun heq => hne (Option.some.inj heq).symm]
      exact hrest t ht

/-! ## All lines -/

/-- The calls of others, which have no pointers to the flows. -/
def Foreign (flows : List Nat) : FlowCall → Prop
  | .addFlow flow => flow ∉ flows
  | .addDependency target dependency => ∀ flow ∈ flows, target ≠ some flow ∧ dependency ≠ some flow
  | _ => True

/-- A flow completes when the event of the flow after it has been run. -/
def AfterStart (lines : List (List Nat)) (s : FlowScheduler) : FlowCall → Prop
  | .notifyComplete flow => ∀ line ∈ lines, ∀ before next rest,
    line = before ++ flow :: next :: rest → ¬Scheduled s.events next
  | _ => True

/-- The lines are what the scheduler knows of their flows. -/
structure Lines (s : FlowScheduler) (frames : List FlowFrame) (lines : List (List Nat)) : Prop where
  fresh : Fresh s frames
  nodup : lines.flatten.Nodup
  line : ∀ line ∈ lines, Line s frames line
  links : ∀ line ∈ lines, ∀ before flow rest, line = before ++ flow :: rest →
    s.dependencies flow = rest.head?.toList.map some
  targets : ∀ d, ∀ flow ∈ lines.flatten, some flow ∈ s.dependencies d → d ∈ lines.flatten
  told : ∀ d targets, .onFlowFinish d targets ∈ frames → ∀ flow ∈ lines.flatten,
    some flow ∈ targets → d ∈ lines.flatten
  info : ∀ flow ∈ lines.flatten, s.flows[flow]? = some {}
  now : 0 ≤ s.now
  future : ∀ e ∈ s.events, s.now ≤ e.1
  pending : ∀ flow ∈ lines.flatten, ∀ time, (time, .start flow) ∈ s.events → time ≤ s.now

theorem Lines.eq_of_mem (h : Lines s frames lines) {line line' : List Nat} (hl : line ∈ lines)
    (hl' : line' ∈ lines) (hf : flow ∈ line) (hf' : flow ∈ line') : line = line' := by
  by_contra hne
  have : Std.Symm (@List.Disjoint Nat) := ⟨fun _ _ hd => hd.symm⟩
  exact (List.nodup_flatten.mp h.nodup).2.forall hl hl' hne hf hf'

theorem Lines.nodup_line (h : Lines s frames lines) (hl : line ∈ lines) : line.Nodup :=
  (List.nodup_flatten.mp h.nodup).1 line hl

/-- Something happens to the flows of one line. -/
theorem Lines.update (h : Lines s frames lines) (hl : line ∈ lines)
    (hv : ∀ flow ∈ lines.flatten, flow ∉ line → view s' frames' flow = view s frames flow)
    (hline : Line s' frames' line) : ∀ line ∈ lines, Line s' frames' line := by
  intro line' hl'
  by_cases heq : line' = line
  · exact heq ▸ hline
  · refine (h.line line' hl').congr fun flow hmem => .inl ?_
    refine hv flow (List.mem_flatten.mpr ⟨line', hl', hmem⟩) fun hin => ?_
    exact heq (h.eq_of_mem hl' hl hmem hin)

/-- The event of the head of a line. -/
theorem Lines.start {l l' : List (Int × ScheduledEvent)} (h : Lines s frames lines)
    (hl : line ∈ lines) (hf : flow ∈ line) (he : s.events = l ++ (time, .start flow) :: l')
    (hrem : s.remDependencies (some flow) = 0)
    (hv : ∀ t ≠ flow, view s' frames' t = view s frames t)
    (hself : view s' frames' flow = { view s frames flow with
      callbacks := s.callbacks flow + 1, scheduled := startEvents (l ++ l') flow }) :
    ∀ line ∈ lines, Line s' frames' line := by
  have hs : (view s frames flow).scheduled = startEvents (l ++ l') flow + 1 := view_take_self he
  refine h.update hl (fun t _ hout => hv t fun heq => hout (heq ▸ hf)) ?_
  cases (h.line line hl).position hf with
  | finished hfin =>
    rw [hfin] at hs
    cases hs
  | waiting _ hw =>
    have hone : s.remDependencies (some flow) = 1 := congrArg FlowView.remDependencies hw
    exact absurd (hone.symm.trans hrem) Nat.one_ne_zero
  | head hline hbefore hhead hrest =>
    refine Line.update hline (h.nodup_line hl) hbefore hrest (fun t _ hne => hv t hne) (.running ?_)
    cases hhead with
    | due hd =>
      have hcb : s.callbacks flow = 0 := congrArg FlowView.callbacks hd
      rw [hd] at hs
      rw [hself, hd, hcb, ← Nat.succ.inj hs]
      rfl
    | running hr =>
      rw [hr] at hs
      cases hs
    | completing hc =>
      rw [hc] at hs
      cases hs
    | telling _ ht =>
      rw [ht] at hs
      cases hs

/-- The event of a flow that waits. -/
theorem Lines.hold {l l' : List (Int × ScheduledEvent)} (h : Lines s frames lines)
    (he : s.events = l ++ (time, .start flow) :: l')
    (hrem : s.remDependencies (some flow) ≠ 0) (hl : line ∈ lines) :
    Line { s with now := time, events := l ++ l' } frames line := by
  refine (h.line line hl).congr fun t ht => ?_
  by_cases hne : t = flow
  · subst hne
    refine .inr ?_
    have hs : (view s frames t).scheduled = startEvents (l ++ l') t + 1 := view_take_self he
    cases (h.line line hl).position ht with
    | finished hfin => exact absurd (congrArg FlowView.remDependencies hfin) hrem
    | @waiting n hn hw =>
      rw [hw] at hs
      obtain ⟨rfl, hzero⟩ : n = 1 ∧ startEvents (l ++ l') t = 0 := by
        simp only [FlowView.waiting] at hs
        omega
      refine ⟨hw, ?_⟩
      calc view { s with now := time, events := l ++ l' } frames t
          = { view s frames t with scheduled := startEvents (l ++ l') t } := rfl
        _ = .waiting 0 := by rw [hw, hzero]; rfl
    | head _ _ hhead =>
      cases hhead with
      | due hd => exact absurd (congrArg FlowView.remDependencies hd) hrem
      | running hr => exact absurd (congrArg FlowView.remDependencies hr) hrem
      | completing hc => exact absurd (congrArg FlowView.remDependencies hc) hrem
      | telling _ htell => exact absurd (congrArg FlowView.remDependencies htell) hrem
  · exact .inl (view_take he fun heq => hne (ScheduledEvent.start.inj heq).symm)

/-- The head of a line completes. -/
theorem Lines.notifyComplete (h : Lines s (.outside :: stack) lines) (hl : line ∈ lines)
    (hf : flow ∈ line) (hcb : 0 < s.callbacks flow) (hc : s.completed flow = false)
    (hafter : AfterStart lines s (.notifyComplete flow)) : ∀ line ∈ lines,
      Line { s with completed := Function.update s.completed flow true }
        (.notifyComplete flow (s.callbacks flow) :: .outside :: stack) line := by
  have hv : ∀ t ≠ flow, view { s with completed := Function.update s.completed flow true }
      (.notifyComplete flow (s.callbacks flow) :: .outside :: stack) t =
        view s (.outside :: stack) t := fun t hne => by
    rw [view_notifyComplete hne, view_complete hne]
  refine h.update hl (fun t _ hout => hv t fun heq => hout (heq ▸ hf)) ?_
  cases (h.line line hl).position hf with
  | finished hfin =>
    have htrue : s.completed flow = true := congrArg FlowView.completed hfin
    rw [hc] at htrue
    cases htrue
  | waiting _ hw => exact absurd (congrArg FlowView.callbacks hw) (Nat.ne_of_gt hcb)
  | @head before rest hline hbefore hhead hrest =>
    refine Line.update hline (h.nodup_line hl) hbefore hrest (fun t _ hne => hv t hne) ?_
    cases hhead with
    | due hd => exact absurd (congrArg FlowView.callbacks hd) (Nat.ne_of_gt hcb)
    | running hr =>
      have hone : s.callbacks flow = 1 := congrArg FlowView.callbacks hr
      refine .completing ?_ fun next hnext => ?_
      · rw [hone, view_cons_self rfl, view_complete_self, hr]
        rfl
      · obtain ⟨n, -, hw⟩ := hrest next (List.mem_of_mem_head? hnext)
        obtain ⟨rest', rfl⟩ : ∃ rest', rest = next :: rest' := List.head?_eq_some_iff.mp hnext
        have hzero : startEvents s.events next = 0 :=
          startEvents_eq_zero.mpr (hafter line hl before next rest' hline)
        have hne : next ≠ flow := by
          rintro rfl
          have hnodup := h.nodup_line hl
          rw [hline] at hnodup
          exact (List.nodup_cons.mp (List.nodup_append.mp hnodup).2.1).1 List.mem_cons_self
        rw [hv next hne, hw, ← hzero]
        exact congrArg FlowView.waiting (congrArg FlowView.scheduled hw).symm
    | completing hd | telling _ hd =>
      have htrue : s.completed flow = true := congrArg FlowView.completed hd
      rw [hc] at htrue
      cases htrue

theorem view_of_completing {frame' : FlowFrame} (hf : frame.owes = some t)
    (h : view s (frame :: stack) t = .completing frame') :
    frame = frame' ∧ view s stack t = .finished := by
  rw [view_cons_self hf] at h
  obtain ⟨hcb, hc, hrem, hs, htell⟩ := FlowView.mk.inj h
  obtain ⟨hframe, htell⟩ := List.cons.inj htell
  exact ⟨hframe, FlowView.ext hcb hc hrem hs htell⟩

theorem ne_of_append_cons {before rest : List Nat} (h : (before ++ flow :: rest).Nodup)
    (hmem : next ∈ rest) : next ≠ flow := fun heq =>
  (List.nodup_cons.mp (List.nodup_append.mp h).2.1).1 (heq ▸ hmem)

/-- A flow of a line that has still to tell its targets is the head of the line. -/
theorem Lines.owes (h : Lines s (frame :: stack) lines) (hl : line ∈ lines) (hf : flow ∈ line)
    (howes : frame.owes = some flow) : ∃ before rest, line = before ++ flow :: rest ∧
      (∀ prev ∈ before, view s (frame :: stack) prev = .finished) ∧
      (∀ next ∈ rest, ∃ n ≤ 1, view s (frame :: stack) next = .waiting n) ∧
      view s stack flow = .finished ∧
      ((frame = .notifyComplete flow 1 ∧
          ∀ next ∈ rest.head?, view s (frame :: stack) next = .waiting 0) ∨
        ∃ next, rest.head? = some next ∧ frame = .onFlowFinish flow [some next] ∧
          view s (frame :: stack) next = .waiting 0) := by
  have hmem : frame ∈ (view s (frame :: stack) flow).telling := mem_telling List.mem_cons_self howes
  cases (h.line line hl).position hf with
  | finished hfin => exact absurd (hfin ▸ hmem) List.not_mem_nil
  | waiting _ hw => exact absurd (hw ▸ hmem) List.not_mem_nil
  | @head before rest hline hbefore hhead hrest =>
    cases hhead with
    | due hd => exact absurd (hd ▸ hmem) List.not_mem_nil
    | running hr => exact absurd (hr ▸ hmem) List.not_mem_nil
    | completing hc hn =>
      obtain ⟨heq, hfin⟩ := view_of_completing howes hc
      exact ⟨before, rest, hline, hbefore, hrest, hfin, .inl ⟨heq, hn⟩⟩
    | @telling next hnext ht hn =>
      obtain ⟨heq, hfin⟩ := view_of_completing howes ht
      exact ⟨before, rest, hline, hbefore, hrest, hfin, .inr ⟨next, hnext, heq, hn⟩⟩

/-- The loop over the targets is entered. -/
theorem Lines.onFlowFinish (h : Lines s (.notifyComplete flow (n + 1) :: stack) lines)
    (hl : line ∈ lines) (hf : flow ∈ line) (he : Finished s s' flow)
    (hperm : targets.Perm (s'.dependencies flow)) : ∀ line ∈ lines,
      Line s' (.onFlowFinish flow targets :: .notifyComplete flow n :: stack) line := by
  have hv : ∀ t ≠ flow, view s' (.onFlowFinish flow targets :: .notifyComplete flow n :: stack) t =
      view s (.notifyComplete flow (n + 1) :: stack) t := fun t hne => by
    rw [view_onFlowFinish hne, view_notifyComplete hne, view_notifyComplete hne,
      view_of_finished he]
  refine h.update hl (fun t _ hout => hv t fun heq => hout (heq ▸ hf)) ?_
  obtain ⟨before, rest, hline, hbefore, hrest, hfin, ⟨heq, hn⟩ | ⟨next, -, heq, -⟩⟩ :=
    h.owes hl hf rfl
  · cases heq
    have hnodup := h.nodup_line hl
    have hlink := h.links line hl before flow rest hline
    rw [he.rest, hlink] at hperm
    cases rest with
    | nil =>
      obtain rfl : targets = [] := List.perm_nil.mp hperm
      refine Line.advance hline hnodup hbefore (fun t _ hne _ => hv t hne) hrest ?_
        fun _ hn => by cases hn
      rw [view_cons (by exact (Option.some_ne_none flow).symm),
        view_cons (by exact (Option.some_ne_none flow).symm), view_of_finished he, hfin]
    | cons next rest =>
      obtain rfl : targets = [some next] := List.perm_singleton.mp hperm
      refine Line.update hline hnodup hbefore hrest (fun t _ hne => hv t hne) (.telling rfl ?_ ?_)
      · rw [view_cons_self rfl, view_cons (by exact (Option.some_ne_none flow).symm),
          view_of_finished he, hfin]
        rfl
      · rw [hv next (ne_of_append_cons (hline ▸ hnodup) List.mem_cons_self)]
        exact hn next rfl
  · cases heq

/-- The target that the head of a line has still to tell. -/
structure Tells (s : FlowScheduler) (frames stack : List FlowFrame) (line : List Nat) (source : Nat)
    (target : FlowPtr) (targets : List FlowPtr) (before : List Nat) (next : Nat) (rest : List Nat) :
    Prop where
  line : line = before ++ source :: next :: rest
  target : target = some next
  targets : targets = []
  before : ∀ prev ∈ before, view s frames prev = .finished
  rest : ∀ t ∈ next :: rest, ∃ n ≤ 1, view s frames t = .waiting n
  next : view s frames next = .waiting 0
  source : view s stack source = .finished

theorem Lines.tells (h : Lines s (.onFlowFinish source (target :: targets) :: stack) lines)
    (hl : line ∈ lines) (hf : source ∈ line) : ∃ before next rest,
      Tells s (.onFlowFinish source (target :: targets) :: stack) stack line source target targets
        before next rest := by
  obtain ⟨before, rest, hline, hbefore, hrest, hfin, ⟨heq, -⟩ | ⟨next, hnext, heq, hn⟩⟩ :=
    h.owes hl hf rfl
  · cases heq
  · cases heq
    obtain ⟨rest, rfl⟩ := List.head?_eq_some_iff.mp hnext
    exact ⟨before, next, rest, hline, rfl, rfl, hbefore, hrest, hn, hfin⟩

/-- The next flow of a line is run. -/
theorem Lines.run (h : Lines s (.onFlowFinish source (some flow :: targets) :: stack) lines)
    (hl : line ∈ lines) (hf : source ∈ line) (ht : Told s s' (some flow)) : ∀ line ∈ lines,
      Line (s'.runFlow flow) (.outside :: .onFlowFinish source targets :: stack) line := by
  obtain ⟨before, next, rest, hline, htarget, rfl, hbefore, hrest, hnext, hfin⟩ := h.tells hl hf
  cases htarget
  have hnodup := h.nodup_line hl
  have hne : flow ≠ source := ne_of_append_cons (hline ▸ hnodup) List.mem_cons_self
  have hin : flow ∈ line := hline ▸ List.mem_append_right _
    (List.mem_cons_of_mem _ List.mem_cons_self)
  have hv : ∀ t ≠ source, t ≠ flow →
      view (s'.runFlow flow) (.outside :: .onFlowFinish source [] :: stack) t =
        view s (.onFlowFinish source [some flow] :: stack) t := fun t hs hflow => by
    rw [view_outside, view_runFlow hflow, view_onFlowFinish hs, view_onFlowFinish hs,
      ht.view_eq fun heq => hflow (Option.some.inj heq).symm]
  have hcb : s'.callbacks flow = 0 := by
    rw [ht.rest]
    exact congrArg FlowView.callbacks hnext
  have hrem : s.remDependencies (some flow) = 1 := congrArg FlowView.remDependencies hnext
  refine h.update hl (fun t _ hout => hv t (fun heq => hout (heq ▸ hf))
    fun heq => hout (heq ▸ hin)) ?_
  refine Line.advance hline hnodup hbefore
    (fun t _ hs hflow => hv t hs fun heq => hflow (congrArg some heq.symm)) hrest ?_ fun t heq => ?_
  · rw [view_outside, view_runFlow hne.symm, view_cons (by exact (Option.some_ne_none source).symm),
      ht.view_eq fun heq => hne (Option.some.inj heq), hfin]
  · cases heq
    refine .running ?_
    rw [view_onFlowFinish hne] at hnext
    rw [view_outside, view_runFlow_self, view_onFlowFinish hne, hcb, ht.view_self, hnext, hrem]
    rfl

/-! ## The steps -/

/-- A step of flows of which one is in a line. -/
theorem Lines.step_concerns (h : Lines x.scheduler x.frames lines) (hs : Step x call y)
    (hforeign : Foreign lines.flatten call) (hafter : AfterStart lines x.scheduler call)
    (hmem : flow ∈ lines.flatten) (hc : Concerns x call flow) :
    ∀ line ∈ lines, Line y.scheduler y.frames line := by
  obtain ⟨line, hl, hf⟩ := List.mem_flatten.mp hmem
  cases hs with
  | start _ he _ _ hrem =>
    obtain rfl : flow = _ := hc
    refine h.start hl hf he hrem (fun t hne => ?_) ?_
    · dsimp only
      rw [view_outside, view_runFlow hne]
      exact view_take he fun heq => hne (ScheduledEvent.start.inj heq).symm
    · dsimp only
      rw [view_outside, view_runFlow_self]
      rfl
  | hold _ he _ _ hrem => exact fun line hl => h.hold he hrem hl
  | addFlow =>
    obtain rfl : flow = _ := hc
    exact absurd hmem hforeign
  | addDependency => exact absurd hc (hforeign flow hmem).1
  | notifyComplete hcb hcomplete =>
    obtain rfl : flow = _ := hc
    exact h.notifyComplete hl hf hcb hcomplete hafter
  | onFlowFinish hfin hperm =>
    obtain ⟨n, stack, heq⟩ := hc
    cases heq
    exact h.onFlowFinish hl hf (finishFlow_spec hfin) hperm
  | @wait target _ source targets stack s s' hr hwait =>
    have hsource : source ∈ lines.flatten := by
      rcases hc with rfl | ⟨targets, stack, heq⟩
      · exact h.told _ _ List.mem_cons_self flow hmem List.mem_cons_self
      · cases heq
        exact hmem
    obtain ⟨line, hl, hf⟩ := List.mem_flatten.mp hsource
    obtain ⟨before, next, rest, ht⟩ := h.tells hl hf
    obtain rfl := ht.target
    have htold := resolve_spec hr
    -- The target waits for nothing else, and its start time is 0.
    have hone : s.remDependencies (some next) = 1 := congrArg FlowView.remDependencies ht.next
    rcases hwait with hrem | ⟨flow', heq, hlate⟩
    · rw [htold.rem, update_self, hone] at hrem
      exact absurd rfl hrem
    · cases heq
      have hnext : next ∈ lines.flatten := List.mem_flatten.mpr ⟨line, hl, by rw [ht.line]; simp⟩
      have hinfo := h.info next hnext
      have hnow := h.now
      rw [htold.rest] at hlate
      simp only [FlowScheduler.info, List.getD_eq_getElem?_getD] at hlate hinfo
      rw [hinfo] at hlate
      exact absurd hnow (Int.not_le.mpr hlate)
  | @run target _ source targets stack s s' hr =>
    have hsource : source ∈ lines.flatten := by
      rcases hc with heq | ⟨targets, stack, heq⟩
      · cases heq
        exact h.told _ _ List.mem_cons_self flow hmem List.mem_cons_self
      · cases heq
        exact hmem
    obtain ⟨line, hl, hf⟩ := List.mem_flatten.mp hsource
    exact h.run hl hf (resolve_spec hr)
  | test | event | create | callback | finish | leave | completed => exact hc.elim

theorem Lines.step_line (h : Lines x.scheduler x.frames lines) (hs : Step x call y)
    (hforeign : Foreign lines.flatten call) (hafter : AfterStart lines x.scheduler call) :
    ∀ line ∈ lines, Line y.scheduler y.frames line := by
  by_cases hc : ∃ flow ∈ lines.flatten, Concerns x call flow
  · obtain ⟨flow, hmem, hc⟩ := hc
    exact h.step_concerns hs hforeign hafter hmem hc
  · refine fun line hl => (h.line line hl).congr fun flow hmem => .inl (hs.view_eq fun hcon => ?_)
    exact hc ⟨flow, List.mem_flatten.mpr ⟨line, hl, hmem⟩, hcon⟩

/-- No event is scheduled for the past, and new events are those of `AddFlow`. -/
theorem Step.events (h : Step x call y)
    (hfuture : ∀ e ∈ x.scheduler.events, x.scheduler.now ≤ e.1) :
    x.scheduler.now ≤ y.scheduler.now ∧ ∀ e ∈ y.scheduler.events, y.scheduler.now ≤ e.1 ∧
      (e ∈ x.scheduler.events ∨ ∃ flow, call = .addFlow flow ∧ e.2 = .start flow) := by
  have htake : ∀ {s : FlowScheduler} {l l' : List (Int × ScheduledEvent)} {time event},
      s.events = l ++ (time, event) :: l' → (∀ e ∈ l, time < e.1) → (∀ e ∈ l', time ≤ e.1) →
      (∀ e ∈ s.events, s.now ≤ e.1) → s.now ≤ time ∧ ∀ e ∈ l ++ l', time ≤ e.1 ∧ e ∈ s.events := by
    intro s l l' time event he hl hl' hf
    rw [he] at hf ⊢
    refine ⟨hf _ (List.mem_append_right _ List.mem_cons_self), fun e hmem => ?_⟩
    rcases List.mem_append.mp hmem with hmem | hmem
    · exact ⟨Int.le_of_lt (hl e hmem), List.mem_append_left _ hmem⟩
    · exact ⟨hl' e hmem, List.mem_append_right _ (List.mem_cons_of_mem _ hmem)⟩
  have hsame : ∀ {s : FlowScheduler}, (∀ e ∈ s.events, s.now ≤ e.1) → s.now ≤ s.now ∧
      ∀ e ∈ s.events, s.now ≤ e.1 ∧
        (e ∈ s.events ∨ ∃ flow, call = .addFlow flow ∧ e.2 = .start flow) :=
    fun hf => ⟨Int.le_refl _, fun e he => ⟨hf e he, .inl he⟩⟩
  cases h with
  | start _ he hl hl' | hold _ he hl hl' =>
    obtain ⟨hnow, hevents⟩ := htake he hl hl' hfuture
    exact ⟨hnow, fun e hmem => (hevents e hmem).imp id .inl⟩
  | test _ he hl hl' =>
    obtain ⟨hnow, hevents⟩ := htake he hl hl' hfuture
    rw [checkForeground_rest]
    exact ⟨hnow, fun e hmem => (hevents e hmem).imp id .inl⟩
  | event _ hnow hafter => exact ⟨hnow, fun e hmem => ⟨hafter e hmem, .inl hmem⟩⟩
  | @addFlow flow _ _ s =>
    refine ⟨Int.le_refl _, fun e hmem => ?_⟩
    rcases List.mem_append.mp hmem with hmem | hmem
    · exact ⟨hfuture e hmem, .inl hmem⟩
    · cases List.mem_singleton.mp hmem
      refine ⟨?_, .inr ⟨flow, rfl, rfl⟩⟩
      exact Int.le_add_of_nonneg_right (le_max_left 0 ((s.info flow).startTime - s.now))
  | addDependency _ _ hadd =>
    obtain ⟨d, -, hd⟩ := addDependency_spec hadd
    rw [hd.rest]
    exact hsame hfuture
  | onFlowFinish hfin =>
    rw [(finishFlow_spec hfin).rest]
    exact hsame hfuture
  | wait hr =>
    rw [(resolve_spec hr).rest]
    exact hsame hfuture
  | run hr =>
    rw [(resolve_spec hr).rest]
    exact hsame hfuture
  | finish =>
    rw [checkForeground_rest]
    exact hsame hfuture
  | create | notifyComplete | callback | leave | completed => exact hsame hfuture

/-- The flows of a line are run one after another, as long as a flow does not complete before the
event of the next one. -/
theorem Lines.step (h : Lines x.scheduler x.frames lines) (hs : Step x call y)
    (hforeign : Foreign lines.flatten call) (hafter : AfterStart lines x.scheduler call) :
    Lines y.scheduler y.frames lines := by
  obtain ⟨hnow, hevents⟩ := hs.events h.future
  have hdeps : ∀ d ∈ lines.flatten, y.scheduler.dependencies d = x.scheduler.dependencies d := by
    intro d hd
    refine hs.dependencies fun target heq => ?_
    subst heq
    exact (hforeign d hd).2 rfl
  constructor
  case fresh => exact h.fresh.step hs
  case nodup => exact h.nodup
  case line => exact h.step_line hs hforeign hafter
  case links =>
    intro line hl before flow rest hline
    rw [hdeps flow (List.mem_flatten.mpr ⟨line, hl, hline ▸ by simp⟩)]
    exact h.links line hl before flow rest hline
  case targets =>
    intro d flow hmem hdep
    by_cases hc : ∃ target, call = .addDependency target (some d)
    · obtain ⟨target, rfl⟩ := hc
      cases hs with
      | addDependency _ _ hadd =>
        obtain ⟨e, -, hd⟩ := addDependency_spec hadd
        rcases hd.mem.mp hdep with hdep | ⟨rfl, -⟩
        · exact h.targets d flow hmem hdep
        · exact absurd rfl (hforeign flow hmem).1
    · rw [hs.dependencies fun target heq => hc ⟨target, heq⟩] at hdep
      exact h.targets d flow hmem hdep
  case told =>
    intro d targets hframe flow hmem ht
    rcases hs.told hframe ht with hdep | ⟨targets', hframe, ht⟩
    · exact h.targets d flow hmem hdep
    · exact h.told d targets' hframe flow hmem ht
  case info =>
    intro flow hmem
    obtain ⟨t, ht⟩ := hs.flows
    have hinfo := h.info flow hmem
    rw [← ht, List.getElem?_append_left (List.getElem?_eq_some_iff.mp hinfo).1]
    exact hinfo
  case now => exact h.now.trans hnow
  case future => exact fun e he => (hevents e he).1
  case pending =>
    intro flow hmem time he
    rcases (hevents _ he).2 with he | ⟨flow', rfl, heq⟩
    · exact (h.pending flow hmem time he).trans hnow
    · cases heq
      exact absurd hmem hforeign

/-! ## What a line says -/

/-- A flow is run after all flows before it have completed. -/
theorem Line.pairwise (h : Line s frames line) :
    line.Pairwise fun flow next => 0 < s.callbacks next → view s frames flow = .finished := by
  cases h with
  | finished hall => exact List.pairwise_of_forall_mem_list fun flow hf _ _ _ => hall flow hf
  | @head before flow rest hline hbefore _ hrest =>
    have hno : ∀ next ∈ rest, ¬0 < s.callbacks next := by
      intro next hn hpos
      obtain ⟨n, -, hw⟩ := hrest next hn
      exact absurd (congrArg FlowView.callbacks hw) (Nat.ne_of_gt hpos)
    rw [hline, List.pairwise_append, List.pairwise_cons]
    refine ⟨List.pairwise_of_forall_mem_list fun flow hf _ _ _ => hbefore flow hf,
      ⟨fun next hn hpos => absurd hpos (hno next hn),
        List.pairwise_of_forall_mem_list fun _ _ next hn hpos => absurd hpos (hno next hn)⟩,
      fun flow hf _ _ _ => hbefore flow hf⟩

theorem Line.callbacks_le (h : Line s frames line) (hf : flow ∈ line) : s.callbacks flow ≤ 1 := by
  cases h.position hf with
  | finished hv => exact Nat.le_of_eq (congrArg FlowView.callbacks hv)
  | waiting _ hv => exact le_of_eq_of_le (congrArg FlowView.callbacks hv) (Nat.zero_le 1)
  | head _ _ hhead =>
    cases hhead with
    | due hv => exact le_of_eq_of_le (congrArg FlowView.callbacks hv) (Nat.zero_le 1)
    | running hv | completing hv | telling _ hv =>
      exact Nat.le_of_eq (congrArg FlowView.callbacks hv)

theorem Line.callbacks_of_completed (h : Line s frames line) (hf : flow ∈ line)
    (hc : s.completed flow = true) : 0 < s.callbacks flow := by
  have hno : ∀ v, view s frames flow = v → v.completed = true := fun v hv => hv ▸ hc
  cases h.position hf with
  | finished hv => exact Nat.lt_of_lt_of_eq Nat.zero_lt_one (congrArg FlowView.callbacks hv).symm
  | waiting _ hv => cases hno _ hv
  | head _ _ hhead =>
    cases hhead with
    | due hv | running hv => cases hno _ hv
    | completing hv | telling _ hv =>
      exact Nat.lt_of_lt_of_eq Nat.zero_lt_one (congrArg FlowView.callbacks hv).symm

/-- One flow of a line runs at most. -/
theorem Line.eq_of_running (h : Line s frames line) (hf : flow ∈ line) (hf' : flow' ∈ line)
    (hcb : 0 < s.callbacks flow) (hc : s.completed flow = false)
    (hcb' : 0 < s.callbacks flow') (hc' : s.completed flow' = false) : flow = flow' := by
  have hnot : ∀ t, s.completed t = false → view s frames t ≠ .finished := fun t ht hv => by
    have htrue : s.completed t = true := congrArg FlowView.completed hv
    rw [ht] at htrue
    cases htrue
  cases h.position hf with
  | finished hv => exact absurd hv (hnot flow hc)
  | waiting _ hv => exact absurd (congrArg FlowView.callbacks hv) (Nat.ne_of_gt hcb)
  | head hline hbefore _ hrest =>
    rw [hline, List.mem_append, List.mem_cons] at hf'
    rcases hf' with hf' | rfl | hf'
    · exact absurd (hbefore flow' hf') (hnot flow' hc')
    · rfl
    · obtain ⟨n, -, hv⟩ := hrest flow' hf'
      exact absurd (congrArg FlowView.callbacks hv) (Nat.ne_of_gt hcb')

/-- When nothing is being told, a line with a flow that has not completed has a flow that runs, or
that an event is about to run. -/
theorem Line.exists_running (h : Line s [] line) (hf : flow ∈ line)
    (hc : s.completed flow = false) :
    ∃ head ∈ line, (0 < s.callbacks head ∧ s.completed head = false) ∨
      FlowScheduler.Scheduled s.events head := by
  cases h with
  | finished hall =>
    have htrue : s.completed flow = true := congrArg FlowView.completed (hall flow hf)
    rw [hc] at htrue
    cases htrue
  | @head before head rest hline _ hhead =>
    refine ⟨head, hline ▸ List.mem_append_right _ List.mem_cons_self, ?_⟩
    cases hhead with
    | due hv =>
      refine .inr (by_contra fun hno => ?_)
      have hone : startEvents s.events head = 1 := congrArg FlowView.scheduled hv
      exact absurd (hone.symm.trans (startEvents_eq_zero.mpr hno)) Nat.one_ne_zero
    | running hv =>
      exact .inl ⟨Nat.lt_of_lt_of_eq Nat.zero_lt_one (congrArg FlowView.callbacks hv).symm,
        congrArg FlowView.completed hv⟩
    | completing hv | telling _ hv =>
      have hnil : [] = _ := congrArg FlowView.telling hv
      cases hnil

/-- The assertion of the loop over the targets does not fail. -/
theorem Lines.resolve {rest : List FlowPtr}
    (h : Lines s (.onFlowFinish source (target :: rest) :: stack) lines)
    (hf : source ∈ lines.flatten) : ∃ next s', target = some next ∧
      s.resolve (some next) = some s' ∧
      s'.remDependencies (some next) = 0 ∧ (s'.info next).startTime ≤ s'.now := by
  obtain ⟨line, hl, hf⟩ := List.mem_flatten.mp hf
  obtain ⟨before, next, rest, ht⟩ := h.tells hl hf
  have hone : s.remDependencies (some next) = 1 := congrArg FlowView.remDependencies ht.next
  have hnext : next ∈ lines.flatten := List.mem_flatten.mpr ⟨line, hl, by simp [ht.line]⟩
  refine ⟨next, _, ht.target, if_neg (by rw [hone]; exact Nat.one_ne_zero), ?_, ?_⟩
  · refine (update_self ..).trans ?_
    rw [hone]
  · have hinfo := h.info next hnext
    simp only [FlowScheduler.info, List.getD_eq_getElem?_getD] at hinfo ⊢
    rw [hinfo]
    exact h.now

end FlowSimulation
end Roce
