import Roce.Flow.McastPhase
import Roce.Flow.FinishCounts

/-! # The chains are built

`OnFlowStarted` makes a line of flows of each chain: the first multicast is due, and all other flows
wait for the one before them. -/

namespace Roce

open Function

namespace FlowSimulation

open FlowScheduler (Scheduled)

variable {s s' : FlowScheduler} {frames stack : List FlowFrame} {flow : Nat} {line : List Nat}
  {lines : List (List Nat)}

/-! ## A line is built -/

/-- Empty lines do not count. -/
theorem Lines.of_flatten {lines' : List (List Nat)} (h : Lines s frames lines)
    (hflatten : lines'.flatten = lines.flatten) (hmem : ∀ line ∈ lines', line = [] ∨ line ∈ lines) :
    Lines s frames lines' := by
  constructor
  case fresh => exact h.fresh
  case nodup => exact hflatten ▸ h.nodup
  case line =>
    intro line hl
    rcases hmem line hl with rfl | hl
    · exact .finished fun flow hf => absurd hf List.not_mem_nil
    · exact h.line line hl
  case links =>
    intro line hl before flow rest hline
    rcases hmem line hl with rfl | hl
    · simp at hline
    · exact h.links line hl before flow rest hline
  case targets => exact hflatten ▸ h.targets
  case told => exact hflatten ▸ h.told
  case info => exact hflatten ▸ h.info
  case now => exact h.now
  case future => exact h.future
  case pending => exact hflatten ▸ h.pending

theorem view_addFlow (h : Fresh s frames) : view (s.addFlow {}) frames s.flows.length = .due := by
  obtain ⟨hcb, hc, hrem, hs, htell⟩ := FlowView.mk.inj (h.view s.flows.length (Nat.le_refl _))
  refine FlowView.ext hcb hc hrem ?_ htell
  change startEvents (s.events ++ [(_, .start s.flows.length)]) s.flows.length = 1
  rw [startEvents_append, startEvents_cons_self, hs]
  rfl

/-- A flow is created and added; its `m_info` is not set. -/
theorem Lines.newFlow (h : Lines s (.outside :: stack) lines) :
    Lines (s.addFlow {}) (.outside :: stack) (lines ++ [[s.flows.length]]) := by
  have hnot : s.flows.length ∉ lines.flatten := fun hmem =>
    Nat.lt_irrefl _ (List.getElem?_eq_some_iff.mp (h.info _ hmem)).1
  have h₁ : Lines { s with flows := s.flows ++ [{}] } (.outside :: stack) lines :=
    h.step (x := ⟨s, [], .outside :: stack⟩) .create trivial trivial
  have hlt : s.flows.length < (s.flows ++ [({} : SerializedFlow)]).length := by simp
  have h₂ : Lines (s.addFlow {}) (.outside :: stack) lines := by
    rw [FlowScheduler.addFlow_eq]
    exact h₁.step (x := ⟨_, [], .outside :: stack⟩) (.addFlow hlt) hnot trivial
  have hfresh := h.fresh.view s.flows.length (Nat.le_refl _)
  have hflatten : (lines ++ [[s.flows.length]]).flatten = lines.flatten ++
    [s.flows.length] := by simp
  constructor
  case fresh => exact h₂.fresh
  case nodup =>
    rw [hflatten]
    exact List.nodup_append.mpr ⟨h.nodup, List.nodup_singleton _, fun t ht t' ht' heq =>
      hnot (List.mem_singleton.mp ht' ▸ heq ▸ ht)⟩
  case line =>
    refine List.forall_mem_append.mpr ⟨h₂.line, List.forall_mem_singleton.mpr ?_⟩
    have hline : [s.flows.length] = [] ++ s.flows.length :: [] := rfl
    exact .head hline (fun _ hn => absurd hn List.not_mem_nil) (.due (view_addFlow h.fresh))
      fun _ hn => absurd hn List.not_mem_nil
  case links =>
    refine List.forall_mem_append.mpr ⟨h₂.links, List.forall_mem_singleton.mpr ?_⟩
    intro before flow rest hline
    obtain ⟨rfl, rfl, rfl⟩ : before = [] ∧ flow = s.flows.length ∧ rest = [] := by
      cases before with
      | nil => simpa [eq_comm] using hline
      | cons => simp at hline
    exact h.fresh.dependencies _ (Nat.le_refl _)
  case targets =>
    rw [hflatten]
    intro d flow hmem hdep
    refine List.mem_append_left _ ?_
    rcases List.mem_append.mp hmem with hmem | hmem
    · exact h₂.targets d flow hmem hdep
    · cases List.mem_singleton.mp hmem
      exact absurd (h.fresh.targets d _ hdep) (Nat.lt_irrefl _)
  case told =>
    rw [hflatten]
    intro d targets hframe flow hmem ht
    refine List.mem_append_left _ ?_
    rcases List.mem_append.mp hmem with hmem | hmem
    · exact h₂.told d targets hframe flow hmem ht
    · cases List.mem_singleton.mp hmem
      exact absurd (h.fresh.told d targets hframe _ ht) (Nat.lt_irrefl _)
  case info =>
    rw [hflatten]
    refine List.forall_mem_append.mpr ⟨h₂.info, List.forall_mem_singleton.mpr ?_⟩
    simp [FlowScheduler.addFlow]
  case now => exact h₂.now
  case future => exact h₂.future
  case pending =>
    rw [hflatten]
    refine List.forall_mem_append.mpr ⟨h₂.pending, List.forall_mem_singleton.mpr ?_⟩
    intro time hmem
    rcases List.mem_append.mp hmem with hmem | hmem
    · have hzero : startEvents s.events s.flows.length = 0 := congrArg FlowView.scheduled hfresh
      exact absurd (List.mem_map.mpr ⟨_, hmem, rfl⟩) (startEvents_eq_zero.mp hzero)
    · cases List.mem_singleton.mp hmem
      have := h.now
      change s.now + max 0 (0 - s.now) ≤ s.now
      omega

theorem Fresh.declare (h : Fresh s frames) (hd : Declares s s' (some flow) d)
    (hflow : flow < s.flows.length) (hlt : d < s.flows.length) : Fresh s' frames := by
  have hflows : s'.flows = s.flows := by rw [hd.rest]
  constructor
  case view =>
    intro t ht
    rw [hflows] at ht
    rw [hd.view_eq fun heq => Nat.not_lt_of_le ht (by rwa [← Option.some.inj heq])]
    exact h.view t ht
  case dependencies =>
    intro t ht
    rw [hflows] at ht
    rw [hd.dependencies, update_of_ne (Nat.ne_of_gt (Nat.lt_of_lt_of_le hlt ht))]
    exact h.dependencies t ht
  case targets =>
    intro e t hmem
    rw [hflows]
    rcases hd.mem.mp hmem with hmem | ⟨heq, -⟩
    · exact h.targets e t hmem
    · rwa [Option.some.inj heq]
  case told => exact hflows ▸ h.told

/-- An element of a list is the last one, or comes before the last one. -/
theorem append_cons_eq {before b r : List α} (h : before ++ [a] = b ++ t :: r) :
    t = a ∧ r = [] ∨ ∃ r', before = b ++ t :: r' ∧ r = r' ++ [a] := by
  rcases List.eq_nil_or_concat r with rfl | ⟨r', last, rfl⟩
  · obtain ⟨-, heq⟩ := List.append_inj' h rfl
    exact .inl ⟨(List.cons.inj heq).1.symm, rfl⟩
  · rw [List.concat_eq_append, ← List.cons_append, ← List.append_assoc] at h
    obtain ⟨heq, hlast⟩ := List.append_inj' h rfl
    obtain rfl := (List.cons.inj hlast).1
    exact .inr ⟨r', heq, List.concat_eq_append⟩

/-- Of a line no flow of which has been run, the first one is due, and the others wait. -/
theorem Line.idle (h : Line s frames line) (hne : line ≠ [])
    (hidle : ∀ t ∈ line, s.callbacks t = 0) : ∃ head rest, line = head :: rest ∧
      view s frames head = .due ∧ ∀ next ∈ rest, ∃ n ≤ 1, view s frames next = .waiting n := by
  have hzero : ∀ t ∈ line, ∀ v, view s frames t = v → v.callbacks = 0 := fun t ht v hv =>
    hv ▸ hidle t ht
  cases h with
  | finished hall =>
    obtain ⟨t, ht⟩ := List.exists_mem_of_ne_nil _ hne
    exact absurd (hzero t ht _ (hall t ht)) Nat.one_ne_zero
  | @head before head rest hline hbefore hhead hrest =>
    cases before with
    | cons t before =>
      have ht : t ∈ line := hline ▸ List.mem_cons_self
      exact absurd (hzero t ht _ (hbefore t List.mem_cons_self)) Nat.one_ne_zero
    | nil =>
      have hmem : head ∈ line := hline ▸ List.mem_cons_self
      refine ⟨head, rest, hline, ?_, hrest⟩
      cases hhead with
      | due hdue => exact hdue
      | running hv | completing hv | telling _ hv =>
        exact absurd (hzero head hmem _ hv) Nat.one_ne_zero

theorem Line.not_completed (h : Line s frames line) (hidle : ∀ t ∈ line, s.callbacks t = 0)
    (ht : t ∈ line) : s.completed t = false := by
  obtain ⟨head, rest, rfl, hdue, hrest⟩ := h.idle (List.ne_nil_of_mem ht) hidle
  rcases List.mem_cons.mp ht with rfl | ht
  · exact congrArg FlowView.completed hdue
  · obtain ⟨n, -, hv⟩ := hrest t ht
    exact congrArg FlowView.completed hv

/-- A flow that waits is put behind such a line. -/
theorem Line.snoc (h : Line s frames line) (hne : line ≠ [])
    (hidle : ∀ t ∈ line, s.callbacks t = 0)
    (hold : ∀ t ∈ line, view s' frames t = view s frames t)
    (hflow : view s' frames flow = .waiting 1) : Line s' frames (line ++ [flow]) := by
  obtain ⟨head, rest, rfl, hdue, hrest⟩ := h.idle hne hidle
  have hline : head :: rest ++ [flow] = [] ++ head :: (rest ++ [flow]) := rfl
  refine .head hline (fun t ht => absurd ht List.not_mem_nil)
    (.due ((hold head List.mem_cons_self).trans hdue))
      (List.forall_mem_append.mpr ⟨fun t ht => ?_, ?_⟩)
  · rw [hold t (List.mem_cons_of_mem _ ht)]
    exact hrest t ht
  · exact List.forall_mem_singleton.mpr ⟨1, Nat.le_refl 1, hflow⟩

/-- The flow waits for the one that it depends on, which has not completed. -/
theorem Declares.waiting (hd : Declares s s' (some flow) d) (hc : s.completed d = false)
    (hdue : view s frames flow = .due) : view s' frames flow = .waiting 1 := by
  obtain ⟨hcb, hcf, hrem, hs, htell⟩ := FlowView.mk.inj hdue
  have hr : s'.remDependencies (some flow) = 1 := by
    rw [hd.rem, hc, if_neg Bool.false_ne_true, update_self, hrem]
  rw [hd.rest] at hr ⊢
  exact FlowView.ext hcb hcf hr hs htell

/-- In a line each flow tells the next one; so the last one now tells the flow put behind it. -/
theorem Declares.links {before : List Nat} (hd : Declares s s' (some flow) d)
    (hnodup : (before ++ [d, flow]).Nodup) (hflow : s.dependencies flow = [])
    (hlinks : ∀ b t r, before ++ [d] = b ++ t :: r →
      s.dependencies t = r.head?.toList.map some) :
    ∀ b t r, before ++ [d, flow] = b ++ t :: r →
      s'.dependencies t = r.head?.toList.map some := by
  have hother : ∀ t ≠ d, s'.dependencies t = s.dependencies t := fun t ht => by
    rw [hd.dependencies, update_of_ne ht]
  intro b t r heq
  rcases append_cons_eq (List.append_cons before d [flow] ▸ heq) with ⟨rfl, rfl⟩ | ⟨r', hsplit, rfl⟩
  · have hne : t ≠ d := ne_of_append_cons hnodup (List.mem_singleton_self t)
    rw [hother t hne, hflow]
    rfl
  · rcases append_cons_eq hsplit with ⟨rfl, rfl⟩ | ⟨r'', -, rfl⟩
    · rw [hd.dependencies, update_self, hlinks b t [] hsplit]
      rfl
    · have hne : d ≠ t := by
        rw [heq] at hnodup
        exact ne_of_append_cons hnodup (by simp)
      rw [hother t hne.symm, hlinks b t _ hsplit]
      cases r'' <;> rfl

/-- The flow of the last line is made to depend on the last flow of the line before it, of which no
flow has been run. -/
theorem Lines.join {before : List Nat} (h : Lines s frames (lines ++ [before ++ [d]] ++ [[flow]]))
    (hidle : ∀ t ∈ before ++ [d], s.callbacks t = 0) (hdue : view s frames flow = .due)
    (hd : Declares s s' (some flow) d) : Lines s' frames (lines ++ [before ++ [d, flow]]) := by
  have hflatten : (lines ++ [before ++ [d, flow]]).flatten =
      (lines ++ [before ++ [d]] ++ [[flow]]).flatten := by simp
  have hdmem : d ∈ (lines ++ [before ++ [d]] ++ [[flow]]).flatten := by simp
  have hflow : flow ∈ (lines ++ [before ++ [d]] ++ [[flow]]).flatten := by simp
  have hlt : ∀ t ∈ (lines ++ [before ++ [d]] ++ [[flow]]).flatten, t < s.flows.length := fun t ht =>
    (List.getElem?_eq_some_iff.mp (h.info t ht)).1
  have hnodup := hflatten ▸ h.nodup
  have hnew : (before ++ [d, flow]).Nodup := (List.nodup_flatten.mp hnodup).1 _ (by simp)
  have hdisjoint : ∀ line ∈ lines, ∀ t ∈ line, t ∉ before ++ [d, flow] := by
    intro line hl t ht hmem
    rw [List.flatten_append, List.flatten_singleton] at hnodup
    exact (List.nodup_append.mp hnodup).2.2 t (List.mem_flatten.mpr ⟨line, hl, ht⟩) t hmem rfl
  have hview : ∀ t ≠ flow, view s' frames t = view s frames t := fun t ht =>
    hd.view_eq fun heq => ht (Option.some.inj heq).symm
  have hlast : before ++ [d] ∈ lines ++ [before ++ [d]] ++ [[flow]] := by simp
  have hmem : ∀ line ∈ lines, line ∈ lines ++ [before ++ [d]] ++ [[flow]] := fun line hl => by
    simp [hl]
  constructor
  case fresh => exact h.fresh.declare hd (hlt flow hflow) (hlt d hdmem)
  case nodup => exact hnodup
  case line =>
    refine List.forall_mem_append.mpr ⟨fun line hl => ?_, List.forall_mem_singleton.mpr ?_⟩
    · refine (h.line line (hmem line hl)).congr fun t ht => .inl (hview t ?_)
      rintro rfl
      exact hdisjoint line hl t ht (by simp)
    · have hline := h.line _ hlast
      have hc := hline.not_completed hidle (List.mem_append_right _ (List.mem_singleton_self d))
      rw [List.append_cons]
      refine hline.snoc (by simp) hidle (fun t ht => hview t ?_) (hd.waiting hc hdue)
      rintro rfl
      rw [List.append_cons] at hnew
      exact (List.nodup_append.mp hnew).2.2 t ht t (List.mem_singleton_self t) rfl
  case links =>
    refine List.forall_mem_append.mpr ⟨fun line hl b t r heq => ?_,
      List.forall_mem_singleton.mpr ?_⟩
    · have htd : t ≠ d := by
        rintro rfl
        exact hdisjoint line hl t (heq ▸ List.mem_append_right _ List.mem_cons_self) (by simp)
      rw [hd.dependencies, update_of_ne htd]
      exact h.links line (hmem line hl) b t r heq
    · refine hd.links hnew ?_ (h.links _ hlast)
      exact h.links [flow] (List.mem_append_right _ (List.mem_singleton_self _)) [] flow [] rfl
  case targets =>
    rw [hflatten]
    intro e t ht hdep
    rcases hd.mem.mp hdep with hdep | ⟨-, rfl⟩
    · exact h.targets e t ht hdep
    · exact hdmem
  case told => exact hflatten ▸ h.told
  case info =>
    rw [hflatten, hd.rest]
    exact h.info
  case now =>
    rw [hd.rest]
    exact h.now
  case future =>
    rw [hd.rest]
    exact h.future
  case pending =>
    rw [hflatten, hd.rest]
    exact h.pending

/-- Some flows of a line have been created. -/
structure Building (s₀ s : FlowScheduler) (stack : List FlowFrame) (lines : List (List Nat))
    (line : List Nat) : Prop where
  lines : Lines s (.outside :: stack) (lines ++ [line])
  counts : FinishCounts s (.outside :: stack)
  rest : s = { s₀ with
    flows := s.flows, events := s.events, dependencies := s.dependencies
    remDependencies := s.remDependencies }
  flows : s₀.flows <+: s.flows
  new : ∀ flow ∈ line, s₀.flows.length ≤ flow

theorem FinishCounts.addFlow (h : FinishCounts s frames) (hfresh : Fresh s frames) :
    FinishCounts (s.addFlow {}) frames := (h.create hfresh).congr rfl rfl rfl rfl

/-- One more flow of a line is created. -/
theorem Building.append {s₀ : FlowScheduler} (h₀ : Fresh s₀ frames)
    (h : Building s₀ s stack lines line)
    (hs : (if line.getLast?.isSome then
        (s.addFlow {}).addDependency (some s.flows.length) line.getLast?
      else some (s.addFlow {})) = some s') :
    Building s₀ s' stack lines (line ++ [s.flows.length]) := by
  have hnew := h.lines.newFlow
  have hcounts := h.counts.addFlow h.lines.fresh
  have hflows : s₀.flows <+: (s.addFlow {}).flows := h.flows.trans (List.prefix_append ..)
  have hall : ∀ flow ∈ line ++ [s.flows.length], s₀.flows.length ≤ flow :=
    List.forall_mem_append.mpr ⟨h.new, List.forall_mem_singleton.mpr h.flows.length_le⟩
  rcases List.eq_nil_or_concat line with rfl | ⟨before, d, rfl⟩
  · cases hs
    refine ⟨hnew.of_flatten (by simp) fun line hl => .inr ?_, hcounts, ?_, hflows, hall⟩
    · rw [List.mem_append] at hl ⊢
      exact hl.imp (List.mem_append_left _) id
    · rw [h.rest]
      rfl
  · rw [List.concat_eq_append] at h hs hall hnew ⊢
    rw [List.getLast?_concat, Option.isSome_some, if_pos rfl] at hs
    obtain ⟨e, heq, hd⟩ := addDependency_spec hs
    cases heq
    have hidle : ∀ t ∈ before ++ [d], (s.addFlow {}).callbacks t = 0 := by
      intro t ht
      rw [h.rest]
      exact congrArg FlowView.callbacks (h₀.view t (h.new t ht))
    have hjoin := hnew.join hidle (view_addFlow h.lines.fresh) hd
    have hrest := hd.rest
    refine ⟨?_, ?_, ?_, ?_, hall⟩
    · rwa [List.append_assoc]
    · rw [hrest]
      exact hcounts.congr rfl rfl rfl rfl
    · rw [hrest, h.rest]
      rfl
    · rw [hrest]
      exact hflows

end FlowSimulation

namespace AgFlowMcastPhase

open FlowSimulation

variable {s s' : FlowScheduler} {frames stack : List FlowFrame} {line : List Nat}
  {lines : List (List Nat)} {phase : AgFlowMcastPhase}

theorem addMcast_spec {s₀ : FlowScheduler} (h₀ : Fresh s₀ frames)
    (h : Building s₀ s stack lines line)
    (hm : addMcast s line.getLast? mcastSrc = some (s', mcast)) :
    Building s₀ s' stack lines (line ++ mcast.flows) ∧ mcast.mcastSrc = mcastSrc := by
  simp only [addMcast, Option.bind_eq_bind, Option.bind_eq_some_iff] at hm
  obtain ⟨s₁, hs₁, s₂, hs₂, hm⟩ := hm
  cases hm
  have h₁ := h.append h₀ hs₁
  have hlast : (line ++ [s.flows.length]).getLast? = some s.flows.length := List.getLast?_concat
  have h₂ : Building s₀ s' stack lines _ :=
    h₁.append h₀ (by rw [hlast, Option.isSome_some, if_pos rfl]; exact hs₂)
  rw [List.append_assoc] at h₂
  exact ⟨h₂, rfl⟩

/-- The loop over a chain makes a line of its flows. -/
theorem addChain_spec {s₀ : FlowScheduler} (h₀ : Fresh s₀ frames) {chain : List Nat}
    {ms : List PhaseMcast} (h : Building s₀ s stack lines line)
    (hm : addChain s line.getLast? chain = some (s', ms)) :
    Building s₀ s' stack lines (line ++ ms.flatMap PhaseMcast.flows) ∧
      ms.map (·.mcastSrc) = chain := by
  induction chain generalizing s line ms with
  | nil =>
    rw [addChain] at hm
    split at hm
    next =>
      cases hm
      rw [List.flatMap_nil, List.append_nil]
      exact ⟨h, rfl⟩
    next => cases hm
  | cons mcastSrc chain ih =>
    obtain ⟨⟨s₁, mcast⟩, hmcast, hm⟩ := Option.bind_eq_some_iff.mp hm
    obtain ⟨⟨s₂, ms'⟩, hchain, hm⟩ := Option.bind_eq_some_iff.mp hm
    cases hm
    obtain ⟨h₁, hsrc⟩ := addMcast_spec h₀ h hmcast
    have hlast : (line ++ mcast.flows).getLast? = some mcast.wait := by simp [PhaseMcast.flows]
    obtain ⟨h₂, hsrcs⟩ := ih h₁ (hlast ▸ hchain)
    rw [List.flatMap_cons, ← List.append_assoc, List.map_cons, hsrc, hsrcs]
    exact ⟨h₂, rfl⟩

/-- The loop over the chains makes a line of each of them. -/
theorem addChains_spec {s₀ : FlowScheduler} (h₀ : Fresh s₀ frames) {chains : List (List PhaseMcast)}
    (h : Building s₀ s stack lines []) (hm : addChains s order = some (s', chains)) :
    Building s₀ s' stack (lines ++ chains.map (·.flatMap PhaseMcast.flows)) [] ∧
      chains.map (·.map (·.mcastSrc)) = order ∧
      ∀ flow ∈ (chains.map (·.flatMap PhaseMcast.flows)).flatten, s₀.flows.length ≤ flow := by
  induction order generalizing s lines chains with
  | nil =>
    cases hm
    rw [List.map_nil, List.append_nil]
    exact ⟨h, rfl, fun flow hf => absurd hf List.not_mem_nil⟩
  | cons chain order ih =>
    obtain ⟨⟨s₁, ms⟩, hchain, hm⟩ := Option.bind_eq_some_iff.mp hm
    obtain ⟨⟨s₂, chains'⟩, hchains, hm⟩ := Option.bind_eq_some_iff.mp hm
    cases hm
    obtain ⟨h₁, hsrc⟩ := addChain_spec h₀ h hchain
    have h₂ : Building s₀ s₁ stack (lines ++ [ms.flatMap PhaseMcast.flows]) [] := by
      refine ⟨?_, h₁.counts, h₁.rest, h₁.flows, fun flow hf => absurd hf List.not_mem_nil⟩
      refine h₁.lines.of_flatten (by simp) fun line hl => ?_
      rcases List.mem_append.mp hl with hl | hl
      · exact .inr hl
      · exact .inl (List.mem_singleton.mp hl)
    obtain ⟨h₃, hsrcs, hnew⟩ := ih h₂ hchains
    rw [List.map_cons, List.append_cons, List.map_cons, hsrc, hsrcs, List.flatten_cons]
    exact ⟨h₃, rfl, List.forall_mem_append.mpr ⟨h₁.new, hnew⟩⟩

theorem addMcast_isSome (s : FlowScheduler) (previous : FlowPtr) (mcastSrc : Nat) :
    ∃ s' mcast, addMcast s previous mcastSrc = some (s', mcast) := by
  cases previous <;> exact ⟨_, _, rfl⟩

theorem addChain_isSome {chain : List Nat} (h : previous.isSome ∨ chain ≠ []) :
    ∃ s' ms, addChain s previous chain = some (s', ms) := by
  induction chain generalizing s previous with
  | nil => exact ⟨s, [], if_pos (h.resolve_right fun hne => hne rfl)⟩
  | cons mcastSrc chain ih =>
    obtain ⟨s₁, mcast, h₁⟩ := addMcast_isSome s previous mcastSrc
    obtain ⟨s₂, ms, h₂⟩ := ih (s := s₁) (.inl (Option.isSome_some (a := mcast.wait)))
    refine ⟨s₂, mcast :: ms, ?_⟩
    simp [addChain, h₁, h₂]

theorem addChains_isSome (h : ∀ chain ∈ order, chain ≠ []) :
    ∃ s' chains, addChains s order = some (s', chains) := by
  induction order generalizing s with
  | nil => exact ⟨s, [], rfl⟩
  | cons chain order ih =>
    obtain ⟨hchain, horder⟩ := List.forall_mem_cons.mp h
    obtain ⟨s₁, ms, h₁⟩ : ∃ s' ms, addChain s none chain = some (s', ms) :=
      addChain_isSome (.inr hchain)
    obtain ⟨s₂, chains, h₂⟩ := ih (s := s₁) horder
    refine ⟨s₂, ms :: chains, ?_⟩
    simp [addChains, h₁, h₂]

/-! ## The chains -/

/-- Consecutive pieces of one length make up the list. -/
theorem flatten_pieces (l : List Nat) (k n : Nat) (h : k * n ≤ l.length) :
    ((List.range n).map fun c => (List.range k).map fun i => l.getD (k * c + i) 0).flatten =
      l.take (k * n) := by
  induction n with
  | zero => simp
  | succ n ih =>
    rw [Nat.mul_succ] at h ⊢
    rw [List.range_succ, List.map_append, List.flatten_append, ih (by omega), List.take_add]
    congr 1
    refine List.ext_getElem (by simp; omega) fun i hi hi' => ?_
    simp only [List.map_cons, List.map_nil, List.flatten_cons, List.flatten_nil, List.append_nil,
      List.length_map, List.length_range] at hi
    have hlt : k * n + i < l.length := by omega
    simp [List.getElem?_eq_getElem hlt]

theorem buildMulticastChains_spec (hdvd : roots ∣ servers.length)
    (h : buildMulticastChains servers roots = some order) :
    order.flatten = servers ∧ order.length = roots ∧
      (servers ≠ [] → ∀ chain ∈ order, chain ≠ []) := by
  rw [buildMulticastChains, if_neg (by simpa using Nat.mod_eq_zero_of_dvd hdvd)] at h
  cases h
  have hmul := Nat.div_mul_cancel hdvd
  refine ⟨?_, by simp, fun hne chain hmem heq => ?_⟩
  · rw [flatten_pieces _ _ _ (Nat.le_of_eq hmul), hmul, List.take_length]
  · obtain ⟨c, -, rfl⟩ := List.mem_map.mp hmem
    have hzero : servers.length / roots = 0 := by simpa using congrArg List.length heq
    rw [hzero, Nat.zero_mul] at hmul
    exact hne (List.length_eq_zero_iff.mp hmul.symm)

end AgFlowMcastPhase
end Roce
