import Roce.Flow.QueuePairKeys
import Roce.Lib.Machine

/-! # The completion of a bisection

`RdmaFlowBisection`: every server writes to one of the other half. The writes are counted in a
closure that is handed to each of them as a function object, which is copied with the value of the
counter. -/

namespace Roce

/-- The closure `on_single_write_complete`: what it captures by value, and its own counter. -/
structure WriteCallback where
  nServersPerHalf : Nat
  nWriteComplete : Nat := 0
  deriving DecidableEq, Repr

/-- The call of the closure, and whether it calls `NotifyComplete`. -/
def WriteCallback.call (c : WriteCallback) : WriteCallback × Bool :=
  let nWriteComplete := c.nWriteComplete + 1
  ({ c with nWriteComplete }, nWriteComplete = c.nServersPerHalf)

/-- A write: its pair of servers, and the function object in its send request. -/
structure BisectionWrite where
  initiator : Nat
  target : Nat
  onSend : WriteCallback
  deriving DecidableEq, Repr

/-- A flow with the local variable of its `OnFlowStarted`. The last two are a history that no
function reads: the writes that have completed, in order, and those at each call of the
callbacks. -/
structure RdmaFlowBisection where
  onSingleWriteComplete : WriteCallback
  writes : List BisectionWrite := []
  completed : Bool := false
  finished : List Nat := []
  notified : List (List Nat) := []
  deriving DecidableEq, Repr

namespace RdmaFlowBisection

section
variable (f : RdmaFlowBisection)

/-- `NotifyComplete`. -/
def notifyComplete : Option RdmaFlowBisection :=
  if f.completed then none
  else some { f with completed := true, notified := f.notified ++ [f.finished] }

/-- `OnFlowStarted`, up to the loop over the pairs. -/
def onFlowStarted (servers : List Nat) : Option RdmaFlowBisection :=
  if servers.length % 2 ≠ 0 then none
  else some { onSingleWriteComplete := { nServersPerHalf := servers.length / 2 } }

/-- `StartWrite`. The request gets a copy of the closure. -/
def startWrite (pair : Nat × Nat) : RdmaFlowBisection :=
  { f with writes := f.writes ++ [⟨pair.1, pair.2, f.onSingleWriteComplete⟩] }

/-- The write completes: the function object of its request is called. -/
def completeWrite (i : Nat) : Option RdmaFlowBisection := do
  let w ← f.writes[i]?
  let (onSend, notify) := w.onSend.call
  let f := { f with writes := f.writes.set i { w with onSend }, finished := f.finished ++ [i] }
  if notify then f.notifyComplete else some f

end

/-- What happens to the flow. -/
inductive Event where
  | start
  | complete (i : Nat)

/-- The loop starts the pairs in order. A write completes once, and it may do so before the next one
is started. -/
inductive Step (servers : List Nat) : RdmaFlowBisection → Event → RdmaFlowBisection → Prop
  | start : (QpRegistry.bisectionWrites servers)[f.writes.length]? = some pair →
    Step servers f .start (f.startWrite pair)
  | complete : i ∉ f.finished → f.completeWrite i = some f' → Step servers f (.complete i) f'

def machine (servers : List Nat) : Machine RdmaFlowBisection Event :=
  ⟨fun f => onFlowStarted servers = some f, Step servers⟩

/-- No write aborts the program, and the callbacks are called once, when the last of the writes has
completed. -/
def NotifiesWithLast (servers : List Nat) : Prop :=
  ∀ f, (machine servers).Reachable f →
    (∀ i < f.writes.length, i ∉ f.finished → (f.completeWrite i).isSome) ∧
    f.notified = if f.finished.length = servers.length / 2 then [f.finished] else []

/-! ## The counters -/

section
variable {servers : List Nat} {f f' : RdmaFlowBisection} {i : Nat}

theorem length_bisectionWrites (servers : List Nat) :
    (QpRegistry.bisectionWrites servers).length = servers.length / 2 := by
  rw [QpRegistry.bisectionWrites, List.filterMap_length_eq_length.mpr, List.length_range]
  intro i hi
  have hlt := List.mem_range.mp hi
  rw [List.getElem?_eq_getElem (show i < servers.length by omega),
    List.getElem?_eq_getElem (show servers.length / 2 + i < servers.length by omega)]
  rfl

/-- The closure of the loop is never called: only its copies are, each by one write. -/
structure Counts (servers : List Nat) (f : RdmaFlowBisection) : Prop where
  closure : f.onSingleWriteComplete = { nServersPerHalf := servers.length / 2 }
  fresh : ∀ i w, f.writes[i]? = some w → i ∉ f.finished →
    w.onSend = { nServersPerHalf := servers.length / 2 }
  started : f.writes.length ≤ servers.length / 2
  nodup : f.finished.Nodup
  lt : ∀ i ∈ f.finished, i < f.writes.length

/-- The write `i` has completed. -/
def countWrite (f : RdmaFlowBisection) (i : Nat) (w : BisectionWrite) : RdmaFlowBisection :=
  { f with
    writes := f.writes.set i { w with onSend := w.onSend.call.1 }
    finished := f.finished ++ [i] }

/-- The counter of a write goes from zero to one. -/
theorem Counts.completeWrite (h : Counts servers f) (hlt : i < f.writes.length)
    (hi : i ∉ f.finished) : ∃ w, f.completeWrite i =
      if servers.length / 2 = 1 then (f.countWrite i w).notifyComplete
      else some (f.countWrite i w) := by
  have hw := h.fresh i _ (List.getElem?_eq_getElem hlt) hi
  refine ⟨f.writes[i], ?_⟩
  rw [RdmaFlowBisection.completeWrite, List.getElem?_eq_getElem hlt]
  by_cases hhalf : servers.length / 2 = 1
  · simp [hw, WriteCallback.call, hhalf, countWrite]
  · simp [hw, WriteCallback.call, hhalf, Ne.symm hhalf, countWrite]

theorem Counts.countWrite (h : Counts servers f) (w : BisectionWrite) (hlt : i < f.writes.length)
    (hi : i ∉ f.finished) : Counts servers (f.countWrite i w) where
  closure := h.closure
  fresh j v hv hj := by
    have hne : i ≠ j := by
      rintro rfl
      exact hj (by simp [RdmaFlowBisection.countWrite])
    have hv' : f.writes[j]? = some v := by
      rw [← hv, RdmaFlowBisection.countWrite, List.getElem?_set_ne hne]
    refine h.fresh j v hv' fun hmem => hj ?_
    exact List.mem_append_left _ hmem
  started := by simpa [RdmaFlowBisection.countWrite] using h.started
  nodup := by
    rw [RdmaFlowBisection.countWrite, List.nodup_append]
    refine ⟨h.nodup, List.nodup_singleton i, fun a ha b hb => ?_⟩
    obtain rfl := List.mem_singleton.mp hb
    exact fun heq => hi (heq ▸ ha)
  lt j hj := by
    simp only [RdmaFlowBisection.countWrite, List.mem_append, List.mem_singleton,
      List.length_set] at hj ⊢
    rcases hj with hj | rfl
    · exact h.lt j hj
    · exact hlt

theorem Counts.startWrite (h : Counts servers f)
    (hpair : (QpRegistry.bisectionWrites servers)[f.writes.length]? = some pair) :
    Counts servers (f.startWrite pair) where
  closure := h.closure
  fresh j v hv hj := by
    rw [RdmaFlowBisection.startWrite, List.getElem?_append] at hv
    split at hv
    · exact h.fresh j v hv hj
    · rw [List.getElem?_singleton] at hv
      split at hv
      · rw [← Option.some.inj hv]
        exact h.closure
      · cases hv
  started := by
    have hlt := (List.getElem?_eq_some_iff.mp hpair).1
    rw [length_bisectionWrites] at hlt
    simpa [RdmaFlowBisection.startWrite] using hlt
  nodup := h.nodup
  lt j hj := by
    have := h.lt j hj
    simp only [RdmaFlowBisection.startWrite, List.length_append, List.length_singleton]
    omega

/-- The callbacks are called by a write that is alone. -/
structure Outcome (servers : List Nat) (f : RdmaFlowBisection) : Prop where
  completed : f.completed = decide (servers.length / 2 = 1 ∧ f.finished ≠ [])
  notified : f.notified = if servers.length / 2 = 1 ∧ f.finished ≠ [] then [f.finished] else []

theorem Counts.finished_eq_nil (h : Counts servers f) (hhalf : servers.length / 2 = 1)
    (hlt : i < f.writes.length) (hi : i ∉ f.finished) : f.finished = [] := by
  refine List.eq_nil_iff_forall_not_mem.mpr fun j hj => hi ?_
  have hj' := h.lt j hj
  have hle := h.started
  obtain rfl : i = j := by omega
  exact hj

theorem Outcome.completeWrite (h : Outcome servers f) (hc : Counts servers f)
    (hlt : i < f.writes.length) (hi : i ∉ f.finished) :
    ∃ f', f.completeWrite i = some f' ∧ Outcome servers f' ∧ Counts servers f' ∧
      f'.writes.length = f.writes.length ∧ f'.finished = f.finished ++ [i] := by
  obtain ⟨w, hw⟩ := hc.completeWrite hlt hi
  have hcount := hc.countWrite w hlt hi
  have hlen : (f.countWrite i w).writes.length = f.writes.length := List.length_set
  by_cases hhalf : servers.length / 2 = 1
  · have hnil := hc.finished_eq_nil hhalf hlt hi
    have hcompleted : (f.countWrite i w).completed = false := by
      simpa [hnil, RdmaFlowBisection.countWrite] using h.completed
    have hnotified : f.notified = [] := by simpa [hnil] using h.notified
    rw [if_pos hhalf, notifyComplete, hcompleted] at hw
    refine ⟨_, hw, ⟨?_, ?_⟩, ⟨hcount.closure, hcount.fresh, hcount.started, hcount.nodup,
      hcount.lt⟩, hlen, rfl⟩
    · simp [hhalf, RdmaFlowBisection.countWrite]
    · simp [hhalf, hnotified, RdmaFlowBisection.countWrite]
  · rw [if_neg hhalf] at hw
    refine ⟨_, hw, ⟨?_, ?_⟩, hcount, hlen, rfl⟩
    · simpa [hhalf, RdmaFlowBisection.countWrite] using h.completed
    · simpa [hhalf, RdmaFlowBisection.countWrite] using h.notified

theorem lt_of_completeWrite (h : f.completeWrite i = some f') : i < f.writes.length := by
  by_contra hge
  rw [completeWrite, List.getElem?_eq_none (Nat.not_lt.mp hge)] at h
  cases h

theorem Reachable.inv (h : (machine servers).Reachable f) :
    Outcome servers f ∧ Counts servers f := by
  refine h.invariant (I := fun f => Outcome servers f ∧ Counts servers f) ?_ ?_
  · intro f hf
    change onFlowStarted servers = some f at hf
    unfold onFlowStarted at hf
    split at hf
    · cases hf
    · rw [← Option.some.inj hf]
      exact ⟨⟨by simp, by simp⟩, ⟨rfl, by simp, Nat.zero_le _, List.nodup_nil, by simp⟩⟩
  · rintro f e f' - ⟨ho, hc⟩ hst
    cases hst with
    | start hpair => exact ⟨⟨ho.completed, ho.notified⟩, hc.startWrite hpair⟩
    | complete hi hw =>
      obtain ⟨f'', hw', ho', hc', -⟩ := ho.completeWrite hc (lt_of_completeWrite hw) hi
      obtain rfl := Option.some.inj (hw.symm.trans hw')
      exact ⟨ho', hc'⟩

/-! ## A run of all writes -/

theorem reachable_started (heven : servers.length % 2 = 0) (hn : n ≤ servers.length / 2) :
    ∃ f, (machine servers).Reachable f ∧ f.writes.length = n ∧ f.finished = [] := by
  induction n with
  | zero =>
    refine ⟨{ onSingleWriteComplete := { nServersPerHalf := servers.length / 2 } }, .init ?_,
      rfl, rfl⟩
    change onFlowStarted servers = some _
    rw [onFlowStarted, if_neg (by omega)]
  | succ n ih =>
    obtain ⟨f, hf, hlen, hfin⟩ := ih (by omega)
    have hlt : f.writes.length < (QpRegistry.bisectionWrites servers).length := by
      rw [length_bisectionWrites, hlen]
      exact hn
    have hst : (machine servers).step f .start _ :=
      Step.start (List.getElem?_eq_getElem hlt)
    exact ⟨_, hf.step hst, by simp [startWrite, hlen], hfin⟩

theorem reachable_finished (heven : servers.length % 2 = 0) (hn : n ≤ servers.length / 2) :
    ∃ f, (machine servers).Reachable f ∧ f.writes.length = servers.length / 2 ∧
      f.finished = List.range n := by
  induction n with
  | zero => exact reachable_started heven (Nat.le_refl _)
  | succ n ih =>
    obtain ⟨f, hf, hlen, hfin⟩ := ih (by omega)
    obtain ⟨ho, hc⟩ := Reachable.inv hf
    have hi : n ∉ f.finished := by simp [hfin]
    obtain ⟨f', hw, -, -, hlen', hfin'⟩ := ho.completeWrite hc (by omega) hi
    have hst : (machine servers).step f (.complete n) f' := Step.complete hi hw
    exact ⟨f', hf.step hst, hlen'.trans hlen, by rw [hfin', hfin, List.range_succ]⟩

end

/-- **The callbacks are called once, with the last write, exactly if there is only one write.** -/
theorem notifiesWithLast_iff (heven : servers.length % 2 = 0) :
    NotifiesWithLast servers ↔ servers.length = 2 := by
  constructor
  · intro h
    obtain ⟨f, hf, -, hfin⟩ := reachable_finished heven (Nat.le_refl (servers.length / 2))
    have hnotified := (h f hf).2
    rw [(Reachable.inv hf).1.notified, hfin, List.length_range, if_pos rfl] at hnotified
    by_contra hne
    rw [if_neg (by omega)] at hnotified
    cases hnotified
  · intro htwo f hf
    obtain ⟨ho, hc⟩ := Reachable.inv hf
    have hhalf : servers.length / 2 = 1 := by omega
    constructor
    · intro i hlt hi
      obtain ⟨f', hw, -⟩ := ho.completeWrite hc hlt hi
      rw [hw]
      rfl
    · -- there is at most one write
      have hle : f.finished.length ≤ 1 := by
        have hsub : f.finished ⊆ List.range f.writes.length := fun i hi =>
          List.mem_range.mpr (hc.lt i hi)
        have hlen := (hc.nodup.subperm hsub).length_le
        rw [List.length_range] at hlen
        exact hlen.trans (hhalf ▸ hc.started)
      rw [ho.notified, hhalf]
      cases hfin : f.finished with
      | nil => rfl
      | cons i l =>
        have hnil : l = [] := by
          rw [hfin, List.length_cons] at hle
          exact List.length_eq_zero_iff.mp (by omega)
        simp [hnil]

theorem notifiesWithLast_iff_two : ([0, 1] : List Nat).length % 2 = 0 ∧
    (NotifiesWithLast [0, 1] ↔ ([0, 1] : List Nat).length = 2) :=
  ⟨by decide, notifiesWithLast_iff (by decide)⟩

theorem not_notifiesWithLast_four : ¬∀ servers : List Nat, servers.length % 2 = 0 →
    2 ≤ servers.length → NotifiesWithLast servers := by
  intro h
  have heven : [0, 1, 2, 3].length % 2 = 0 := by decide
  obtain ⟨f, hf, -, hfin⟩ := reachable_finished heven (n := 2) (by decide)
  have hnotified := (h [0, 1, 2, 3] (by decide) (by decide) f hf).2
  rw [(Reachable.inv hf).1.notified, hfin] at hnotified
  exact absurd hnotified (by decide)

end RdmaFlowBisection
end Roce
