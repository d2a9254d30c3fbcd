import Roce.Lib.Machine
import Mathlib.Data.List.Perm.Basic

/-! # Work that makes work

A bag of items that are processed in any order, where an item leaves some results and puts new
items into the bag. If the items that an item puts into the bag have a smaller rank, every order of
processing ends, after the same number of steps and with the same results. -/

namespace Roce

variable {α : Type u} {β : Type v}

/-- The items that wait, and the results so far. -/
structure Bag (α : Type u) (β : Type v) where
  todo : List α
  done : List β := []

namespace Bag

inductive Step (next : α → List α) (out : α → List β) : Bag α β → α → Bag α β → Prop
  | mk {b : Bag α β} : b.todo = l ++ a :: l' →
    Step next out b a ⟨l ++ l' ++ next a, b.done ++ out a⟩

/-- The processing of a bag that starts with the items `start`. -/
def processing (next : α → List α) (out : α → List β) (start : List α) : Machine (Bag α β) α :=
  ⟨(· = ⟨start, []⟩), Step next out⟩

variable (next : α → List α) (out : α → List β)

/-- What the tree of items below an item leaves, up to a depth. -/
def yieldTo : Nat → α → List β
  | 0, _ => []
  | n + 1, a => out a ++ (next a).flatMap (yieldTo n)

/-- The number of items in the tree below an item, up to a depth. -/
def workTo : Nat → α → Nat
  | 0, _ => 0
  | n + 1, a => ((next a).map (workTo n)).sum + 1

/-- The items that `ok` holds of have items of a smaller rank below them. -/
def Ranked (ok : α → Prop) (rank : α → Nat) : Prop :=
  ∀ a, ok a → ∀ b ∈ next a, ok b ∧ rank b < rank a

/-- What an item leaves in the end. -/
def yield (rank : α → Nat) (a : α) : List β := yieldTo next out (rank a + 1) a

/-- The number of steps that an item takes in the end. -/
def work (rank : α → Nat) (a : α) : Nat := workTo next (rank a + 1) a

variable {next out} {ok : α → Prop} {rank : α → Nat}

theorem yieldTo_eq (hr : Ranked next ok rank) (ha : ok a) (hn : rank a < n) (hm : rank a < m) :
    yieldTo next out n a = yieldTo next out m a := by
  induction n generalizing a m with
  | zero => exact absurd hn (Nat.not_lt_zero _)
  | succ n ih =>
    obtain ⟨m, rfl⟩ := Nat.exists_eq_succ_of_ne_zero (Nat.ne_of_gt (Nat.zero_lt_of_lt hm))
    have hnext : (next a).flatMap (yieldTo next out n) = (next a).flatMap (yieldTo next out m) := by
      refine List.flatMap_congr fun b hb => ?_
      obtain ⟨hb, hlt⟩ := hr a ha b hb
      exact ih hb (Nat.lt_of_lt_of_le hlt (Nat.le_of_lt_succ hn))
        (Nat.lt_of_lt_of_le hlt (Nat.le_of_lt_succ hm))
    rw [yieldTo, yieldTo, hnext]

theorem workTo_eq (hr : Ranked next ok rank) (ha : ok a) (hn : rank a < n) (hm : rank a < m) :
    workTo next n a = workTo next m a := by
  induction n generalizing a m with
  | zero => exact absurd hn (Nat.not_lt_zero _)
  | succ n ih =>
    obtain ⟨m, rfl⟩ := Nat.exists_eq_succ_of_ne_zero (Nat.ne_of_gt (Nat.zero_lt_of_lt hm))
    have hnext : (next a).map (workTo next n) = (next a).map (workTo next m) := by
      refine List.map_congr_left fun b hb => ?_
      obtain ⟨hb, hlt⟩ := hr a ha b hb
      exact ih hb (Nat.lt_of_lt_of_le hlt (Nat.le_of_lt_succ hn))
        (Nat.lt_of_lt_of_le hlt (Nat.le_of_lt_succ hm))
    rw [workTo, workTo, hnext]

theorem yield_eq (hr : Ranked next ok rank) (ha : ok a) :
    yield next out rank a = out a ++ (next a).flatMap (yield next out rank) := by
  have hnext : (next a).flatMap (yieldTo next out (rank a)) =
      (next a).flatMap (yield next out rank) := by
    refine List.flatMap_congr fun b hb => ?_
    obtain ⟨hb, hlt⟩ := hr a ha b hb
    exact yieldTo_eq hr hb hlt (Nat.lt_succ_self _)
  rw [yield, yieldTo, hnext]

theorem work_eq (hr : Ranked next ok rank) (ha : ok a) :
    work next rank a = ((next a).map (work next rank)).sum + 1 := by
  have hnext : (next a).map (workTo next (rank a)) = (next a).map (work next rank) := by
    refine List.map_congr_left fun b hb => ?_
    obtain ⟨hb, hlt⟩ := hr a ha b hb
    exact workTo_eq hr hb hlt (Nat.lt_succ_self _)
  rw [work, workTo, hnext]

theorem Step.ok_todo (hr : Ranked next ok rank) {b b' : Bag α β} (hok : ∀ a ∈ b.todo, ok a)
    (h : Step next out b a b') : ∀ a ∈ b'.todo, ok a := by
  obtain ⟨htodo⟩ := h
  rw [htodo] at hok
  intro c hc
  rcases List.mem_append.mp hc with hc | hc
  · refine hok c ?_
    rcases List.mem_append.mp hc with hc | hc
    · exact List.mem_append_left _ hc
    · exact List.mem_append_right _ (List.mem_cons_of_mem _ hc)
  · exact (hr a (hok a (by simp)) c hc).1

/-- One step: what the bag will leave in the end stays, and it takes one step less. -/
theorem Step.yield (hr : Ranked next ok rank) {b b' : Bag α β} (hok : ∀ a ∈ b.todo, ok a)
    (h : Step next out b a b') :
    (b'.done ++ b'.todo.flatMap (yield next out rank)).Perm
      (b.done ++ b.todo.flatMap (yield next out rank)) ∧
    (b'.todo.map (work next rank)).sum + 1 = (b.todo.map (work next rank)).sum := by
  obtain ⟨htodo⟩ := h
  rw [htodo] at hok ⊢
  have ha : ok a := hok a (by simp)
  constructor
  · simp only [List.flatMap_append, List.flatMap_cons, List.append_assoc, yield_eq hr ha]
    refine List.Perm.append_left _ ((List.perm_append_comm_assoc ..).trans ?_)
    exact List.Perm.append_left _ (List.Perm.append_left _ List.perm_append_comm)
  · simp only [List.map_append, List.map_cons, List.sum_append, List.sum_cons, work_eq hr ha]
    omega

/-- **The run lemma**: whatever the order, the results so far and those of the waiting items are
the results of the start, and so are the numbers of steps. -/
theorem processing_run {start : List α} (hr : Ranked next ok rank) (hok : ∀ a ∈ start, ok a)
    (h : (processing next out start).Run ⟨start, []⟩ es b) :
    (b.done ++ b.todo.flatMap (yield next out rank)).Perm
      (start.flatMap (yield next out rank)) ∧
    (b.todo.map (work next rank)).sum + es.length = (start.map (work next rank)).sum := by
  suffices hrun : ∀ {b₀ es b}, (processing next out start).Run b₀ es b → (∀ a ∈ b₀.todo, ok a) →
      (∀ a ∈ b.todo, ok a) ∧
      (b.done ++ b.todo.flatMap (yield next out rank)).Perm
        (b₀.done ++ b₀.todo.flatMap (yield next out rank)) ∧
      (b.todo.map (work next rank)).sum + es.length = (b₀.todo.map (work next rank)).sum by
    simpa using (hrun h hok).2
  intro b₀ es b h
  induction h with
  | nil => exact fun hok => ⟨hok, .refl _, rfl⟩
  | snoc _ hst ih =>
    intro hok
    obtain ⟨hok, hperm, hwork⟩ := ih hok
    have hst : Step next out _ _ _ := hst
    obtain ⟨hperm', hwork'⟩ := hst.yield hr hok
    refine ⟨hst.ok_todo hr hok, hperm'.trans hperm, ?_⟩
    rw [List.length_append, List.length_singleton]
    omega

/-- While items wait, a step can be taken. -/
theorem exists_step {start : List α} {b : Bag α β} (h : b.todo ≠ []) :
    ∃ a b', (processing next out start).step b a b' := by
  obtain ⟨a, l, htodo⟩ := List.exists_cons_of_ne_nil h
  exact ⟨a, _, Step.mk (l := []) htodo⟩

end Bag
end Roce
