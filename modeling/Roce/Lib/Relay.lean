import Mathlib.Data.List.Infix

/-! # Relays

Items that are passed on from node to node, by devices that each lead to one node. If every node
receives the items of a source from one device only, and passes on what it received in its order,
then the items reach every node in the order in which they were sent, whatever happens to the items
of others. The order may be kept up to losses, or without any: this is the relation `R` of the
lists. -/

namespace Roce

/-- A relation of lists of which the first keeps the order of the second. -/
structure KeepsOrder (R : List α → List α → Prop) : Prop where
  nil : ∀ l, R [] l
  trans : ∀ {l m n}, R l m → R m n → R l n

theorem keepsOrder_sublist : KeepsOrder (List.Sublist : List α → List α → Prop) where
  nil := List.nil_sublist
  trans := List.Sublist.trans

theorem keepsOrder_prefix : KeepsOrder (List.IsPrefix : List α → List α → Prop) where
  nil := fun _ => List.nil_prefix
  trans := List.IsPrefix.trans

/-- The devices of the nodes, and the items of one flow: those that the source has `sent`, those
that a device has put `out`, and those that a node has `received`, each from a device. The rank
falls on the way from the source. -/
structure Relay (V : Type u) (D : Type v) (α : Type w) [DecidableEq D]
    (R : List α → List α → Prop) where
  node : D → V
  rank : V → Nat
  source : V
  sent : List α
  out : D → List α
  received : V → List (D × α)
  keeps : KeepsOrder R
  falls : ∀ {v x}, x ∈ received v → rank v < rank (node x.1)
  bound : Nat
  rank_le : ∀ {v x}, x ∈ received v → rank (node x.1) ≤ bound
  one : ∀ {v x y}, x ∈ received v → y ∈ received v → x.1 = y.1
  link : ∀ v d, R (((received v).filter (·.1 = d)).map (·.2)) (out d)
  relays : ∀ d, node d ≠ source → R (out d) ((received (node d)).map (·.2))
  sends : ∀ d, node d = source → R (out d) sent

namespace Relay

variable {V : Type u} {D : Type v} {α : Type w} [DecidableEq D] {R : List α → List α → Prop}
  (r : Relay V D α R)

/-- A node receives the items from one device. -/
theorem received_from (h : x ∈ r.received v) :
    (r.received v).filter (·.1 = x.1) = r.received v :=
  List.filter_eq_self.mpr fun _ hy => decide_eq_true (r.one hy h)

/-- **The items of the source reach every node in their order**, by induction on how far below the
source it is. -/
theorem in_order (v : V) : R ((r.received v).map (·.2)) r.sent := by
  induction hk : r.bound - r.rank v using Nat.strongRecOn generalizing v with
  | _ k ih =>
    rcases List.eq_nil_or_concat (r.received v) with hnil | ⟨l, x, hl⟩
    · rw [hnil]
      exact r.keeps.nil _
    · have hx : x ∈ r.received v := by simp [hl]
      have hlink := r.link v x.1
      rw [r.received_from hx] at hlink
      by_cases hsrc : r.node x.1 = r.source
      · exact r.keeps.trans hlink (r.sends x.1 hsrc)
      · have hrank := r.falls hx
        have hbound := r.rank_le hx
        have hprev := ih _ (by omega) (r.node x.1) rfl
        exact r.keeps.trans hlink (r.keeps.trans (r.relays x.1 hsrc) hprev)

end Relay
end Roce
