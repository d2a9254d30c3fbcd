import Roce.Lib.Machine
import Roce.Allgather.Runtime
import Mathlib.Logic.Function.Basic

/-! # The ring of an allgather

The nodes of an allgather in the recovery phase, with the messages between neighbours: a recovery
request to the left, recovered blocks to the right, and the ACKs of both, each link a FIFO. A node
leaves the multicast phase at any time, and messages of different links are delivered in any
order. -/

namespace Roce

open Function

/-- `GetRight`, as an index. -/
def right (i : Fin n) : Fin n := ⟨(i + 1) % n, Nat.mod_lt _ i.pos⟩

/-- `GetLeft`, as an index. -/
def left (i : Fin n) : Fin n := ⟨(i + n - 1) % n, Nat.mod_lt _ i.pos⟩

theorem right_val (i : Fin n) : (right i).val = if i.val + 1 = n then 0 else i.val + 1 := by
  have hi := i.isLt
  simp only [right]
  split
  next h => rw [h, Nat.mod_self]
  next h => exact Nat.mod_eq_of_lt (by omega)

theorem left_val (i : Fin n) : (left i).val = if i.val = 0 then n - 1 else i.val - 1 := by
  have hi := i.isLt
  simp only [left]
  split
  next h => rw [h, Nat.zero_add, Nat.mod_eq_of_lt (by omega)]
  next h => rw [show i.val + n - 1 = i.val - 1 + n by omega, Nat.add_mod_right,
      Nat.mod_eq_of_lt (by omega)]

@[simp] theorem right_left (i : Fin n) : right (left i) = i := by
  have hi := i.isLt
  refine Fin.ext ?_
  rw [right_val, left_val]
  split <;> split <;> omega

@[simp] theorem left_right (i : Fin n) : left (right i) = i := by
  have hi := i.isLt
  refine Fin.ext ?_
  rw [left_val, right_val]
  split <;> split <;> omega

theorem right_ne (hn : 2 ≤ n) (i : Fin n) : right i ≠ i := by
  intro h
  have hv := congrArg Fin.val h
  rw [right_val] at hv
  split at hv <;> omega

theorem left_ne (hn : 2 ≤ n) (i : Fin n) : left i ≠ i := by
  intro h
  have hr := right_ne hn (left i)
  rw [right_left] at hr
  exact hr h.symm

theorem right_inj {i j : Fin n} : right i = right j ↔ i = j :=
  ⟨fun h => by rw [← left_right i, h, left_right], fun h => h ▸ rfl⟩

/-- What goes from each node to its right neighbour holds of every node, once it holds of one. -/
theorem ring_induction {P : Fin n → Prop} (j : Fin n) (hj : P j)
    (hstep : ∀ i, P i → P (right i)) : ∀ i, P i := by
  have hiter : ∀ k : Nat, ∀ i : Fin n, i.val = (j.val + k) % n → P i := by
    intro k
    induction k with
    | zero =>
      intro i hi
      rw [Nat.add_zero, Nat.mod_eq_of_lt j.isLt] at hi
      exact Fin.ext hi ▸ hj
    | succ k ih =>
      intro i hi
      have hpred := ih ⟨(j.val + k) % n, Nat.mod_lt _ j.pos⟩ rfl
      have heq : i = right ⟨(j.val + k) % n, Nat.mod_lt _ j.pos⟩ := by
        refine Fin.ext ?_
        rw [hi, right, ← Nat.add_assoc]
        exact (Nat.mod_add_mod ..).symm
      exact heq ▸ hstep _ hpred
  intro i
  have hi := i.isLt
  have hj' := j.isLt
  rcases Nat.lt_or_ge i.val j.val with hlt | hge
  · refine hiter (n + i.val - j.val) i ?_
    rw [show j.val + (n + i.val - j.val) = i.val + n by omega, Nat.add_mod_right,
      Nat.mod_eq_of_lt hi]
  · refine hiter (i.val - j.val) i ?_
    rw [show j.val + (i.val - j.val) = i.val by omega, Nat.mod_eq_of_lt hi]

/-- The nodes and the messages in flight: the request of a node to its left neighbour, the blocks
of a node to its right neighbour, and the ACKs on their way back to the sender. -/
structure AgRing (n : Nat) where
  node : Fin n → AgRuntime
  shared : AgShared := {}
  request : Fin n → List RecoverRequest := fun _ => []
  requestAck : Fin n → List RecoverRequest := fun _ => []
  block : Fin n → List Transfer := fun _ => []
  blockAck : Fin n → List Transfer := fun _ => []

namespace AgRing

/-- What can happen to a node: it leaves the multicast phase, or it receives the request of its
right neighbour, the ACK of its own request, a block of its left neighbour or the ACK of a block
it sent. -/
inductive Event (n : Nat) where
  | leave (i : Fin n)
  | request (i : Fin n)
  | requestAck (i : Fin n)
  | block (i : Fin n)
  | blockAck (i : Fin n)

/-- The node that an event happens to. -/
def Event.node : Event n → Fin n
  | .leave i | .request i | .requestAck i | .block i | .blockAck i => i

inductive Step (cfg : AgConfig) : AgRing n → Event n → AgRing n → Prop
  | leave {t : AgRing n} {i : Fin n} :
    (t.node i).transitionToRecovery cfg t.shared = some (rt, sh) →
    Step cfg t (.leave i) { t with
      node := update t.node i rt
      shared := sh
      request := update t.request i (t.request i ++ [rt.startRecoveryPhase]) }
  | request {t : AgRing n} {i : Fin n} : t.request (right i) = q :: l →
    (t.node i).notifyRecvRecoveryRequest cfg (t.node (right i)) t.shared =
      some (rt, sh, posted) →
    Step cfg t (.request i) { t with
      node := update t.node i rt
      shared := sh
      request := update t.request (right i) l
      requestAck := update t.requestAck (right i) (t.requestAck (right i) ++ [q])
      block := update t.block i (t.block i ++ posted) }
  | requestAck {t : AgRing n} {i : Fin n} : t.requestAck i = q :: l →
    (if q.onSend then (t.node i).onRequestSent cfg (t.node (right i)).toRecover t.shared
      else some (t.node i, t.shared, [])) = some (rt, sh, posted) →
    Step cfg t (.requestAck i) { t with
      node := update t.node i rt
      shared := sh
      requestAck := update t.requestAck i l
      block := update t.block i (t.block i ++ posted) }
  | block {t : AgRing n} {i : Fin n} : t.block (left i) = b :: l →
    (t.node i).notifyRecovery cfg (t.node (right i)).toRecover (some b.block) t.shared =
      some (rt, sh, posted) →
    Step cfg t (.block i) { t with
      node := update t.node i rt
      shared := sh
      block := update (update t.block (left i) l) i (t.block i ++ posted)
      blockAck := update t.blockAck (left i) (t.blockAck (left i) ++ [b]) }
  | blockAck {t : AgRing n} {i : Fin n} : t.blockAck i = b :: l →
    (t.node i).onTransferSent cfg (t.node (right i)).toRecover t.shared = (rt, sh, posted) →
    Step cfg t (.blockAck i) { t with
      node := update t.node i rt
      shared := sh
      block := update t.block i (t.block i ++ posted)
      blockAck := update t.blockAck i l }

/-- The ring before the recovery: each node has what the multicast phase will leave in its
bitmap. -/
def initial (recv : Fin n → List Bool) : AgRing n where
  node i := { block := i, recv := recv i }

/-- The recovery phase of an allgather. -/
def recovery (cfg : AgConfig) (recv : Fin cfg.nodes → List Bool) :
    Machine (AgRing cfg.nodes) (Event cfg.nodes) :=
  ⟨(· = initial recv), Step cfg⟩

/-- No message is in flight. -/
def Quiet (t : AgRing n) : Prop :=
  ∀ i, t.request i = [] ∧ t.requestAck i = [] ∧ t.block i = [] ∧ t.blockAck i = []

/-- Every node has left the multicast phase, nothing is in flight, and some node is not
finished. -/
def Wedged (t : AgRing n) : Prop :=
  (∀ i, (t.node i).state ≠ .multicast) ∧ t.Quiet ∧ ∃ i, (t.node i).state ≠ .finished

/-- The blocks that a node has to recover when it leaves the multicast phase. -/
def missed (cfg : AgConfig) (recv : Fin cfg.nodes → List Bool) (i : Fin cfg.nodes) : List Nat :=
  (cfg.buildToRecover (AgRuntime.markOwn cfg i (recv i))).keys

end AgRing
end Roce
