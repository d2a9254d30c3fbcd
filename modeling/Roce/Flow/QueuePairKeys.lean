import Roce.Lib.Machine
import Roce.Lib.Word
import Roce.Network.NodeOrder

/-! # The keys of the queue pairs

A flow registers its queue pairs under their ports, which it draws from a counter of the node or,
for a multicast, from one counter for all nodes. Both counters have 16 bits. -/

namespace Roce

open Function

/-- The flows with queue pairs. -/
inductive QpFlow where
  | unicast (snode dnode : Nat)
  | bisection
  | multicast (mcastSrc group : Nat)
  deriving DecidableEq, Repr

/-- The receive queue for the packets with a key that go to a node: the queue pair, by its number
among all that were registered. -/
structure Addressed where
  node : Nat
  key : Nat
  qp : Nat
  deriving DecidableEq, Repr

/-- The counters of the ports, `m_qpMap` and `m_rxQpMap` of all nodes with the numbers of the queue
pairs, the calls of `RegisterQP` with node and key, whether one found its key in a map, and what the
flows send. -/
structure QpRegistry where
  nextPort : Nat → Nat := fun _ => 2000
  nextMulticastPort : Nat := 5000
  qpMap : Nat → Nat → Option Nat := fun _ _ => none
  rxQpMap : Nat → Nat → Option Nat := fun _ _ => none
  calls : List (Nat × Nat) := []
  found : Bool := false
  sends : List Addressed := []

namespace QpRegistry

section
variable (s : QpRegistry)

/-- `GetNextUniquePort`. -/
def drawPort (node : Nat) : QpRegistry :=
  { s with nextPort := update s.nextPort node (u16 (s.nextPort node + 1)) }

/-- `RegisterQP`, where the key is the port of the send queue. -/
def registerQP (node key : Nat) : QpRegistry :=
  { s with
    rxQpMap := update s.rxQpMap node (update (s.rxQpMap node) key (some s.calls.length))
    qpMap := update s.qpMap node (update (s.qpMap node) key (some s.calls.length))
    calls := s.calls ++ [(node, key)]
    found := s.found || (s.qpMap node key).isSome || (s.rxQpMap node key).isSome }

/-- The queue pair that is registered next gets packets with its key. -/
def address (node key : Nat) : QpRegistry :=
  { s with sends := s.sends ++ [⟨node, key, s.calls.length⟩] }

/-- `StartWrite`: the data goes to the target, and the ACKs to the initiator. -/
def startWrite (write : Nat × Nat) : QpRegistry :=
  let srcPort := s.nextPort write.1
  let s := s.drawPort write.1
  let dstPort := s.nextPort write.2
  let s := s.drawPort write.2
  let s := (s.address write.1 srcPort).registerQP write.1 srcPort
  (s.address write.2 dstPort).registerQP write.2 dstPort

/-- A member of the group gets a queue pair with the port of the multicast. -/
def joinMulticast (port : Nat) (node : Nat) : QpRegistry :=
  (s.address node port).registerQP node port

/-- `RdmaFlowMulticast::OnFlowStarted`. -/
def startMulticast (source : Nat) (members : List Nat) : QpRegistry :=
  let port := s.nextMulticastPort
  let s := { s with nextMulticastPort := u16 (port + 1) }
  members.foldl (fun s node => s.joinMulticast port node) (s.registerQP source port)

end

variable (net : BuiltNetwork)

/-- The pairs of a bisection. -/
def bisectionWrites (servers : List Nat) : List (Nat × Nat) :=
  (List.range (servers.length / 2)).filterMap fun i => do
    let first ← servers[i]?
    let second ← servers[servers.length / 2 + i]?
    return if i % 2 = 1 then (second, first) else (first, second)

/-- The writes of a flow, initiator first. -/
def writes : QpFlow → List (Nat × Nat)
  | .unicast snode dnode => [(snode, dnode)]
  | .bisection => bisectionWrites net.net.servers
  | .multicast _ _ => []

/-- `FindMcastGroup`. -/
def findMcastGroup (group : Nat) : Option (List Nat) := (net.mcastGroups.find? group).map (·.keys)

/-- The source and the members of a multicast. -/
def multicasts : QpFlow → Option (Nat × List Nat)
  | .multicast source group => some (source, (findMcastGroup net group).getD [])
  | _ => none

/-- `OnFlowStarted`. It fails on nodes that are not servers, on an odd number of servers, and on an
unknown group. -/
def start (s : QpRegistry) : QpFlow → Option QpRegistry
  | .unicast snode dnode =>
    if snode ∈ net.net.servers ∧ dnode ∈ net.net.servers then some (s.startWrite (snode, dnode))
    else none
  | .bisection =>
    if net.net.servers.length % 2 ≠ 0 then none
    else some ((bisectionWrites net.net.servers).foldl startWrite s)
  | .multicast source group =>
    if source ∈ net.net.servers then (findMcastGroup net group).map (s.startMulticast source)
    else none

/-- The flows start one after the other. -/
def run (flows : List QpFlow) : Option QpRegistry := flows.foldlM (start net) {}

/-- No key was found in a map, and `Receive` finds for every packet the receive queue that its flow
created for it. -/
structure KeysUnique (s : QpRegistry) : Prop where
  fresh : s.found = false
  delivered : ∀ sent ∈ s.sends, s.rxQpMap sent.node sent.key = some sent.qp

/-- How many ports the writes of the flows draw at a node. -/
def draws (flows : List QpFlow) (v : Nat) : Nat :=
  ((flows.flatMap (writes net)).flatMap fun write => [write.1, write.2]).count v

/-- A node draws at most all ports, a source is not a member of its group, and of two multicasts
that a node takes part in, or a multicast and a write, none has the port of the other. -/
structure Separate (flows : List QpFlow) : Prop where
  draws : ∀ v, draws net flows v ≤ 2 ^ 16
  source : ∀ multicast ∈ flows.filterMap (multicasts net), multicast.1 ∉ multicast.2
  multicast : ∀ (k k' : Nat) (m m' : Nat × List Nat) (v : Nat),
    (flows.filterMap (multicasts net))[k]? = some m →
    (flows.filterMap (multicasts net))[k']? = some m' →
    v ∈ m.1 :: m.2 → v ∈ m'.1 :: m'.2 → k % 2 ^ 16 = k' % 2 ^ 16 → k = k'
  write : ∀ (k : Nat) (m : Nat × List Nat) (v : Nat),
    (flows.filterMap (multicasts net))[k]? = some m → v ∈ m.1 :: m.2 →
    QpRegistry.draws net flows v ≤ (3000 + k) % 2 ^ 16

/-! ## The calls -/

variable {net : BuiltNetwork} {s s' : QpRegistry} {ends : List Nat} {ms : List (Nat × List Nat)}

/-- A port is drawn, and a queue pair registered under it. -/
def drawQP (s : QpRegistry) (node : Nat) : QpRegistry :=
  ((s.drawPort node).address node (s.nextPort node)).registerQP node (s.nextPort node)

theorem foldl_startWrite (writes : List (Nat × Nat)) (s : QpRegistry) :
    writes.foldl startWrite s = (writes.flatMap fun write => [write.1, write.2]).foldl
      drawQP s := by
  induction writes generalizing s with
  | nil => rfl
  | cons write writes ih => exact ih (s.startWrite write)

/-- The ports that the multicast with a number takes at a node. -/
def multicastPorts (v : Nat) (multicast : (Nat × List Nat) × Nat) : List Nat :=
  ((multicast.1.1 :: multicast.1.2).filter (· = v)).map fun _ => u16 (5000 + multicast.2)

/-- The ports that a node draws and those of the multicasts that it takes part in. -/
def ports (ends : List Nat) (ms : List (Nat × List Nat)) (v : Nat) : List Nat :=
  (List.range (ends.count v)).map (fun j => u16 (2000 + j)) ++ ms.zipIdx.flatMap (multicastPorts v)

/-- What is known of the counters and the calls. -/
structure Counted (ends : List Nat) (ms : List (Nat × List Nat)) (s : QpRegistry) : Prop where
  nextPort : ∀ v, s.nextPort v = u16 (2000 + ends.count v)
  nextMulticastPort : s.nextMulticastPort = u16 (5000 + ms.length)
  calls : ∀ v key, s.calls.count (v, key) = (ports ends ms v).count key

theorem u16_add_one (n : Nat) : u16 (u16 n + 1) = u16 (n + 1) := Nat.mod_add_mod ..

theorem Counted.drawQP (h : Counted ends ms s) (node : Nat) :
    Counted (ends ++ [node]) ms (s.drawQP node) := by
  constructor
  case nextPort =>
    intro v
    refine (update_apply ..).trans ?_
    rw [List.count_append]
    split
    next hv =>
      rw [hv, h.nextPort, u16_add_one, List.count_singleton_self, Nat.add_assoc]
    next hv => rw [h.nextPort, List.count_singleton, beq_false_of_ne (Ne.symm hv)]; rfl
  case nextMulticastPort => exact h.nextMulticastPort
  case calls =>
    intro v key
    have hcalls : (s.drawQP node).calls = s.calls ++ [(node, s.nextPort node)] := rfl
    rw [hcalls, List.count_append, h.calls, ports, ports, List.count_append, List.count_append,
      List.count_append, h.nextPort]
    rcases eq_or_ne node v with rfl | hv
    · rw [List.count_singleton_self, List.range_succ, List.map_append, List.count_append]
      simp only [List.count_singleton, List.map_singleton, beq_iff_eq, Prod.mk.injEq, true_and]
      omega
    · simp [hv]

theorem Counted.foldl_drawQP (h : Counted ends ms s) (nodes : List Nat) :
    Counted (ends ++ nodes) ms (nodes.foldl QpRegistry.drawQP s) := by
  induction nodes generalizing ends s with
  | nil => rwa [List.append_nil]
  | cons node nodes ih =>
    rw [← List.singleton_append, ← List.append_assoc]
    exact ih (h.drawQP node)

theorem startMulticast_spec (s : QpRegistry) (source : Nat) (members : List Nat) :
    (s.startMulticast source members).nextPort = s.nextPort ∧
    (s.startMulticast source members).nextMulticastPort = u16 (s.nextMulticastPort + 1) ∧
    (s.startMulticast source members).calls =
      s.calls ++ (source :: members).map fun node => (node, s.nextMulticastPort) := by
  have hfold : ∀ (s : QpRegistry) (port : Nat),
      let s' := members.foldl (fun s node => s.joinMulticast port node) s
      s'.nextPort = s.nextPort ∧ s'.nextMulticastPort = s.nextMulticastPort ∧
      s'.calls = s.calls ++ members.map fun node => (node, port) := by
    intro s port
    induction members generalizing s with
    | nil => simp
    | cons node members ih =>
      obtain ⟨hport, hmulticast, hcalls⟩ := ih (s.joinMulticast port node)
      refine ⟨hport, hmulticast, hcalls.trans ?_⟩
      simp [joinMulticast, registerQP, address]
  obtain ⟨hport, hmulticast, hcalls⟩ := hfold
    (registerQP { s with nextMulticastPort := u16 (s.nextMulticastPort + 1) } source
      s.nextMulticastPort)
    s.nextMulticastPort
  refine ⟨hport, hmulticast, hcalls.trans ?_⟩
  simp [registerQP]

theorem count_map_pair (l : List Nat) (port v key : Nat) :
    (l.map fun node => (node, port)).count (v, key) =
      ((l.filter (· = v)).map fun _ => port).count key := by
  induction l with
  | nil => rfl
  | cons node l ih =>
    rcases eq_or_ne node v with rfl | hv
    · simp [List.count_cons, ih]
    · simp [ih, hv]

theorem Counted.startMulticast (h : Counted ends ms s) (source : Nat) (members : List Nat) :
    Counted ends (ms ++ [(source, members)]) (s.startMulticast source members) := by
  obtain ⟨hport, hmulticast, hcalls⟩ := startMulticast_spec s source members
  constructor
  case nextPort => exact hport ▸ h.nextPort
  case nextMulticastPort =>
    rw [hmulticast, h.nextMulticastPort, u16_add_one, List.length_append, List.length_singleton,
      Nat.add_assoc]
  case calls =>
    intro v key
    have hport : s.nextMulticastPort = u16 (5000 + ms.length) := h.nextMulticastPort
    rw [hcalls, List.count_append, h.calls, ports, ports, List.zipIdx_append, List.flatMap_append,
      ← List.append_assoc, List.count_append, count_map_pair, hport, Nat.zero_add]
    simp [multicastPorts, Nat.add_assoc]

/-- What is known of a run. -/
def CountedRun (net : BuiltNetwork) (flows : List QpFlow) (s : QpRegistry) : Prop :=
  Counted ((flows.flatMap (writes net)).flatMap fun write => [write.1, write.2])
    (flows.filterMap (multicasts net)) s

/-- A flow makes writes, or it is a multicast. -/
theorem start_cases (hs : start net s flow = some s') :
    (s' = (writes net flow).foldl startWrite s ∧ multicasts net flow = none) ∨
      ∃ source members, s' = s.startMulticast source members ∧ writes net flow = [] ∧
        multicasts net flow = some (source, members) := by
  cases flow with
  | unicast snode dnode =>
    rw [start] at hs
    split at hs
    next =>
      cases hs
      exact .inl ⟨rfl, rfl⟩
    next => cases hs
  | bisection =>
    rw [start] at hs
    split at hs
    next => cases hs
    next =>
      cases hs
      exact .inl ⟨rfl, rfl⟩
  | multicast source group =>
    rw [start] at hs
    split at hs
    next =>
      obtain ⟨members, hmembers, rfl⟩ := Option.map_eq_some_iff.mp hs
      exact .inr ⟨source, members, rfl, rfl, by rw [multicasts, hmembers]; rfl⟩
    next => cases hs

theorem CountedRun.start (h : CountedRun net flows s) (hs : QpRegistry.start net s flow = some s') :
    CountedRun net (flows ++ [flow]) s' := by
  rw [CountedRun, List.flatMap_append, List.flatMap_append, List.filterMap_append]
  rcases start_cases hs with ⟨rfl, hnone⟩ | ⟨source, members, rfl, hwrites, hsome⟩
  · rw [foldl_startWrite]
    simpa [hnone] using Counted.foldl_drawQP h _
  · simpa [hwrites, hsome] using Counted.startMulticast h source members

theorem countedRun (h : run net flows = some s) : CountedRun net flows s := by
  induction flows using List.reverseRecOn generalizing s with
  | nil =>
    cases h
    exact ⟨fun _ => rfl, rfl, fun _ _ => rfl⟩
  | append_singleton flows flow ih =>
    rw [run, List.foldlM_append] at h
    obtain ⟨s₁, hs₁, h⟩ := Option.bind_eq_some_iff.mp h
    rw [List.foldlM_cons] at h
    obtain ⟨s₂, hs₂, h⟩ := Option.bind_eq_some_iff.mp h
    cases h
    exact (ih hs₁).start hs₂

/-! ## The maps -/

/-- The maps have the queue pairs that were registered, the last one of each key. -/
structure Registered (s : QpRegistry) : Prop where
  qpMap : ∀ v key, (s.qpMap v key).isSome ↔ (v, key) ∈ s.calls
  rxQpMap : ∀ v key, (s.rxQpMap v key).isSome ↔ (v, key) ∈ s.calls
  last : s.calls.Nodup → ∀ (i v key : Nat), s.calls[i]? = some (v, key) → s.rxQpMap v key = some i
  found : s.found = true ↔ ¬s.calls.Nodup
  sends : ∀ sent ∈ s.sends, s.calls[sent.qp]? = some (sent.node, sent.key)

theorem isSome_update_update {m : Nat → Nat → Option Nat} {v key node k i : Nat} :
    (update m node (update (m node) k (some i)) v key).isSome ↔
      (m v key).isSome ∨ (v, key) = (node, k) := by
  rcases eq_or_ne v node with rfl | hv
  · rcases eq_or_ne key k with rfl | hkey
    · simp
    · simp [hkey]
  · simp [hv]

/-- A queue pair is registered, and some of them are for packets. -/
theorem Registered.registerQP (h : Registered s) (node key : Nat) {sends : List Addressed}
    (hsends : ∀ sent ∈ sends, sent ∈ s.sends ∨ sent = ⟨node, key, s.calls.length⟩) :
    Registered (QpRegistry.registerQP { s with sends } node key) := by
  have hnodup : (s.calls ++ [(node, key)]).Nodup ↔ s.calls.Nodup ∧ (node, key) ∉ s.calls := by
    rw [← List.concat_eq_append, List.nodup_concat, and_comm]
  constructor
  case qpMap =>
    intro v k
    rw [QpRegistry.registerQP, List.mem_append, List.mem_singleton, ← h.qpMap]
    exact isSome_update_update
  case rxQpMap =>
    intro v k
    rw [QpRegistry.registerQP, List.mem_append, List.mem_singleton, ← h.rxQpMap]
    exact isSome_update_update
  case last =>
    intro hnd i v k hi
    obtain ⟨hold, hnew⟩ := hnodup.mp hnd
    rw [QpRegistry.registerQP, List.getElem?_append] at hi
    split at hi
    next hlt =>
      have hmem : (v, k) ∈ s.calls := List.mem_of_getElem? hi
      have hne : (v, k) ≠ (node, key) := fun heq => hnew (heq ▸ hmem)
      have hrest := h.last hold i v k hi
      rw [QpRegistry.registerQP]
      rcases eq_or_ne v node with rfl | hv
      · have hk : k ≠ key := fun heq => hne (by rw [heq])
        simpa [hk] using hrest
      · simpa [hv] using hrest
    next hge =>
      rw [List.getElem?_singleton] at hi
      split at hi
      next hzero =>
        obtain ⟨rfl, rfl⟩ := Prod.mk.inj (Option.some.inj hi)
        have hi : i = s.calls.length := by
          dsimp only at hge hzero
          omega
        simp [QpRegistry.registerQP, hi]
      next => cases hi
  case found =>
    have hq := h.qpMap node key
    have hr := h.rxQpMap node key
    rw [QpRegistry.registerQP, hnodup, Bool.or_eq_true, Bool.or_eq_true, h.found, hq, hr, or_assoc,
      or_self]
    tauto
  case sends =>
    intro sent hsent
    rcases hsends sent hsent with hsent | rfl
    · have hi := h.sends sent hsent
      rw [QpRegistry.registerQP, List.getElem?_append_left (List.getElem?_eq_some_iff.mp hi).1]
      exact hi
    · simp [QpRegistry.registerQP]

theorem Registered.drawQP (h : Registered s) (node : Nat) : Registered (s.drawQP node) := by
  have h' : Registered (s.drawPort node) := ⟨h.qpMap, h.rxQpMap, h.last, h.found, h.sends⟩
  exact h'.registerQP node (s.nextPort node) fun _ hsent =>
    (List.mem_append.mp hsent).imp_right List.mem_singleton.mp

theorem Registered.joinMulticast (h : Registered s) (port node : Nat) :
    Registered (s.joinMulticast port node) :=
  h.registerQP node port fun _ hsent => (List.mem_append.mp hsent).imp_right List.mem_singleton.mp

theorem Registered.start (h : Registered s) (hs : QpRegistry.start net s flow = some s') :
    Registered s' := by
  rcases start_cases hs with ⟨rfl, -⟩ | ⟨source, members, rfl, -⟩
  · refine List.foldlRecOn (motive := Registered) _ _ h fun s hs write _ => ?_
    exact (hs.drawQP write.1).drawQP write.2
  · refine List.foldlRecOn (motive := Registered) _ _ ?_ fun s hs node _ => hs.joinMulticast _ node
    have h' : Registered { s with nextMulticastPort := u16 (s.nextMulticastPort + 1) } :=
      ⟨h.qpMap, h.rxQpMap, h.last, h.found, h.sends⟩
    exact h'.registerQP source _ fun _ hsent => .inl hsent

theorem registered (h : run net flows = some s) : Registered s := by
  refine foldlM_invariant (I := fun _ => Registered) (fun hs hstart => hs.start hstart)
    ⟨?_, ?_, ?_, ?_, ?_⟩ h
  all_goals simp

/-- The maps are right if and only if no call is repeated. -/
theorem Registered.keysUnique_iff (h : Registered s) : KeysUnique s ↔ s.calls.Nodup := by
  constructor
  · intro hu
    by_contra hn
    have := h.found.mpr hn
    rw [hu.fresh] at this
    cases this
  · intro hn
    refine ⟨?_, fun sent hsent => h.last hn _ _ _ (h.sends sent hsent)⟩
    rw [← Bool.not_eq_true, h.found]
    exact not_not_intro hn

/-! ## The ports -/

theorem mem_multicastPorts {m : Nat × List Nat} {v k port : Nat} :
    port ∈ multicastPorts v (m, k) ↔ v ∈ m.1 :: m.2 ∧ port = u16 (5000 + k) := by
  simp only [multicastPorts, List.mem_map, List.mem_filter, decide_eq_true_eq]
  constructor
  · rintro ⟨_, ⟨hmem, rfl⟩, rfl⟩
    exact ⟨hmem, rfl⟩
  · rintro ⟨hmem, rfl⟩
    exact ⟨v, ⟨hmem, rfl⟩, rfl⟩

theorem nodup_multicastPorts {m : Nat × List Nat} {v k : Nat} :
    (multicastPorts v (m, k)).Nodup ↔ (m.1 :: m.2).count v ≤ 1 := by
  rw [multicastPorts, List.map_const', List.nodup_replicate, List.count_eq_countP,
    List.countP_eq_length_filter]
  rfl

/-- The ports that a node draws are distinct up to the width of the counter. -/
theorem nodup_drawn {n : Nat} :
    ((List.range n).map fun j => u16 (2000 + j)).Nodup ↔ n ≤ 2 ^ 16 := by
  rw [List.nodup_map_iff_inj_on List.nodup_range]
  simp only [List.mem_range]
  constructor
  · intro h
    by_contra hn
    exact absurd (h 0 (by omega) (2 ^ 16) (by omega) (by decide)) (by decide)
  · intro h i hi j hj heq
    unfold u16 at heq
    omega

theorem nodup_flatMap_multicastPorts {v : Nat} : (ms.zipIdx.flatMap (multicastPorts v)).Nodup ↔
    (∀ m ∈ ms, (m.1 :: m.2).count v ≤ 1) ∧
      ∀ (k k' : Nat) (m m' : Nat × List Nat), ms[k]? = some m → ms[k']? = some m' →
        v ∈ m.1 :: m.2 → v ∈ m'.1 :: m'.2 → k % 2 ^ 16 = k' % 2 ^ 16 → k = k' := by
  rw [List.nodup_flatMap]
  refine and_congr ?_ ?_
  · constructor
    · intro h m hm
      obtain ⟨k, hk⟩ := List.mem_iff_getElem?.mp hm
      exact nodup_multicastPorts.mp (h (m, k) (List.mk_mem_zipIdx_iff_getElem?.mpr hk))
    · rintro h ⟨m, k⟩ hmem
      exact nodup_multicastPorts.mpr
        (h m (List.mem_of_getElem? (List.mk_mem_zipIdx_iff_getElem?.mp hmem)))
  · have hport : ∀ k k', u16 (5000 + k) = u16 (5000 + k') ↔ k % 2 ^ 16 = k' % 2 ^ 16 := by
      intro k k'
      unfold u16
      omega
    rw [List.pairwise_iff_getElem]
    constructor
    · intro h
      -- the earlier one of two multicasts first
      have hlt : ∀ (k k' : Nat) (m m' : Nat × List Nat), ms[k]? = some m → ms[k']? = some m' →
          v ∈ m.1 :: m.2 → v ∈ m'.1 :: m'.2 → k % 2 ^ 16 = k' % 2 ^ 16 → ¬k < k' := by
        intro k k' m m' hk hk' hv hv' hmod hlt
        obtain ⟨hk, rfl⟩ := List.getElem?_eq_some_iff.mp hk
        obtain ⟨hk', rfl⟩ := List.getElem?_eq_some_iff.mp hk'
        have hdisjoint := h k k' (by rwa [List.length_zipIdx]) (by rwa [List.length_zipIdx]) hlt
        simp only [List.getElem_zipIdx, Nat.zero_add] at hdisjoint
        exact hdisjoint (mem_multicastPorts.mpr ⟨hv, rfl⟩)
          (mem_multicastPorts.mpr ⟨hv', (hport k k').mpr hmod⟩)
      intro k k' m m' hk hk' hv hv' hmod
      exact Nat.le_antisymm (Nat.le_of_not_lt (hlt k' k m' m hk' hk hv' hv hmod.symm))
        (Nat.le_of_not_lt (hlt k k' m m' hk hk' hv hv' hmod))
    · intro h k k' hk hk' hlt port hport' hport''
      rw [List.length_zipIdx] at hk hk'
      rw [List.getElem_zipIdx, mem_multicastPorts, Nat.zero_add] at hport' hport''
      have hmod := (hport k k').mp (hport'.2.symm.trans hport''.2)
      have := h k k' _ _ (List.getElem?_eq_getElem hk)
        (List.getElem?_eq_getElem hk') hport'.1 hport''.1 hmod
      omega

theorem disjoint_ports {v n : Nat} (hn : n ≤ 2 ^ 16) :
    ((List.range n).map fun j => u16 (2000 + j)).Disjoint (ms.zipIdx.flatMap (multicastPorts v)) ↔
      ∀ (k : Nat) (m : Nat × List Nat), ms[k]? = some m → v ∈ m.1 :: m.2 →
        n ≤ (3000 + k) % 2 ^ 16 := by
  constructor
  · intro h k m hk hv
    by_contra hlt
    have hdrawn : u16 (5000 + k) ∈ (List.range n).map fun j => u16 (2000 + j) := by
      refine List.mem_map.mpr ⟨(3000 + k) % 2 ^ 16, List.mem_range.mpr (by omega), ?_⟩
      unfold u16
      omega
    refine h hdrawn (List.mem_flatMap.mpr ⟨(m, k), List.mk_mem_zipIdx_iff_getElem?.mpr hk, ?_⟩)
    exact mem_multicastPorts.mpr ⟨hv, rfl⟩
  · intro h port hdrawn hmulticast
    obtain ⟨j, hj, rfl⟩ := List.mem_map.mp hdrawn
    obtain ⟨⟨m, k⟩, hmem, hport⟩ := List.mem_flatMap.mp hmulticast
    obtain ⟨hv, heq⟩ := mem_multicastPorts.mp hport
    have hle := h k m (List.mk_mem_zipIdx_iff_getElem?.mp hmem) hv
    rw [List.mem_range] at hj
    unfold u16 at heq
    omega

/-- The members of a group are distinct. -/
theorem nodup_members (h : multicasts net flow = some m) : m.2.Nodup := by
  cases flow with
  | multicast source group =>
    cases h
    dsimp only [findMcastGroup]
    cases net.mcastGroups.find? group with
    | none => exact List.nodup_nil
    | some members =>
      have hsorted : members.keys.Pairwise (· < ·) := List.pairwise_map.mpr members.sorted
      exact hsorted.imp Nat.ne_of_lt
  | unicast | bisection => cases h

theorem separate_iff {flows : List QpFlow} : Separate net flows ↔ ∀ v,
    (ports ((flows.flatMap (writes net)).flatMap fun write => [write.1, write.2])
      (flows.filterMap (multicasts net)) v).Nodup := by
  simp only [ports, List.nodup_append']
  constructor
  · intro h v
    refine ⟨nodup_drawn.mpr (h.draws v), nodup_flatMap_multicastPorts.mpr ⟨fun m hm => ?_, ?_⟩,
      (disjoint_ports (h.draws v)).mpr fun k m => h.write k m v⟩
    · obtain ⟨flow, -, hflow⟩ := List.mem_filterMap.mp hm
      exact List.nodup_iff_count_le_one.mp
        (List.nodup_cons.mpr ⟨h.source m hm, nodup_members hflow⟩) v
    · exact fun k k' m m' hk hk' hv hv' => h.multicast k k' m m' v hk hk' hv hv'
  · intro h
    have hdraws : ∀ v, draws net flows v ≤ 2 ^ 16 := fun v => nodup_drawn.mp (h v).1
    constructor
    case draws => exact hdraws
    case source =>
      intro m hm hmem
      have hle := (nodup_flatMap_multicastPorts.mp (h m.1).2.1).1 m hm
      rw [List.count_cons_self] at hle
      have := List.count_pos_iff.mpr hmem
      omega
    case multicast =>
      exact fun k k' m m' v => (nodup_flatMap_multicastPorts.mp (h v).2.1).2 k k' m m'
    case write => exact fun k m v => (disjoint_ports (hdraws v)).mp (h v).2.2 k m

/-- **The keys stay unique** if and only if the flows take separate ports. -/
theorem keys_unique_iff (h : run net flows = some s) : KeysUnique s ↔ Separate net flows := by
  rw [(registered h).keysUnique_iff, separate_iff]
  simp only [List.nodup_iff_count_le_one, Prod.forall, (countedRun h).calls]

/-- Two servers on a switch, and a group of the second one. -/
def twoServers : RdmaTopology where
  nodes := [{ id := 0, isSwitch := true }, { id := 1 }, { id := 2 }]
  links := [{ src := 0, dst := 1 }, { src := 0, dst := 2 }]
  groups := [{ id := 1, nodes := { elements := [.index 2] } }]

/-- A multicast to all servers registers two queue pairs at its source. -/
theorem keys_repeated : ∃ net s,
    twoServers.initTopology ⟨List.range, fun _ => .rfl⟩ ⟨fun _ l => l, fun _ _ => .rfl⟩ 1000 =
      some net ∧
      run net [.multicast 1 0] = some s ∧ ¬KeysUnique s := by
  refine ⟨_, _, rfl, rfl, fun h => ?_⟩
  exact absurd h.fresh (by decide)

/-- A write, a bisection, a multicast to the other server, and a write back. -/
theorem keys_unique_mixed : ∃ net s,
    twoServers.initTopology ⟨List.range, fun _ => .rfl⟩ ⟨fun _ l => l, fun _ _ => .rfl⟩ 1000 =
      some net ∧
      run net [.unicast 1 2, .bisection, .multicast 1 1, .unicast 2 1] = some s ∧
        s.calls.length = 8 ∧
      Separate net [.unicast 1 2, .bisection, .multicast 1 1, .unicast 2 1] := by
  refine ⟨_, _, rfl, rfl, rfl, (keys_unique_iff rfl).mp ⟨rfl, ?_⟩⟩
  decide

end QpRegistry
end Roce
