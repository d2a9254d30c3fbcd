import Roce.Network.Forwarding

/-! # The order of the nodes

`CreateNodes` does not read the ids of the entries: the node with the id `i` is made for the entry
at position `i`. All that `InitTopology` builds depends on the list of the nodes through their
kinds, in the order of the list. -/

namespace Roce

open Function

namespace Network

variable (net : Network)

/-- `m_mcast_groups[group].insert(v)`. -/
def insertMember (group : Nat) (groups : OrdMap Nat (OrdMap Nat Unit)) (v : Nat) :
    OrdMap Nat (OrdMap Nat Unit) :=
  groups.insert group (((groups.find? group).getD .empty).insert v ())

/-- A node of a group; it must be a server. -/
def addMember (group : Nat) (groups : OrdMap Nat (OrdMap Nat Unit)) (v : Nat) :
    Option (OrdMap Nat (OrdMap Nat Unit)) :=
  if v < net.kinds.length ∧ net.isSwitchNode v = false then some (insertMember group groups v)
  else none

def addElement (group : Nat) (groups : OrdMap Nat (OrdMap Nat Unit)) :
    Ranges.Element → Option (OrdMap Nat (OrdMap Nat Unit))
  | .index v => net.addMember group groups v
  | .range first last => (List.range' first (last + 1 - first)).foldlM (net.addMember group) groups

def addMembers (groups : OrdMap Nat (OrdMap Nat Unit)) (group : GroupConfig) :
    Option (OrdMap Nat (OrdMap Nat Unit)) :=
  group.nodes.elements.foldlM (net.addElement group.id)
    (if group.nodes.wildcard then net.servers.foldl (insertMember group.id) groups else groups)

/-- `m_mcast_groups`, where the group 0 has all servers. -/
def mcastGroups (groups : List GroupConfig) : Option (OrdMap Nat (OrdMap Nat Unit)) :=
  (groups ++ [({ id := 0, nodes := { wildcard := true } } : GroupConfig)]).foldlM
    net.addMembers .empty

end Network

/-- The joins of the groups, in their order in `m_mcast_groups`. -/
def groupJoins (groups : OrdMap Nat (OrdMap Nat Unit)) : List (Nat × Nat) :=
  groups.entries.flatMap fun (group, nodes) => nodes.keys.map fun v => (v, group)

/-- What `InitTopology` builds. -/
structure BuiltNetwork where
  net : Network
  uplink : Nat → List Bool
  tables : RoutingTables
  mcastGroups : OrdMap Nat (OrdMap Nat Unit)
  groups : GroupState

namespace RdmaTopology

/-- `InitTopology`, where the pointers to the nodes and the sets of nodes have some order. -/
def initTopology (top : RdmaTopology) (ord : PtrOrder) (sets : SetOrder) (mtu : Nat) :
    Option BuiltNetwork := do
  let net ← top.createNetwork
  let uplink ← net.rebuild sets
  let tables ← net.buildRoutes ord mtu
  let mcastGroups ← net.mcastGroups top.groups
  let joins := groupJoins mcastGroups
  let groups ← net.buildGroups joins {}
  let tables ← joins.foldlM (fun t join => t.addTableEntry net join.1 join.2.toUInt32 1) tables
  return { net, uplink, tables, mcastGroups, groups }

/-- The order of the entries does not matter: the nodes are of the kinds that the entries with their
ids have, each link connects the nodes with the ids of its ends, and what is built is what the
entries build in the order of their ids. -/
structure OrderIrrelevant (top : RdmaTopology) : Prop where
  kinds : ∀ entry ∈ top.nodes, (Network.createNodes top).isSwitchNode entry.id = entry.isSwitch
  links : ∀ net, top.createNetwork = some net → ∀ link ∈ top.links, ∃ i j : Nat,
    (net.devices link.src)[i]? = some ⟨⟨link.dst, j + 1⟩, link.bandwidth, link.latency⟩ ∧
    (net.devices link.dst)[j]? = some ⟨⟨link.src, i + 1⟩, link.bandwidth, link.latency⟩ ∧
    ∀ entry ∈ top.nodes, entry.id = link.src ∨ entry.id = link.dst →
      net.isSwitchNode entry.id = entry.isSwitch
  built : ∀ nodes : List NodeConfig, nodes.Perm top.nodes →
    (∀ (i : Nat) entry, nodes[i]? = some entry → entry.id = i) → ∀ ord sets mtu,
      top.initTopology ord sets mtu = initTopology { top with nodes } ord sets mtu

/-- The entry at a position and the entry with this id are of the same kind. -/
def KindsInOrder (top : RdmaTopology) : Prop :=
  ∀ (i : Nat) entry, top.nodes[i]? = some entry → ∀ entry' ∈ top.nodes, entry'.id = i →
    entry'.isSwitch = entry.isSwitch

variable {top : RdmaTopology} {net net' : Network}

/-! ## The links -/

theorem getElem?_of_prefix {l l' : List α} {i : Nat} (h : l <+: l') (hi : l[i]? = some a) :
    l'[i]? = some a := by
  obtain ⟨t, rfl⟩ := h
  rw [List.getElem?_append_left (List.getElem?_eq_some_iff.mp hi).1]
  exact hi

theorem devices_createLinks {ls : List Link} (h : net.createLinks k ls = some net') :
    (∀ v, net.devices v <+: net'.devices v) ∧ net'.kinds = net.kinds := by
  induction ls generalizing net k with
  | nil =>
    cases h
    exact ⟨fun _ => List.prefix_rfl, rfl⟩
  | cons l ls ih =>
    obtain ⟨net₁, hnet₁, h⟩ := Option.bind_eq_some_iff.mp h
    obtain ⟨hdevices, hkinds⟩ := ih h
    unfold Network.createLink at hnet₁
    split at hnet₁
    next =>
      cases hnet₁
      refine ⟨fun v => List.IsPrefix.trans ?_ (hdevices v), hkinds⟩
      exact List.prefix_append_of_prefix (List.prefix_append ..)
    next => cases hnet₁

/-- The devices of a link, after it has been added. -/
theorem devices_addLink (net : Network) (k : Nat) (link : Link) : ∃ i j : Nat,
    ((net.addLink k link).devices link.src)[i]? =
      some ⟨⟨link.dst, j + 1⟩, link.bandwidth, link.latency⟩ ∧
    ((net.addLink k link).devices link.dst)[j]? =
      some ⟨⟨link.src, i + 1⟩, link.bandwidth, link.latency⟩ := by
  refine ⟨(net.devices link.src).length,
    (net.devices link.dst).length + if link.dst = link.src then 1 else 0, ?_, ?_⟩
  · simp only [Network.addLink, if_true, Network.dstDev, List.append_assoc]
    rw [List.getElem?_append_right (Nat.le_refl _), Nat.sub_self]
    split <;> simp
  · simp only [Network.addLink, if_true, Network.srcDev]
    rw [List.getElem?_append_right]
    · split <;> simp
    · split <;> simp

theorem link_createLinks {ls : List Link} (h : net.createLinks k ls = some net')
    (hmem : link ∈ ls) :
    ∃ i j : Nat,
      (net'.devices link.src)[i]? = some ⟨⟨link.dst, j + 1⟩, link.bandwidth, link.latency⟩ ∧
      (net'.devices link.dst)[j]? = some ⟨⟨link.src, i + 1⟩, link.bandwidth, link.latency⟩ := by
  induction ls generalizing net k with
  | nil => cases hmem
  | cons l ls ih =>
    obtain ⟨net₁, hnet₁, h⟩ := Option.bind_eq_some_iff.mp h
    rcases List.mem_cons.mp hmem with rfl | hmem
    · unfold Network.createLink at hnet₁
      split at hnet₁
      next =>
        cases hnet₁
        obtain ⟨i, j, hi, hj⟩ := devices_addLink net k link
        have hgrow := (devices_createLinks h).1
        exact ⟨i, j, getElem?_of_prefix (hgrow _) hi, getElem?_of_prefix (hgrow _) hj⟩
      next => cases hnet₁
    · exact ih h hmem

/-! ## The kinds -/

theorem isSwitchNode_createNodes {i : Nat} (h : top.nodes[i]? = some entry) :
    (Network.createNodes top).isSwitchNode i = entry.isSwitch := by
  rw [Network.isSwitchNode, Network.createNodes, List.getD_eq_getElem?_getD, List.getElem?_map, h]
  rfl

/-- What is built depends on the kinds, the links and the groups. -/
theorem initTopology_congr (top top' : RdmaTopology)
    (hkinds : top.nodes.map (·.isSwitch) = top'.nodes.map (·.isSwitch))
    (hlinks : top.links = top'.links)
    (hgroups : top.groups = top'.groups) (ord : PtrOrder) (sets : SetOrder) (mtu : Nat) :
    top.initTopology ord sets mtu = top'.initTopology ord sets mtu := by
  have hnodes : Network.createNodes top = Network.createNodes top' := by
    rw [Network.createNodes, hkinds]
    rfl
  have hnet : top.createNetwork = top'.createNetwork := by
    rw [createNetwork, hnodes, hlinks]
    rfl
  rw [initTopology, initTopology, hnet, hgroups]

/-- The ids are a numbering of the entries. -/
theorem getElem?_of_ids (hids : (top.nodes.map (·.id)).Perm (List.range top.nodes.length))
    (h : entry ∈ top.nodes) : ∃ entry', top.nodes[entry.id]? = some entry' := by
  have hlt := List.mem_range.mp (hids.mem_iff.mp (List.mem_map_of_mem h))
  exact ⟨_, List.getElem?_eq_getElem hlt⟩

/-- **The order of the entries does not matter** if and only if it leaves the kinds in order. -/
theorem node_order_iff (hids : (top.nodes.map (·.id)).Perm (List.range top.nodes.length)) :
    OrderIrrelevant top ↔ KindsInOrder top := by
  constructor
  · intro h i entry hi entry' hmem hid
    rw [← h.kinds entry' hmem, hid, isSwitchNode_createNodes hi]
  · intro h
    have hkinds : ∀ entry ∈ top.nodes,
        (Network.createNodes top).isSwitchNode entry.id = entry.isSwitch := by
      intro entry hmem
      obtain ⟨entry', hi⟩ := getElem?_of_ids hids hmem
      rw [isSwitchNode_createNodes hi, h _ _ hi entry hmem rfl]
    constructor
    case kinds => exact hkinds
    case links =>
      intro net hnet link hlink
      obtain ⟨i, j, hi, hj⟩ := link_createLinks hnet hlink
      refine ⟨i, j, hi, hj, fun entry hmem _ => ?_⟩
      rw [← hkinds entry hmem, Network.isSwitchNode, (devices_createLinks hnet).2]
      rfl
    case built =>
      intro nodes hperm hordered ord sets mtu
      have hsame : top.nodes.map (·.isSwitch) = nodes.map (·.isSwitch) := by
        refine List.ext_getElem? fun i => ?_
        rw [List.getElem?_map, List.getElem?_map]
        cases hi : nodes[i]? with
        | none =>
          rw [List.getElem?_eq_none_iff, hperm.length_eq] at hi
          rw [List.getElem?_eq_none hi]
        | some entry =>
          have hlt := (List.getElem?_eq_some_iff.mp hi).1
          rw [hperm.length_eq] at hlt
          have hi' := List.getElem?_eq_getElem hlt
          have hmem := hperm.mem_iff.mp (List.mem_of_getElem? hi)
          rw [hi', Option.map_some, Option.map_some, h _ _ hi' entry hmem (hordered i entry hi)]
      exact initTopology_congr top { top with nodes } hsame rfl rfl ord sets mtu

/-- A server and a switch, with the entry of the server first and its id last. -/
theorem node_order_relevant : ∃ top : RdmaTopology,
    (top.nodes.map (·.id)).Perm (List.range top.nodes.length) ∧ ¬OrderIrrelevant top := by
  let top : RdmaTopology :=
    { nodes := [{ id := 1 }, { id := 0, isSwitch := true }], links := [{ src := 0, dst := 1 }] }
  refine ⟨top, List.Perm.swap 0 1 [], fun h => ?_⟩
  exact absurd (h.kinds { id := 1 } List.mem_cons_self) (by decide)

/-- Switches and servers out of order, but the switches first. -/
theorem node_order_switches_first : ∃ top : RdmaTopology,
    top.nodes.map (·.id) = [1, 0, 3, 2] ∧ OrderIrrelevant top := by
  let top : RdmaTopology :=
    { nodes := [{ id := 1, isSwitch := true }, { id := 0, isSwitch := true }, { id := 3 },
      { id := 2 }]
      links := [{ src := 1, dst := 0 }, { src := 1, dst := 3 }, { src := 1, dst := 2 }] }
  have hids : (top.nodes.map (·.id)).Perm (List.range top.nodes.length) := by decide
  refine ⟨top, rfl, (node_order_iff hids).mpr fun i entry hi entry' hmem hid => ?_⟩
  subst hid
  have hall : ∀ entry' ∈ top.nodes, ∀ entry ∈ top.nodes[entry'.id]?,
    entry'.isSwitch = entry.isSwitch := by
    decide
  exact hall entry' hmem entry hi

end RdmaTopology
end Roce
