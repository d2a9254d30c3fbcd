import Roce.Network.Ecmp
import Roce.Network.Routing

/-! # Forwarding

The tables that `BuildRoutingTables` fills from the routes, `GetOutDev` and `ResolveIface`, and the
way of a unicast packet through the network. -/

namespace Roce

open Function Network

/-- `m_rtTable` of the switches and of the `RdmaHw` of the servers. -/
structure RoutingTables where
  switch : Nat → UInt32 → Option (List Nat) := fun _ _ => none
  hw : Nat → UInt32 → Option Nat := fun _ _ => none

namespace RoutingTables

/-- `AddTableEntry` of a switch or of an `RdmaHw`, which has no ECMP. -/
def addTableEntry (net : Network) (src : Nat) (addr : UInt32) (t : RoutingTables) (idx : Nat) :
    Option RoutingTables :=
  if net.isSwitchNode src then
    some { t with
      switch := update t.switch src
        (update (t.switch src) addr (some ((t.switch src addr).getD [] ++ [idx]))) }
  else if (t.hw src addr).isSome then none
  else some { t with hw := update t.hw src (update (t.hw src) addr (some idx)) }

end RoutingTables

namespace Network

variable (net : Network) (ord : PtrOrder) (p2p : Nat → Nat → Option P2pInfo)

/-- The interfaces to the next hops. -/
def hopPorts (src dst : Nat) : List Nat :=
  (nextHopsOf p2p src dst).map fun next => (ifaceOf p2p src next).idx

/-- The entries of `src` for the address of `dst`. -/
def addNextHops (src : Nat) (t : RoutingTables) (dst : Nat) : Option RoutingTables := do
  (hopPorts p2p src dst).foldlM (RoutingTables.addTableEntry net src (← net.ip dst)) t

/-- `BuildRoutingTables`. -/
def buildRoutingTables : Option RoutingTables :=
  (ord.order net.kinds.length).foldlM
    (fun t src => (ord.keys net.kinds.length (p2p src)).foldlM (net.addNextHops p2p src) t) {}

/-- `BuildRoutes`. -/
def buildRoutes (mtu : Nat) : Option RoutingTables := do
  let p2p ← net.servers.foldlM (net.buildRoute ord mtu) net.p2p
  net.buildRoutingTables ord p2p

end Network

/-- `GetOutDev`, where `hash` is the `EcmpHash` of the switch. -/
def SwitchNode.getOutDev (table : UInt32 → Option (List Nat)) (hash : CustomHeader → UInt32)
    (ch : CustomHeader) : Option Nat := do
  let nexthops ← table ch.dip
  hashPick nexthops (hash ch)

namespace RoutingTables

variable (net : Network) (t : RoutingTables) (hash : Nat → CustomHeader → UInt32)
  (ch : CustomHeader)

/-- The port by which a switch forwards a packet, or by which a server sends it. -/
def outPort (v : Nat) : Option Nat :=
  if net.isSwitchNode v then SwitchNode.getOutDev (t.switch v) (hash v) ch else t.hw v ch.dip

/-- The node that gets the packet from `v`. -/
def nextHop (v : Nat) : Option Nat := do
  let port ← t.outPort net hash ch v
  let d ← net.getPeerNetDevice ⟨v, port⟩
  return d.node

/-- The nodes that get the packet in the next hops. -/
def follow : Nat → Nat → Option (List Nat)
  | 0, _ => some []
  | hops + 1, v => do
    let next ← t.nextHop net hash ch v
    return next :: (← follow hops next)

/-- The ports for an address. -/
def ports (v : Nat) (addr : UInt32) : List Nat :=
  if net.isSwitchNode v then (t.switch v addr).getD [] else (t.hw v addr).toList

variable {net t hash ch} {p2p : Nat → Nat → Option P2pInfo} {idxs dsts : List Nat}

/-- An entry of a server must be its only one for the address. -/
theorem ports_addTableEntry
    (h : net.isSwitchNode src = true ∨ (t.ports net src addr ++ [idx]).length ≤ 1) :
    ∃ t', addTableEntry net src addr t idx = some t' ∧ ∀ v a, t'.ports net v a =
      t.ports net v a ++ if v = src ∧ a = addr then [idx] else [] := by
  unfold addTableEntry
  cases hsw : net.isSwitchNode src with
  | true =>
    refine ⟨_, if_pos rfl, fun v a => ?_⟩
    by_cases hva : v = src ∧ a = addr
    · obtain ⟨rfl, rfl⟩ := hva
      simp [ports, hsw]
    · simp only [ports, update_update_of_ne hva, if_neg hva, List.append_nil]
  | false =>
    have hnone : t.hw src addr = none := by
      have hlen := h.resolve_left (by rw [hsw]; exact Bool.false_ne_true)
      rw [ports, hsw] at hlen
      cases hv : t.hw src addr with
      | none => rfl
      | some idx => simp [hv] at hlen
    simp only [hnone, Option.isSome_none]
    refine ⟨_, rfl, fun v a => ?_⟩
    by_cases hva : v = src ∧ a = addr
    · obtain ⟨rfl, rfl⟩ := hva
      simp [ports, hsw, hnone]
    · simp only [ports, update_update_of_ne hva, if_neg hva, List.append_nil]

theorem ports_addTableEntries
    (h : net.isSwitchNode src = true ∨ (t.ports net src addr ++ idxs).length ≤ 1) :
    ∃ t', idxs.foldlM (addTableEntry net src addr) t = some t' ∧ ∀ v a, t'.ports net v a =
      t.ports net v a ++ if v = src ∧ a = addr then idxs else [] := by
  induction idxs generalizing t with
  | nil => exact ⟨t, rfl, by simp⟩
  | cons idx idxs ih =>
    have hfirst : net.isSwitchNode src = true ∨ (t.ports net src addr ++ [idx]).length ≤ 1 := by
      refine h.imp id fun hlen => ?_
      simp only [List.length_append, List.length_cons, List.length_nil] at hlen ⊢
      omega
    obtain ⟨t₁, hadd, h₁⟩ := ports_addTableEntry hfirst
    obtain ⟨t', hfold, h'⟩ := @ih t₁ (h.imp id fun hlen => by simpa [h₁] using hlen)
    refine ⟨t', by rw [List.foldlM_cons, hadd]; exact hfold, fun v a => ?_⟩
    rw [h', h₁, List.append_assoc]
    split <;> simp

/-- What the rows of `dsts` add to the ports of `src` for an address. -/
def newPorts (net : Network) (p2p : Nat → Nat → Option P2pInfo) (src : Nat) (dsts : List Nat)
    (addr : UInt32) : List Nat :=
  dsts.flatMap fun dst => if net.ip dst = some addr then hopPorts p2p src dst else []

theorem ports_addNextHops (hip : ∀ dst ∈ dsts, (net.ip dst).isSome)
    (h : net.isSwitchNode src = true ∨
      ∀ a, (t.ports net src a ++ newPorts net p2p src dsts a).length ≤ 1) :
    ∃ t', dsts.foldlM (net.addNextHops p2p src) t = some t' ∧ ∀ v a, t'.ports net v a =
      t.ports net v a ++ if v = src then newPorts net p2p src dsts a else [] := by
  induction dsts generalizing t with
  | nil => exact ⟨t, rfl, fun v a => by simp [newPorts]⟩
  | cons dst dsts ih =>
    obtain ⟨addr, haddr⟩ := Option.isSome_iff_exists.mp (hip dst List.mem_cons_self)
    have hcons : ∀ a, newPorts net p2p src (dst :: dsts) a =
        (if a = addr then hopPorts p2p src dst else []) ++ newPorts net p2p src dsts a := by
      intro a
      simp only [newPorts, List.flatMap_cons, haddr, Option.some.injEq, eq_comm]
    have hfirst : net.isSwitchNode src = true ∨
        (t.ports net src addr ++ hopPorts p2p src dst).length ≤ 1 := by
      refine h.imp id fun hlen => ?_
      have := hlen addr
      rw [hcons, if_pos rfl] at this
      simp only [List.length_append] at this ⊢
      omega
    obtain ⟨t₁, hadd, h₁⟩ := ports_addTableEntries hfirst
    obtain ⟨t', hfold, h'⟩ := @ih t₁ (fun d hd => hip d (List.mem_cons_of_mem _ hd))
      (h.imp id fun hlen a => by simpa [h₁, hcons] using hlen a)
    refine ⟨t', ?_, fun v a => ?_⟩
    · rw [List.foldlM_cons, addNextHops, haddr]
      exact (congrArg (· >>= _) hadd).trans hfold
    · rw [h', h₁, List.append_assoc, hcons]
      by_cases hv : v = src <;> simp [hv]

theorem ports_buildRoutingTables (ord : PtrOrder)
    (hip : ∀ src < net.kinds.length, ∀ dst, (p2p src dst).isSome → (net.ip dst).isSome)
    (h : ∀ src < net.kinds.length, net.isSwitchNode src = true ∨ ∀ a,
      (newPorts net p2p src (ord.keys net.kinds.length (p2p src)) a).length ≤ 1) :
    ∃ t, net.buildRoutingTables ord p2p = some t ∧ ∀ v < net.kinds.length, ∀ a,
      t.ports net v a = newPorts net p2p v (ord.keys net.kinds.length (p2p v)) a := by
  have hloop : ∀ (srcs : List Nat) (t : RoutingTables), srcs.Nodup →
      (∀ src ∈ srcs, src < net.kinds.length ∧ ∀ a, t.ports net src a = []) →
      ∃ t', srcs.foldlM (fun t src => (ord.keys net.kinds.length (p2p src)).foldlM
          (net.addNextHops p2p src) t) t = some t' ∧
        ∀ v a, t'.ports net v a = t.ports net v a ++
          if v ∈ srcs then newPorts net p2p v (ord.keys net.kinds.length (p2p v)) a else [] := by
    intro srcs
    induction srcs with
    | nil => exact fun t _ _ => ⟨t, rfl, by simp⟩
    | cons src srcs ih =>
      intro t hnodup ht
      obtain ⟨hsrc, hempty⟩ := ht src List.mem_cons_self
      obtain ⟨hnew, hnodup⟩ := List.nodup_cons.mp hnodup
      obtain ⟨t₁, hadd, h₁⟩ := ports_addNextHops (t := t)
        (fun dst hdst => hip src hsrc dst (mem_keys.mp hdst).2)
        ((h src hsrc).imp id fun hlen a => by simpa [hempty] using hlen a)
      obtain ⟨t', hfold, h'⟩ := ih t₁ hnodup fun v hv => by
        obtain ⟨hlt, hnil⟩ := ht v (List.mem_cons_of_mem _ hv)
        refine ⟨hlt, fun a => ?_⟩
        have hne : v ≠ src := fun heq => hnew (heq ▸ hv)
        rw [h₁, hnil a, if_neg hne, List.append_nil]
      refine ⟨t', by rw [List.foldlM_cons, hadd]; exact hfold, fun v a => ?_⟩
      rw [h', h₁, List.append_assoc]
      by_cases hv : v = src
      · simp [hv, hnew]
      · simp [hv]
  have hstart : ∀ v a, ports net {} v a = [] := by
    intro v a
    unfold ports
    split <;> rfl
  obtain ⟨t, hfold, ht⟩ := hloop (ord.order net.kinds.length) {} (nodup_order ord _)
    fun v hv => ⟨mem_order.mp hv, hstart v⟩
  refine ⟨t, hfold, fun v hv a => ?_⟩
  rw [ht, hstart, if_pos (mem_order.mpr hv), List.nil_append]

/-- A node with ports for the address of a packet forwards it by one of them. -/
theorem exists_outPort (hash : Nat → CustomHeader → UInt32) (h : t.ports net v ch.dip ≠ []) :
    ∃ port ∈ t.ports net v ch.dip, t.outPort net hash ch v = some port := by
  unfold ports at h ⊢
  unfold outPort
  split at h
  next hsw =>
    rw [if_pos hsw, if_pos hsw, SwitchNode.getOutDev]
    cases ht : t.switch v ch.dip with
    | none => exact absurd (congrArg (Option.getD · []) ht) h
    | some ports =>
      rw [ht] at h
      exact SwitchNode.hashPick_eq h _
  next hsw =>
    rw [if_neg hsw, if_neg hsw]
    cases ht : t.hw v ch.dip with
    | none => exact absurd (congrArg Option.toList ht) h
    | some port => exact ⟨port, List.mem_singleton_self port, rfl⟩

end RoutingTables

/-! ## Shortest paths -/

namespace RdmaTopology

variable {top : RdmaTopology} {net : Network} {p2p : Nat → Nat → Option P2pInfo}

/-- The servers have different addresses. -/
def DistinctIps (top : RdmaTopology) : Prop :=
  ∀ u < top.nodes.length, ∀ v < top.nodes.length, top.isSwitch u = false → top.isSwitch v = false →
    getNodeIp u = getNodeIp v → u = v

theorem distinctIps_of_length_le (h : top.nodes.length ≤ 2 ^ 24) : top.DistinctIps := by
  intro u hu v hv _ _ heq
  have heq := congrArg UInt32.toNat heq
  simp only [getNodeIp, Nat.toUInt32_eq, UInt32.toNat_ofNat'] at heq
  omega

/-- The interfaces to the next hops are those of the links that lead closer to the host. -/
theorem Simple.hopPorts (hs : top.Simple) (hw : Wired top.links net)
    (hr : Routed top net hosts p2p) (hv : v < top.nodes.length) (hdst : dst ∈ hosts) :
    (hopPorts p2p v dst).Nodup ∧ ∀ port, port ∈ Network.hopPorts p2p v dst ↔
      ∃ e, net.getPeerNetDevice ⟨v, port⟩ = some e ∧
        top.graph.dist v dst = top.graph.dist e.node dst + 1 := by
  obtain ⟨hnodup, hmem⟩ := hr.nextHops dst hdst v hv
  have hidx : ∀ u, top.graph.Adj v u → ∃ i,
      net.getPeerNetDevice ⟨v, (ifaceOf p2p v u).idx⟩ = some ⟨u, i⟩ := by
    intro u hadj
    obtain ⟨info, hinfo⟩ := Option.isSome_iff_exists.mp ((hw.p2p_isSome v u).mpr hadj.2)
    rw [hr.iface, ifaceOf, hinfo]
    exact (hw.p2p hinfo).2.2
  constructor
  · refine hnodup.map_on fun u hu w hw heq => ?_
    obtain ⟨i, hi⟩ := hidx u ((hmem u).mp hu).1
    obtain ⟨j, hj⟩ := hidx w ((hmem w).mp hw).1
    rw [heq, hj, Option.some.injEq] at hi
    exact (congrArg Dev.node hi).symm
  · intro port
    simp only [Network.hopPorts, List.mem_map, hmem]
    constructor
    · rintro ⟨u, ⟨hadj, hd⟩, rfl⟩
      obtain ⟨i, hi⟩ := hidx u hadj
      exact ⟨_, hi, hd⟩
    · rintro ⟨⟨u, i⟩, he, hd⟩
      have hadj := hs.adj.mpr (hw.linkCount_pos he)
      obtain ⟨j, hj⟩ := hidx u hadj
      exact ⟨u, ⟨hadj, hd⟩, hw.port_unique (hs.link v u) hj he⟩

theorem Simple.devices_ne_nil (hw : Wired top.links net) (hl : 0 < linkCount top.links v u) :
    net.devices v ≠ [] := by
  obtain ⟨i, j, hi⟩ := hw.exists_peer hl
  obtain ⟨-, dev, hdev, -⟩ := getPeerNetDevice_eq_some.mp hi
  exact List.ne_nil_of_mem (List.mem_of_getElem? hdev)

/-- A server knows at most one way to a host. -/
theorem Simple.hopPorts_server (hs : top.Simple) (hr : Routed top net hosts p2p)
    (hv : v < top.nodes.length) (hsw : top.isSwitch v = false) (hdst : dst ∈ hosts) :
    (Network.hopPorts p2p v dst).length ≤ 1 := by
  obtain ⟨hnodup, hmem⟩ := hr.nextHops dst hdst v hv
  obtain ⟨u, -, honly⟩ := hs.server v hv hsw
  have hsub : (nextHopsOf p2p v dst).Subperm [u] := List.subperm_of_subset hnodup fun w hw =>
    List.mem_singleton.mpr (honly w ((hmem w).mp hw).1.2)
  rw [Network.hopPorts, List.length_map]
  exact hsub.length_le

theorem mem_servers_iff (hk : net.kinds = top.nodes.map (·.isSwitch)) :
    v ∈ net.servers ↔ v < top.nodes.length ∧ top.isSwitch v = false := by
  rw [Network.mem_servers, length_kinds hk, isSwitchNode_eq hk]

/-- Whatever there is a route to has an address, and a server has its own. -/
theorem Simple.ip (hs : top.Simple) (hw : Wired top.links net)
    (hk : net.kinds = top.nodes.map (·.isSwitch)) (hr : Routed top net net.servers p2p)
    (hsome : (p2p src dst).isSome) :
    ∃ addr, net.ip dst = some addr ∧ (dst ∈ net.servers → addr = getNodeIp dst) := by
  have hdev : net.devices dst ≠ [] := by
    rcases hr.isSome src dst hsome with hdst | hlink
    · obtain ⟨hlt, hsw⟩ := (mem_servers_iff hk).mp hdst
      obtain ⟨u, hu, -⟩ := hs.server dst hlt hsw
      exact Simple.devices_ne_nil hw (u := u) (by omega)
    · exact Simple.devices_ne_nil hw (linkCount_comm .. ▸ (hw.p2p_isSome src dst).mp hlink)
  obtain ⟨addr, haddr, hserver⟩ := hw.ip dst hdev
  refine ⟨addr, haddr, fun hdst => hserver ?_⟩
  rw [isSwitchNode_eq hk]
  exact ((mem_servers_iff hk).mp hdst).2

theorem Simple.hopPorts_eq_nil (hr : Routed top net net.servers p2p) (v : Nat)
    (hdst : dst ∉ net.servers) : Network.hopPorts p2p v dst = [] := by
  rw [Network.hopPorts, hr.fresh v dst hdst, List.map_nil]

/-- The entries of a node for the address of a server are the ports that lead to it. -/
theorem Simple.newPorts (hs : top.Simple) (hips : top.DistinctIps) (hw : Wired top.links net)
    (hk : net.kinds = top.nodes.map (·.isSwitch)) (ord : PtrOrder)
    (hr : Routed top net net.servers p2p) (v : Nat) (hdst : dst ∈ net.servers) :
    RoutingTables.newPorts net p2p v (ord.keys net.kinds.length (p2p v)) (getNodeIp dst) =
      Network.hopPorts p2p v dst := by
  obtain ⟨hlt, hsw⟩ := (mem_servers_iff hk).mp hdst
  have hnotin : dst ∉ ord.keys net.kinds.length (p2p v) → Network.hopPorts p2p v dst = [] := by
    intro hkey
    rw [mem_keys, length_kinds hk] at hkey
    have hnone : p2p v dst = none := by simpa [hlt] using hkey
    rw [Network.hopPorts, nextHopsOf, hnone]
    rfl
  rw [RoutingTables.newPorts, flatMap_eq_of_unique (x := dst) (nodup_keys ord _ _)]
  · split
    next => rfl
    next hne =>
      refine (hnotin fun hkey => hne ?_).symm
      obtain ⟨addr, haddr, heq⟩ := hs.ip hw hk hr (mem_keys.mp hkey).2
      rw [haddr, heq hdst]
  · intro hkey
    rw [hnotin hkey, ite_self]
  · intro y hy hne
    split
    next haddr =>
      by_cases hy' : y ∈ net.servers
      · obtain ⟨addr, haddr', heq⟩ := hs.ip hw hk hr (mem_keys.mp hy).2
        rw [haddr, Option.some.injEq, heq hy'] at haddr'
        obtain ⟨hylt, hysw⟩ := (mem_servers_iff hk).mp hy'
        exact absurd (hips y hylt dst hlt hysw hsw haddr'.symm) hne
      · exact Simple.hopPorts_eq_nil hr v hy'
    next => rfl

/-- A server has at most one entry for an address, so `RdmaHw` takes all of them. -/
theorem Simple.newPorts_length_le (hs : top.Simple) (hips : top.DistinctIps)
    (hw : Wired top.links net) (hk : net.kinds = top.nodes.map (·.isSwitch)) (ord : PtrOrder)
    (hr : Routed top net net.servers p2p) (hv : v < top.nodes.length)
    (hsw : top.isSwitch v = false) (a : UInt32) :
    (RoutingTables.newPorts net p2p v (ord.keys net.kinds.length (p2p v)) a).length ≤ 1 := by
  by_cases ha : ∃ dst ∈ net.servers, getNodeIp dst = a
  · obtain ⟨dst, hdst, rfl⟩ := ha
    rw [hs.newPorts hips hw hk ord hr v hdst]
    exact hs.hopPorts_server hr hv hsw hdst
  · have hnil : RoutingTables.newPorts net p2p v (ord.keys net.kinds.length (p2p v)) a = [] := by
      refine List.flatMap_eq_nil_iff.mpr fun y hy => ?_
      split
      next haddr =>
        refine Simple.hopPorts_eq_nil hr v fun hy' => ha ⟨y, hy', ?_⟩
        obtain ⟨addr, haddr', heq⟩ := hs.ip hw hk hr (mem_keys.mp hy).2
        rw [haddr, Option.some.injEq, heq hy'] at haddr'
        exact haddr'.symm
      next => rfl
    rw [hnil]
    exact Nat.zero_le 1

/-- **`BuildRoutingTables`** installs for the address of a server the ports that lead to it. -/
theorem Simple.buildRoutingTables (hs : top.Simple) (hips : top.DistinctIps)
    (hw : Wired top.links net) (hk : net.kinds = top.nodes.map (·.isSwitch)) (ord : PtrOrder)
    (hr : Routed top net net.servers p2p) :
    ∃ t, net.buildRoutingTables ord p2p = some t ∧ ∀ v < top.nodes.length, ∀ dst ∈ net.servers,
      t.ports net v (getNodeIp dst) = Network.hopPorts p2p v dst := by
  have hbound : ∀ v < net.kinds.length, net.isSwitchNode v = true ∨ ∀ a,
      (RoutingTables.newPorts net p2p v (ord.keys net.kinds.length (p2p v)) a).length ≤ 1 := by
    intro v hv
    rw [length_kinds hk] at hv
    rw [isSwitchNode_eq hk]
    cases hsw : top.isSwitch v with
    | true => exact .inl rfl
    | false => exact .inr (hs.newPorts_length_le hips hw hk ord hr hv hsw)
  obtain ⟨t, htable, hports⟩ := RoutingTables.ports_buildRoutingTables ord
    (fun src _ dst hsome => by
      obtain ⟨addr, haddr, -⟩ := hs.ip hw hk hr hsome
      rw [haddr, Option.isSome_some]) hbound
  refine ⟨t, htable, fun v hv dst hdst => ?_⟩
  rw [hports v (length_kinds hk ▸ hv), hs.newPorts hips hw hk ord hr v hdst]

/-- The tables of a topology: for each server, a node has the ports that lead closer to it. -/
structure Forwards (top : RdmaTopology) (net : Network) (t : RoutingTables) : Prop where
  kind : ∀ v, net.isSwitchNode v = top.isSwitch v
  adj : ∀ {d e}, net.getPeerNetDevice d = some e → top.graph.Adj d.node e.node
  port : ∀ {u v}, top.graph.Adj u v → ∃ i j, net.getPeerNetDevice ⟨u, i⟩ = some ⟨v, j⟩
  ports : ∀ v < top.nodes.length, ∀ dst < top.nodes.length, top.isSwitch dst = false →
    (t.ports net v (getNodeIp dst)).Nodup ∧ ∀ port, port ∈ t.ports net v (getNodeIp dst) ↔
      ∃ e, net.getPeerNetDevice ⟨v, port⟩ = some e ∧
        top.graph.dist v dst = top.graph.dist e.node dst + 1

theorem Simple.forwards (hs : top.Simple) (hconn : top.Connected) (hips : top.DistinctIps)
    (ord : PtrOrder) (mtu : Nat) : ∃ net t, top.createNetwork = some net ∧
      net.buildRoutes ord mtu = some t ∧ Forwards top net t := by
  obtain ⟨net, hnet, hw, hk⟩ := hs.createNetwork
  have hlen := length_kinds hk
  have hkind := congrFun (isSwitchNode_eq hk)
  have hstart : Routed top net [] net.p2p := by
    refine ⟨fun _ _ => rfl, fun _ _ => .inr, fun u v _ => ?_, fun _ h => absurd h List.not_mem_nil⟩
    rw [nextHopsOf]
    cases hp : net.p2p u v with
    | none => rfl
    | some info => exact (hw.p2p hp).2.1
  obtain ⟨p2p, hroutes, hr⟩ := hstart.buildRoutes ord mtu hs hconn hw hk net.servers
    (fun v hv => hlen ▸ List.mem_range.mp (List.mem_filter.mp hv).1)
    (List.nodup_range.filter _)
  obtain ⟨t, htables, hports⟩ := hs.buildRoutingTables hips hw hk ord hr
  refine ⟨net, t, hnet, ?_, hkind, fun he => hs.adj.mpr (hw.linkCount_pos he),
    fun hadj => hw.exists_peer hadj.2, fun v hv dst hdst hsw => ?_⟩
  · rw [buildRoutes, hroutes]
    exact htables
  · have hmem : dst ∈ net.servers := by
      simp only [servers, List.mem_filter, List.mem_range, hlen, hkind, hsw]
      exact ⟨hdst, rfl⟩
    rw [hports v hv dst hmem]
    exact hs.hopPorts hw hr hv hmem

variable {t : RoutingTables} {ch : CustomHeader}

/-- Each hop leads closer to the destination, whichever port the hash picks. -/
theorem Forwards.nextHop (hash : Nat → CustomHeader → UInt32) (h : Forwards top net t)
    (hconn : top.Connected)
    (hdst : dst < top.nodes.length) (hsw : top.isSwitch dst = false) (hch : ch.dip = getNodeIp dst)
    (hv : v < top.nodes.length) (hne : v ≠ dst) :
    ∃ next, t.nextHop net hash ch v = some next ∧ top.graph.Adj v next ∧
      top.graph.dist v dst = top.graph.dist next dst + 1 := by
  obtain ⟨-, hmem⟩ := h.ports v hv dst hdst hsw
  rw [← hch] at hmem
  have hport : t.ports net v ch.dip ≠ [] := by
    obtain ⟨u, hadj, hd⟩ := exists_nearer (hconn v hv dst hdst) hne
    obtain ⟨i, j, hi⟩ := h.port hadj
    exact List.ne_nil_of_mem ((hmem i).mpr ⟨_, hi, hd⟩)
  obtain ⟨port, hin, hout⟩ := RoutingTables.exists_outPort hash hport
  obtain ⟨e, he, hd⟩ := (hmem port).mp hin
  refine ⟨e.node, ?_, h.adj he, hd⟩
  rw [RoutingTables.nextHop, hout]
  exact congrArg (· >>= fun d => some d.node) he

/-- The way of a packet, by induction on the distance. -/
theorem Forwards.follow (hash : Nat → CustomHeader → UInt32) (h : Forwards top net t)
    (hs : top.Simple) (hconn : top.Connected)
    (hdst : dst < top.nodes.length) (hsw : top.isSwitch dst = false) (hch : ch.dip = getNodeIp dst)
    (hv : v < top.nodes.length) (hd : top.graph.dist v dst = k) :
    ∃ path, t.follow net hash ch k v = some path ∧ (v :: path).getLast? = some dst ∧
      (∀ w ∈ path.dropLast, top.isSwitch w = true) ∧ (∀ w ∈ path, top.graph.dist w dst < k) ∧
      path.Nodup := by
  induction k generalizing v with
  | zero =>
    have heq : v = dst := by
      by_contra hne
      obtain ⟨u, -, hu⟩ := exists_nearer (hconn v hv dst hdst) hne
      omega
    exact ⟨[], rfl, congrArg some heq, fun _ h => (nomatch h), fun _ h => (nomatch h), .nil⟩
  | succ k ih =>
    have hne : v ≠ dst := by
      rintro rfl
      rw [SimpleGraph.dist_self] at hd
      cases hd
    obtain ⟨next, hnext, hadj, hstep⟩ := h.nextHop hash hconn hdst hsw hch hv hne
    obtain ⟨path, hpath, hlast, hswitch, hnear, hnodup⟩ :=
      ih (hs.lt_of_adj hadj).2 (Nat.succ_injective (hstep.symm.trans hd))
    refine ⟨next :: path, ?_, ?_, ?_, ?_, ?_⟩
    · rw [RoutingTables.follow, hnext]
      exact congrArg (· >>= fun path => some (next :: path)) hpath
    · rw [List.getLast?_cons_cons]
      exact hlast
    · have hinner := hs.inner_of_dist hconn hadj.symm hdst hstep
      cases path with
      | nil => exact fun _ h => (nomatch h)
      | cons w path =>
        rw [List.dropLast_cons_cons]
        refine List.forall_mem_cons.mpr ⟨hinner.resolve_left ?_, hswitch⟩
        -- there is no way on from the destination
        rintro rfl
        rw [SimpleGraph.dist_self] at hstep
        have := hnear w List.mem_cons_self
        omega
    · refine List.forall_mem_cons.mpr ⟨by omega, fun w hw => Nat.lt_succ_of_lt (hnear w hw)⟩
    · refine List.nodup_cons.mpr ⟨fun hmem => ?_, hnodup⟩
      have := hnear next hmem
      omega

end RdmaTopology

/-- **Unicast routing is shortest-path and loop-free**: on a simple connected topology whose servers
have one link each, a switch holds for a server the ports of its links to the neighbours one hop
closer, and whatever the hashes, a packet from one server to another takes as many hops as their
distance, all but the last to switches. -/
theorem unicast_shortest_path {top : RdmaTopology} (hs : top.Simple) (hconn : top.Connected)
    (hips : top.DistinctIps) (ord : PtrOrder) (mtu : Nat) :
    ∃ net t, top.createNetwork = some net ∧ net.buildRoutes ord mtu = some t ∧
      ∀ dst < top.nodes.length, top.isSwitch dst = false →
        (∀ sw < top.nodes.length, top.isSwitch sw = true →
          ((t.switch sw (getNodeIp dst)).getD []).Nodup ∧
          ∀ port, port ∈ (t.switch sw (getNodeIp dst)).getD [] ↔
            ∃ e, net.getPeerNetDevice ⟨sw, port⟩ = some e ∧
              top.graph.dist sw dst = top.graph.dist e.node dst + 1) ∧
        ∀ src < top.nodes.length, top.isSwitch src = false → ∀ hash ch, ch.dip = getNodeIp dst →
          ∃ path, t.follow net hash ch (top.graph.dist src dst) src = some path ∧
            (src :: path).getLast? = some dst ∧ (∀ v ∈ path.dropLast, top.isSwitch v = true) ∧
            (src :: path).Nodup := by
  obtain ⟨net, t, hnet, hroutes, h⟩ := hs.forwards hconn hips ord mtu
  refine ⟨net, t, hnet, hroutes, fun dst hdst hsw => ⟨fun sw hlt hswitch => ?_, ?_⟩⟩
  · have hports := h.ports sw hlt dst hdst hsw
    rwa [RoutingTables.ports, h.kind, if_pos hswitch] at hports
  · intro src hsrc _ hash ch hch
    obtain ⟨path, hpath, hlast, hswitch, hnear, hnodup⟩ :=
      h.follow hash hs hconn hdst hsw hch hsrc rfl
    refine ⟨path, hpath, hlast, hswitch, List.nodup_cons.mpr ⟨fun hmem => ?_, hnodup⟩⟩
    exact Nat.lt_irrefl _ (hnear src hmem)

/-- Two servers behind two switches that are linked through two others. -/
def diamond : RdmaTopology where
  nodes := [{ id := 0 }, { id := 1 }, ⟨2, true⟩, ⟨3, true⟩, ⟨4, true⟩, ⟨5, true⟩]
  links := [{ src := 0, dst := 2 }, { src := 2, dst := 4 }, { src := 2, dst := 5 },
    { src := 4, dst := 3 }, { src := 5, dst := 3 }, { src := 3, dst := 1 }]

theorem diamond_link (h : 0 < linkCount diamond.links u v) : linkCount diamond.links u v = 1 ∧
    u < 6 ∧ v < 6 ∧ u ≠ v ∧ (u = 0 → v = 2) ∧ (u = 1 → v = 3) := by
  obtain ⟨l, hl, h⟩ := linkCount_pos.mp h
  have hl : l ∈ diamond.links := hl
  simp only [diamond, List.mem_cons, List.not_mem_nil, or_false] at hl
  rcases hl with rfl | rfl | rfl | rfl | rfl | rfl <;> rcases h with ⟨rfl, rfl⟩ | ⟨rfl, rfl⟩ <;>
    decide

theorem diamond_simple : diamond.Simple where
  range := by decide
  loop := by decide
  link u v := by
    rcases Nat.eq_zero_or_pos (linkCount diamond.links u v) with h | h
    · omega
    · exact (diamond_link h).1.le
  server v hv hsw := by
    have hservers : ∀ v < 6, diamond.isSwitch v = false → v = 0 ∨ v = 1 := by decide
    rcases hservers v hv hsw with rfl | rfl
    · exact ⟨2, rfl, fun w hw => (diamond_link hw).2.2.2.2.1 rfl⟩
    · exact ⟨3, rfl, fun w hw => (diamond_link hw).2.2.2.2.2 rfl⟩

theorem diamond_connected : diamond.Connected := by
  have hadj : ∀ u v, 0 < linkCount diamond.links u v → diamond.graph.Reachable u v :=
    fun u v h => SimpleGraph.Adj.reachable (diamond_simple.adj.mpr h)
  -- all nodes are joined to the node 2
  have hroot : ∀ u < 6, diamond.graph.Reachable u 2
    | 0, _ => hadj 0 2 (by decide)
    | 1, _ => (hadj 1 3 (by decide)).trans ((hadj 3 4 (by decide)).trans (hadj 4 2 (by decide)))
    | 2, _ => .rfl
    | 3, _ => (hadj 3 4 (by decide)).trans (hadj 4 2 (by decide))
    | 4, _ => hadj 4 2 (by decide)
    | 5, _ => hadj 5 2 (by decide)
  exact fun u hu v hv => (hroot u hu).trans (hroot v hv).symm

theorem unicast_diamond : ∃ net t, diamond.createNetwork = some net ∧
    net.buildRoutes ⟨List.range, fun _ => .rfl⟩ 1000 = some t ∧
    ∀ hash ch, ch.dip = getNodeIp 1 → ∃ path,
      t.follow net hash ch (diamond.graph.dist 0 1) 0 = some path ∧
        (0 :: path).getLast? = some 1 := by
  obtain ⟨net, t, hnet, hroutes, h⟩ := unicast_shortest_path diamond_simple diamond_connected
    (RdmaTopology.distinctIps_of_length_le (by decide)) ⟨List.range, fun _ => .rfl⟩ 1000
  refine ⟨net, t, hnet, hroutes, fun hash ch hch => ?_⟩
  obtain ⟨path, hpath, hlast, -⟩ :=
    (h 1 (by decide) rfl).2 0 (by decide) rfl hash ch hch
  exact ⟨path, hpath, hlast⟩

end Roce
