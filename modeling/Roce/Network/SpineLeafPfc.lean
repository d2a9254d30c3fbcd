import Roce.Network.Deadlock
import Roce.Network.MulticastOrder

/-! # PFC on spine-leaf networks

No packet of a spine-leaf network turns up again after it has gone down: a unicast packet has its
shortest path, and a leaf does not send a multicast packet up that came from above. So PFC cannot
deadlock. -/

namespace Roce

open Function Network

namespace RdmaTopology

variable {top : RdmaTopology} {net : Network}

/-- The tables have entries for the addresses of servers only. -/
theorem Simple.ports_server (hs : top.Simple) (hconn : top.Connected) (hips : top.DistinctIps)
    (hnet : top.createNetwork = some net) (hroutes : net.buildRoutes ord mtu = some t)
    (hv : v < top.nodes.length) (hp : port ∈ t.ports net v a) :
    ∃ dst < top.nodes.length, top.isSwitch dst = false ∧ a = Network.getNodeIp dst := by
  obtain ⟨net', hnet', hw, hk⟩ := hs.createNetwork
  obtain rfl := Option.some.inj (hnet.symm.trans hnet')
  have hlen := length_kinds hk
  have hstart : Routed top net [] net.p2p := by
    refine ⟨fun _ _ => rfl, fun _ _ => .inr, fun u v _ => ?_, fun _ h => absurd h List.not_mem_nil⟩
    rw [nextHopsOf]
    cases hp : net.p2p u v with
    | none => rfl
    | some info => exact (hw.p2p hp).2.1
  obtain ⟨p2p, hp2p, hr⟩ := hstart.buildRoutes ord mtu hs hconn hw hk net.servers
    (fun v hv => hlen ▸ List.mem_range.mp (List.mem_filter.mp hv).1)
    (List.nodup_range.filter _)
  have hbound : ∀ v < net.kinds.length, net.isSwitchNode v = true ∨ ∀ a,
      (RoutingTables.newPorts net p2p v (ord.keys net.kinds.length (p2p v)) a).length ≤ 1 := by
    intro v hv
    rw [isSwitchNode_eq hk]
    cases hsw : top.isSwitch v with
    | true => exact .inl rfl
    | false => exact .inr (hs.newPorts_length_le hips hw hk ord hr (hlen ▸ hv) hsw)
  obtain ⟨t', htable, hports⟩ := RoutingTables.ports_buildRoutingTables ord
    (fun src _ dst hsome => by
      obtain ⟨addr, haddr, -⟩ := hs.ip hw hk hr hsome
      rw [haddr, Option.isSome_some]) hbound
  have ht : t = t' := by
    rw [Network.buildRoutes, hp2p] at hroutes
    exact Option.some.inj (hroutes.symm.trans htable)
  rw [ht, hports v (hlen ▸ hv)] at hp
  obtain ⟨dst, hkey, hp⟩ := List.mem_flatMap.mp hp
  split at hp
  next haddr =>
    by_cases hdst : dst ∈ net.servers
    · obtain ⟨addr, haddr', heq⟩ := hs.ip hw hk hr (mem_keys.mp hkey).2
      obtain ⟨hlt, hsw⟩ := (mem_servers_iff hk).mp hdst
      rw [haddr, Option.some.injEq, heq hdst] at haddr'
      exact ⟨dst, hlt, hsw, haddr'⟩
    · rw [Simple.hopPorts_eq_nil hr v hdst] at hp
      exact absurd hp List.not_mem_nil
  next => exact absurd hp List.not_mem_nil

end RdmaTopology

namespace SpineLeaf

variable {top : RdmaTopology} {role : Nat → Role} {home : Nat → Nat}

theorem adj (h : SpineLeaf top role home) : top.graph.Adj u v ↔
    u < top.nodes.length ∧ v < top.nodes.length ∧ joined role home u v := by
  rw [h.simple.adj, h.linkCount_pos]

/-- All nodes have a way to the spine. -/
theorem connected (h : SpineLeaf top role home) : top.Connected := by
  obtain ⟨s, hs, hspine⟩ := h.spine
  have hleaf : ∀ v < top.nodes.length, role v = .leaf → top.graph.Adj v s := fun v hv hr =>
    h.adj.mpr ⟨hv, hs, (joined_leaf hr).mpr (.inl hspine)⟩
  have hserver : ∀ v < top.nodes.length, role v = .server → top.graph.Adj v (home v) :=
    fun v hv hr =>
    h.adj.mpr ⟨hv, (h.attached v hv hr).1, (joined_server hr).mpr ⟨(h.attached v hv hr).2, rfl⟩⟩
  obtain ⟨l, hl, hlr⟩ := h.leaf
  have hreach : ∀ v < top.nodes.length, top.graph.Reachable v s := by
    intro v hv
    cases hr : role v with
    | server =>
      obtain ⟨hhome, hhomer⟩ := h.attached v hv hr
      exact (hserver v hv hr).reachable.trans (hleaf _ hhome hhomer).reachable
    | leaf => exact (hleaf v hv hr).reachable
    | spine =>
      have hup : top.graph.Adj v l := h.adj.mpr ⟨hv, hl, (joined_spine hr).mpr hlr⟩
      exact hup.reachable.trans (hleaf l hl hlr).reachable
  exact fun u hu v hv => (hreach u hu).trans (hreach v hv).symm

/-- All spines are equally far from a server. -/
theorem dist_spine_le (h : SpineLeaf top role home) (hu : u < top.nodes.length)
    (hur : role u = .spine) (hv : v < top.nodes.length) (hvr : role v = .spine)
    (hdst : dst < top.nodes.length) (hdstr : role dst = .server) :
    top.graph.dist u dst ≤ top.graph.dist v dst := by
  have hne : v ≠ dst := by
    rintro rfl
    rw [hvr] at hdstr
    cases hdstr
  obtain ⟨w, hadj, hdist⟩ := exists_nearer (h.connected v hv dst hdst) hne
  obtain ⟨-, hw, hj⟩ := h.adj.mp hadj
  have hadj' : top.graph.Adj u w := h.adj.mpr ⟨hu, hw,
    (joined_spine hur).mpr ((joined_spine hvr).mp hj)⟩
  rw [hdist]
  exact dist_le_succ hadj' (h.connected w hw dst hdst)

end SpineLeaf

namespace NetworkRun

section

variable {α : Type u} {top : RdmaTopology} {f : Fabric} {role : Nat → Role} {home : Nat → Nat}
  {joins : List (Nat × Nat)} {t : RoutingTables} {x₀ : NetworkRun α} {d e : Dev}

/-- How far a packet can still go when a device puts it out. -/
def linkRank (f : Fabric) (role : Nat → Role) (d : Dev) : Nat :=
  match role d.node with
  | .server => 4
  | .leaf => if (f.net.getPeerNetDevice d).any (role ·.node = .spine) then 3 else 1
  | .spine => 2

/-- A spine puts a unicast packet out by the ports of its destination. -/
def SpineUses (top : RdmaTopology) (f : Fabric) (role : Nat → Role) (t : RoutingTables) (d : Dev)
    (p : NetPacket α) : Prop :=
  f.net.isSwitchNode d.node = true → role d.node = .spine → p.multicast = false →
    ∃ dst < top.nodes.length, role dst = .server ∧ p.ch.dip = Network.getNodeIp dst ∧
      d.iface ∈ t.ports f.net d.node p.ch.dip

/-- What comes down to a leaf goes on to a server. -/
theorem not_up_again (hs : SpineLeaf top role home) (h : SpineLeafFabric f role home joins)
    (hf : top.Forwards f.net t) (hlen : f.net.kinds.length = top.nodes.length)
    (h0 : Initial f t x₀) (huses : SpineUses top f role t d p)
    (he : f.net.getPeerNetDevice d = some e) (hsw : f.net.isSwitchNode e.node = true)
    (hdr : role d.node = .spine) (her : role e.node = .leaf)
    (hport : SwitchNode.toPort e.iface = some port)
    (hslot : slot ∈ packetTargets x₀ e.node p junk port) (hi : SwitchNode.toPort i = some slot.1)
    (hx : f.net.getPeerNetDevice ⟨e.node, i⟩ = some x) : role x.node ≠ .spine := by
  intro hxr
  have hback := h.net.peer he
  have hd : d.node < top.nodes.length := hlen ▸ (h.net.adj he).1
  have hxlt : x.node < top.nodes.length := hlen ▸ (h.net.adj (h.net.peer hx)).1
  have helt : e.node < top.nodes.length := hlen ▸ Network.isSwitchNode_lt hsw
  unfold packetTargets at hslot
  cases hmulti : p.multicast with
  | true =>
    rw [hmulti] at hslot
    have hr : role e.node ≠ .server := (h.isSwitchNode_iff hback).mp hsw
    obtain ⟨x', hx', -, -, hup⟩ := (h.mem_sendMultiToDevs hback hr).mp (h0.multicast hslot hport hi)
    obtain rfl := Option.some.inj (hx.symm.trans hx')
    exact (hup her hxr).1 hdr
  | false =>
    rw [hmulti] at hslot
    have hdsw : f.net.isSwitchNode d.node = true :=
      (h.net.kind d.node (hlen ▸ hd)).mpr (by rw [hdr]; exact fun heq => nomatch heq)
    obtain ⟨dst, hdst, hdstr, hdip, hdport⟩ := huses hdsw hdr hmulti
    have hdstsw : top.isSwitch dst = false := by
      cases hkind : top.isSwitch dst with
      | false => rfl
      | true => exact absurd hdstr ((hs.kind dst hdst).mp hkind)
    have hcloser : ∀ {v port x}, v < top.nodes.length → port ∈ t.ports f.net v p.ch.dip →
        f.net.getPeerNetDevice ⟨v, port⟩ = some x →
        top.graph.dist v dst = top.graph.dist x.node dst + 1 := by
      intro v port x hv hmem hx
      rw [hdip] at hmem
      obtain ⟨x', hx', hdist⟩ := ((hf.ports v hv dst hdst hdstsw).2 port).mp hmem
      obtain rfl := Option.some.inj (hx.symm.trans hx')
      exact hdist
    -- two hops nearer, yet a spine again
    have hfirst := hcloser hd hdport he
    have hsecond := hcloser helt (h0.unicast hslot hi hsw).2 hx
    have hle := hs.dist_spine_le hd hdr hxlt hxr hdst hdstr
    omega

theorem linkRank_lt (hs : SpineLeaf top role home) (h : SpineLeafFabric f role home joins)
    (hf : top.Forwards f.net t) (hlen : f.net.kinds.length = top.nodes.length)
    (h0 : Initial f t x₀) (huses : SpineUses top f role t d p)
    (he : f.net.getPeerNetDevice d = some e) (hsw : f.net.isSwitchNode e.node = true)
    (hport : SwitchNode.toPort e.iface = some port)
    (hslot : slot ∈ packetTargets x₀ e.node p junk port) (hi : SwitchNode.toPort i = some slot.1) :
    linkRank f role ⟨e.node, i⟩ < linkRank f role d := by
  have hback := h.net.peer he
  have hj := (h.net.adj hback).2
  have hr : role e.node ≠ .server := (h.isSwitchNode_iff hback).mp hsw
  cases her : role e.node with
  | server => exact absurd her hr
  | spine => simp [linkRank, (joined_spine her).mp hj, her, he]
  | leaf =>
    rcases (joined_leaf her).mp hj with hdr | ⟨hdr, -⟩
    · have hone : linkRank f role ⟨e.node, i⟩ = 1 := by
        simp only [linkRank, her]
        refine if_neg fun hany => ?_
        obtain ⟨x, hx, hxr⟩ := (Option.any_eq_true ..).mp hany
        exact not_up_again hs h hf hlen h0 huses he hsw hdr her hport hslot hi hx
          (by simpa using hxr)
      rw [hone, linkRank, hdr]
      exact Nat.one_lt_two
    · simp only [linkRank, her, hdr]
      split <;> decide

/-- A spine sends a packet by the ports of its destination. -/
theorem SpineUses.onward (hs : SpineLeaf top role home) (hips : top.DistinctIps)
    (hnet : top.createNetwork = some f.net) (hroutes : f.net.buildRoutes ord mtu = some t)
    (hlen : f.net.kinds.length = top.nodes.length) (h0 : Initial f t x₀)
    (hsw : f.net.isSwitchNode v = true) (hslot : slot ∈ packetTargets x₀ v p junk port)
    (hi : SwitchNode.toPort i = some slot.1) : SpineUses top f role t ⟨v, i⟩ p := by
  intro _ _ hmulti
  unfold packetTargets at hslot
  rw [hmulti] at hslot
  have hmem := (h0.unicast hslot hi hsw).2
  obtain ⟨dst, hdst, hdstsw, hdip⟩ := hs.simple.ports_server hs.connected hips hnet hroutes
    (hlen ▸ Network.isSwitchNode_lt hsw) hmem
  refine ⟨dst, hdst, ?_, hdip, hmem⟩
  by_contra hne
  rw [(hs.kind dst hdst).mpr hne] at hdstsw
  cases hdstsw

/-- The ranks of a spine-leaf network. -/
def spineLeafRanked (hs : SpineLeaf top role home) (hips : top.DistinctIps)
    (h : SpineLeafFabric f role home joins) (hnet : top.createNetwork = some f.net)
    (hroutes : f.net.buildRoutes ord mtu = some t) (hf : top.Forwards f.net t)
    (hlen : f.net.kinds.length = top.nodes.length) (h0 : Initial f t x₀) :
    Ranked f.net (packetTargets x₀) where
  rank := linkRank f role
  Uses := SpineUses top f role t
  host _ _ hsw hsw' := absurd (hsw.symm.trans hsw') Bool.false_ne_true
  onward huses he hsw hport hslot hi :=
    ⟨.onward hs hips hnet hroutes hlen h0 hsw hslot hi,
      linkRank_lt hs h hf hlen h0 huses he hsw hport hslot hi⟩

end

end NetworkRun

/-- **PFC cannot deadlock a spine-leaf network** whose switches have PFC on all ports, and pause for
at least 1 us: in every run that loses no PFC frame and in which the switches have room for what
arrives, whenever no transmission is on its way and no port transmits, no packet waits in any
switch, whatever the hosts send, by unicast or multicast, and to whom. A switch has no room for a
multicast packet that makes it pause, but whose group has no other port: no packet would lift this
pause. -/
theorem spineLeaf_no_deadlock {α : Type u} {top : RdmaTopology} {role : Nat → Role}
    {home : Nat → Nat} (hs : SpineLeaf top role home) (hips : top.DistinctIps) (ord : SetOrder)
    {joins : List (Nat × Nat)}
    (hjoins : ∀ join ∈ joins, join.1 < top.nodes.length ∧ role join.1 = .server)
    (seed : Nat → UInt32) (ptrs : PtrOrder) (mtu : Nat) :
    ∃ f t, top.createNetwork = some f.net ∧ f.net.rebuild ord = some f.uplink ∧
      f.net.buildGroups joins {} = some f.groups ∧ f.ecmpSeed = seed ∧
      f.net.buildRoutes ptrs mtu = some t ∧
      ∀ x : NetworkRun α,
        ((NetworkRun.pfcMachine f t).restrict (NetworkRun.Orderly f.net)).Reachable x →
        NetworkRun.AtRest f.net x → ∀ v, f.net.isSwitchNode v = true →
        ∀ slot, (x.switches v).queueAt slot = [] := by
  obtain ⟨f, hnet, hrebuild, hgroups, hseed, hlen, hfabric⟩ := hs.exists_fabric ord hjoins seed
  obtain ⟨net, t, hnet', hroutes, hf⟩ := hs.simple.forwards hs.connected hips ptrs mtu
  obtain rfl := Option.some.inj (hnet.symm.trans hnet')
  refine ⟨f, t, hnet, hrebuild, hgroups, hseed, hroutes, ?_⟩
  rintro x ⟨x₀, events, ⟨h0, hequipped⟩, hrun⟩ hrest v hsw slot
  have hstart : NetworkRun.Traffic f.net
      (NetworkRun.spineLeafRanked hs hips hfabric hnet hroutes hf hlen h0) x₀ :=
    .start h0 hequipped
  have htraffic : NetworkRun.Traffic f.net
      (NetworkRun.spineLeafRanked hs hips hfabric hnet hroutes hf hlen h0) x := by
    refine hrun.preserves (I := NetworkRun.Traffic f.net _) (fun h hst => ?_) hstart
    exact h.step hfabric.net.peer hst.1 hst.2
  exact htraffic.nothing_waits hfabric.net.peer hrest hsw slot

/-- A packet from the server 3 to the server 4. -/
def serverPacket (body : Nat) : NetPacket Nat where
  ch := {
    sip := Network.getNodeIp 3, dip := Network.getNodeIp 4, sport := 5, dport := 6, pg := 3 }
  size := 1000
  multicast := false
  body

/-- Small buffers, so that the second packet that waits in a queue makes the switch pause. -/
def pausingConfig : MmuConfig where
  bufferSize := 1000
  reserve := 1500
  headroom _ := 4000

/-- Two leaves with PFC. -/
def twoLeavesPfc : Option (Fabric × RoutingTables) := do
  let f ← twoLeavesFabric
  let t ← f.net.buildRoutes .byNode 1000
  return (f, t)

/-- The spine pauses the first leaf, where a packet waits. -/
def pausedRun (f : Fabric) (t : RoutingTables) : Option (NetworkRun Nat) :=
  [.send 3 (serverPacket 1), .send 3 (serverPacket 2), .send 3 (serverPacket 3),
    .send 3 (serverPacket 4), .arrive ⟨3, 1⟩ false 0, .arrive ⟨3, 1⟩ false 0,
    .arrive ⟨3, 1⟩ false 0, .arrive ⟨3, 1⟩ false 0, .arrive ⟨1, 1⟩ false 0, .transmitComplete 1 1,
    .arrive ⟨1, 1⟩ false 0, .transmitComplete 1 1, .arrive ⟨1, 1⟩ false 0, .arrive ⟨0, 1⟩ false 0,
    .transmitComplete 1 1].foldlM (NetworkRun.handleOrderly f.net 5)
      (NetworkRun.startPfc f t pausingConfig (serverPacket 0))

/-- The spine transmits, and lifts the pause. -/
def resumedRun (f : Fabric) (x : NetworkRun Nat) : Option (NetworkRun Nat) :=
  [.transmitComplete 0 2, .transmitComplete 0 1, .arrive ⟨0, 1⟩ false 0].foldlM
    (NetworkRun.handleOrderly f.net 5) x

/-- A port that PFC holds back: the network is not at rest, and goes on. -/
theorem spineLeaf_no_deadlock_twoLeaves : ∃ (f : Fabric) (t : RoutingTables) (x y : NetworkRun Nat),
    twoLeaves.createNetwork = some f.net ∧
    f.net.buildRoutes .byNode 1000 = some t ∧
    ((NetworkRun.pfcMachine f t).restrict (NetworkRun.Orderly f.net)).Reachable x ∧
    ((x.switches 1).queueAt (1, 3) ≠ [] ∧ ((x.switches 1).devices 1).paused 3 ∧
      ((x.switches 1).devices 1).currentPkt = none) ∧ ¬NetworkRun.AtRest f.net x ∧
    ((NetworkRun.pfcMachine f t).restrict (NetworkRun.Orderly f.net)).Reachable y ∧
    (y.switches 1).queueAt (1, 3) = [] := by
  have hrun : (twoLeavesPfc.bind fun (f, t) => (pausedRun f t).bind fun x =>
      (resumedRun f x).map fun y => (x, y)).any (fun (x, y) =>
        ((x.switches 1).queueAt (1, 3) ≠ [] ∧ ((x.switches 1).devices 1).paused 3 ∧
          ((x.switches 1).devices 1).currentPkt = none) ∧
        (y.switches 1).queueAt (1, 3) = []) = true := by decide +kernel
  obtain ⟨⟨x, y⟩, hxy, hrun⟩ := (Option.any_eq_true ..).mp hrun
  obtain ⟨hpaused, hresumed⟩ := of_decide_eq_true hrun
  obtain ⟨⟨f, t⟩, hf, hxy⟩ := Option.bind_eq_some_iff.mp hxy
  obtain ⟨x, hx, hxy⟩ := Option.bind_eq_some_iff.mp hxy
  obtain ⟨y, hy, hxy⟩ := Option.map_eq_some_iff.mp hxy
  cases hxy
  have hjoins : ∀ join ∈ [((3 : Nat), (7 : Nat)), (4, 7)],
      join.1 < twoLeaves.nodes.length ∧ twoLeavesRole join.1 = .server := by decide
  obtain ⟨f', t', hnet, hrebuild, hgroups, hseed, hroutes, hrest⟩ :=
    spineLeaf_no_deadlock twoLeaves_spineLeaf
      (RdmaTopology.distinctIps_of_length_le (by decide)) ⟨fun _ l => l, fun _ l => .refl l⟩ hjoins
      (fun _ => 1) .byNode 1000
  obtain ⟨rfl, rfl⟩ : f' = f ∧ t' = t := by
    have hpfc : twoLeavesPfc = some (f', t') := by
      simp only [twoLeavesPfc, twoLeavesFabric_eq hnet hrebuild hgroups hseed, Option.bind_eq_bind,
        Option.bind_some, hroutes]
      rfl
    cases hpfc.symm.trans hf
    exact ⟨rfl, rfl⟩
  have hstart : ((NetworkRun.pfcMachine f' t').restrict (NetworkRun.Orderly f'.net)).Reachable
      (NetworkRun.startPfc f' t' pausingConfig (serverPacket 0)) :=
    .init ⟨NetworkRun.initial_startPfc f' t' _ _, NetworkRun.equipped_startPfc f' t' _ _⟩
  have hreach := hstart.of_foldlM (fun h => ⟨_, NetworkRun.step_of_handleOrderly h⟩) hx
  have hreach' := hreach.of_foldlM (fun h => ⟨_, NetworkRun.step_of_handleOrderly h⟩) hy
  have hkind : f'.net.isSwitchNode 1 = true := by
    obtain ⟨net, hnet', -, hk⟩ := twoLeaves_spineLeaf.simple.createNetwork
    rw [Option.some.inj (hnet.symm.trans hnet'), RdmaTopology.isSwitchNode_eq hk]
    rfl
  exact ⟨f', t', x, y, hnet, hroutes, hreach, hpaused,
    fun h => hpaused.1 (hrest x hreach h 1 hkind (1, 3)), hreach', hresumed⟩

end Roce
