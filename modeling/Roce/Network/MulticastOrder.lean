import Roce.Network.InOrder
import Roce.Network.SpineLeaf

/-! # The order of multicast packets

On a spine-leaf network a multicast flow goes up to one spine and down to the other leaves, so that
its devices form a tree. -/

namespace Roce

open Function

namespace NetworkRun

section

variable {α : Type u} {f : Fabric} {role : Nat → Role} {home : Nat → Nat} {joins : List (Nat × Nat)}
  {t : RoutingTables} {ch : CustomHeader} {src : Nat} {x₀ : NetworkRun α} {d d' e e' : Dev}

/-- A switch sends a multicast packet on as `SendMultiToDevs` does. -/
theorem Initial.multicast (h0 : Initial f t x₀)
    (hslot : slot ∈ (x₀.switches e.node).targets ch junk true port)
    (hport : SwitchNode.toPort e.iface = some port) (hi : SwitchNode.toPort i = some slot.1) :
    i ∈ f.sendMultiToDevs ch (fun _ => junk) e := by
  obtain ⟨j, hj, hslot, -⟩ := SwitchNode.mem_targets.mp hslot
  obtain rfl := SwitchNode.toPort_inj hslot hi
  obtain ⟨_, hport⟩ := Option.dite_none_right_eq_some.mp hport
  rw [SwitchNode.outPorts, if_pos rfl, h0.ogroups, h0.uplink, h0.ecmpSeed,
    ← Option.some.inj hport] at hj
  exact hj

/-- The uplink that the leaf of the source elects. -/
def flowUplink (f : Fabric) (home : Nat → Nat) (ch : CustomHeader) (src : Nat) : Nat :=
  SwitchNode.electUplink (f.groups.ogroups (home src) ch.dip.toNat).keys (f.uplink (home src)) ch 0
    (f.ecmpSeed (home src))

/-- The four links on the way of a multicast packet: to the leaf of the source, up to the spine,
down to another leaf, and to a member. -/
inductive Leg (f : Fabric) (role : Nat → Role) (home : Nat → Nat) (ch : CustomHeader) (src : Nat)
    (d e : Dev) : Prop
  | first : d = ⟨src, 1⟩ → role e.node = .leaf → e.node = home src → Leg f role home ch src d e
  | up : d = ⟨home src, flowUplink f home ch src⟩ → role e.node = .spine →
    Leg f role home ch src d e
  | down : f.net.getPeerNetDevice ⟨home src, flowUplink f home ch src⟩ = some ⟨d.node, j⟩ →
    role d.node = .spine → role e.node = .leaf → e.node ≠ home src → Leg f role home ch src d e
  | last : role d.node = .leaf → role e.node = .server → d.node = home e.node → e.node ≠ src →
    (e, ch.dip.toNat) ∈ f.groups.groups → Leg f role home ch src d e

variable (h : SpineLeafFabric f role home joins) (hsrc : src < f.net.kinds.length)
  (hserver : role src = .server) (h0 : Initial f t x₀)
include h hsrc hserver h0

/-- The devices of a multicast flow are those of the four links. -/
theorem leg_of_carries (hd : Carries f.net (flowTargets ⟨ch, true⟩ x₀) src d)
    (he : f.net.getPeerNetDevice d = some e) : Leg f role home ch src d e := by
  induction hd generalizing e with
  | source =>
    obtain ⟨j, hfirst⟩ := h.net.first src hsrc hserver
    obtain rfl := Option.some.inj (he.symm.trans hfirst)
    exact .first rfl (h.net.attached src hsrc hserver).2 rfl
  | @onward d v slot i hd hv hsw hslot hi ih =>
    obtain ⟨port, hport, hslot⟩ := lanes_of_entering hslot hv
    have hback := h.net.peer hv
    have hr : role v.node ≠ .server := (h.isSwitchNode_iff hback).mp hsw
    obtain ⟨x, hx, hgroup, hne, hup⟩ :=
      (h.mem_sendMultiToDevs hback hr).mp (h0.multicast hslot hport hi)
    obtain rfl := Option.some.inj (he.symm.trans hx)
    -- the packet does not go back
    have hother : e.node ≠ d.node := fun heq =>
      hne (congrArg Dev.iface (h.net.unique he hback rfl heq))
    have hj := (h.net.adj he).2
    have hdown : role v.node = .leaf → role e.node = .server → home e.node = v.node →
        e.node ≠ src → Leg f role home ch src ⟨v.node, i⟩ e :=
      fun hl hs hhome hsrc => .last hl hs hhome.symm hsrc hgroup
    cases ih hv with
    | first hfirst hl hhome =>
      rcases (joined_leaf hl).mp hj with hspine | ⟨hs, hbelow⟩
      · refine .up ?_ hspine
        have helect := (hup hl hspine).2
        rw [← helect, flowUplink, hhome]
      · exact hdown hl hs hbelow (by rwa [hfirst] at hother)
    | up hfirst hspine =>
      refine .down (j := v.iface) ?_ hspine ((joined_spine hspine).mp hj)
        (by rwa [hfirst] at hother)
      rw [← hfirst]
      exact hv
    | down _ hspine hl hhome =>
      rcases (joined_leaf hl).mp hj with hup' | ⟨hs, hbelow⟩
      · exact absurd hspine (hup hl hup').1
      · refine hdown hl hs hbelow fun heq => hhome ?_
        rw [← hbelow, heq]
    | last _ hs => exact absurd hs hr

/-- The way of a multicast flow. -/
def multicastTree (hips : ∀ v < f.net.kinds.length, f.net.isSwitchNode v = false →
      Network.getNodeIp v = ch.sip → v = src) :
    Tree f.net (flowTargets ⟨ch, true⟩ x₀) ⟨ch, true⟩ src where
  host := by
    cases hsw : f.net.isSwitchNode src with
    | false => rfl
    | true => exact absurd hserver ((h.net.kind src hsrc).mp hsw)
  only := hips
  nodup v port := by
    refine SwitchNode.nodup_targets (fun _ => ?_) 0 port
    rw [h0.ogroups]
    exact OrdMap.nodup_keys _
  queue v := SwitchNode.targets_queue ..
  rank v := match role v with
    | .server => if v = src then 4 else 0
    | .leaf => if v = home src then 3 else 1
    | .spine => 2
  falls := by
    intro d e hd he
    cases leg_of_carries h hsrc hserver h0 hd he with
    | first hfirst hl hhome =>
      rw [hfirst, hhome]
      simp [hhome ▸ hl, hserver]
    | up hfirst hspine =>
      rw [hfirst]
      simp [hspine, (h.net.attached src hsrc hserver).2]
    | down _ hspine hl hhome => simp [hspine, hl, hhome]
    | last hl hs _ hne =>
      simp only [hl, hs, if_neg hne]
      split <;> decide
  one := by
    intro d d' e e' hd hd' he he' hnode
    have hleg := leg_of_carries h hsrc hserver h0 hd he
    have hleg' := leg_of_carries h hsrc hserver h0 hd' he'
    have hsame : d.node = d'.node → d = d' := fun heq => h.net.unique he he' heq hnode
    cases hleg with
    | first hfirst hl hhome =>
      cases hleg' with
      | first hfirst' => rw [hfirst, hfirst']
      | up _ hspine => rw [← hnode, hl] at hspine; cases hspine
      | down _ _ _ hhome' => exact absurd (hnode ▸ hhome) hhome'
      | last _ hs => rw [← hnode, hl] at hs; cases hs
    | up hfirst hspine =>
      cases hleg' with
      | first _ hl => rw [← hnode, hspine] at hl; cases hl
      | up hfirst' => rw [hfirst, hfirst']
      | down _ _ hl => rw [← hnode, hspine] at hl; cases hl
      | last _ hs => rw [← hnode, hspine] at hs; cases hs
    | down hup _ hl hhome =>
      cases hleg' with
      | first _ _ hhome' => exact absurd (hnode.trans hhome') hhome
      | up _ hspine => rw [← hnode, hl] at hspine; cases hspine
      | down hup' =>
        have hspine := Option.some.inj (hup.symm.trans hup')
        exact hsame (Dev.mk.inj hspine).1
      | last _ hs => rw [← hnode, hl] at hs; cases hs
    | last _ hs hhome =>
      cases hleg' with
      | first _ hl => rw [← hnode, hs] at hl; cases hl
      | up _ hspine => rw [← hnode, hs] at hspine; cases hspine
      | down _ _ hl => rw [← hnode, hs] at hl; cases hl
      | last _ _ hhome' => exact hsame (by rw [hhome, hhome', hnode])

end

end NetworkRun

/-- **The network keeps the order of multicast packets.** On every spine-leaf network, with any
groups and any uplinks that the hashes elect, every node receives the multicast packets of one
header (UDP, ACK or NACK) in the order in which the server with its source address sent them,
whatever the other flows do and which packets are lost, and of the servers only the other members of
the group receive them. If no packet of the flow is lost, then none is missing in between. -/
theorem multicast_in_order {α : Type u} {top : RdmaTopology} {role : Nat → Role} {home : Nat → Nat}
    (h : SpineLeaf top role home) (hips : top.DistinctIps) (ord : SetOrder)
    {joins : List (Nat × Nat)}
    (hjoins : ∀ join ∈ joins, join.1 < top.nodes.length ∧ role join.1 = .server)
    (seed : Nat → UInt32) :
    ∃ f : Fabric, top.createNetwork = some f.net ∧ f.net.rebuild ord = some f.uplink ∧
      f.net.buildGroups joins {} = some f.groups ∧ f.ecmpSeed = seed ∧
      ∀ t, ∀ src < top.nodes.length, role src = .server →
      ∀ ch, NetworkRun.HashesPorts ch → ch.sip = Network.getNodeIp src →
      ∀ (x : NetworkRun α) (v : Nat),
        ((NetworkRun.machine f t).Reachable x →
          (NetworkRun.ofFlow ⟨ch, true⟩ (x.receivedBy v)).Sublist
            (NetworkRun.ofFlow ⟨ch, true⟩ (x.sent src)) ∧
          (role v = .server → NetworkRun.ofFlow ⟨ch, true⟩ (x.receivedBy v) ≠ [] →
            (v, ch.dip.toNat) ∈ joins ∧ v ≠ src)) ∧
        (((NetworkRun.machine f t).restrict (NetworkRun.Keeps f.net ⟨ch, true⟩)).Reachable x →
          NetworkRun.ofFlow ⟨ch, true⟩ (x.receivedBy v) <+:
            NetworkRun.ofFlow ⟨ch, true⟩ (x.sent src)) := by
  obtain ⟨f, hnet, hrebuild, hgroups, hseed, hlen, hf⟩ := h.exists_fabric ord hjoins seed
  refine ⟨f, hnet, hrebuild, hgroups, hseed, ?_⟩
  intro t src hsrc hserver ch hch hsip x v
  have hips' : ∀ v < f.net.kinds.length, f.net.isSwitchNode v = false →
      Network.getNodeIp v = ch.sip → v = src := by
    intro v hv hsw hip
    have hkind : ∀ v < top.nodes.length, role v = .server → top.isSwitch v = false := by
      intro v hv hr
      cases hsw : top.isSwitch v with
      | false => rfl
      | true => exact absurd hr ((h.kind v hv).mp hsw)
    have hr : role v = .server := by
      by_contra hr
      rw [(hf.net.kind v hv).mpr hr] at hsw
      cases hsw
    rw [hlen] at hv
    exact hips v hv src hsrc (hkind v hv hr) (hkind src hsrc hserver) (hip.trans hsip)
  have htree : ∀ x₀ : NetworkRun α, NetworkRun.Initial f t x₀ →
      Nonempty (NetworkRun.Tree f.net (NetworkRun.flowTargets ⟨ch, true⟩ x₀) ⟨ch, true⟩ src) :=
    fun x₀ h0 => ⟨NetworkRun.multicastTree hf (hlen ▸ hsrc) hserver h0 hips'⟩
  obtain ⟨hsublist, hlossless⟩ := NetworkRun.in_order_of_tree hch htree x v
  refine ⟨fun hx => ⟨(hsublist hx).1, fun hr hne => ?_⟩, hlossless⟩
  obtain ⟨p, hp⟩ := List.exists_mem_of_ne_nil _ hne
  obtain ⟨hmem, hflow⟩ := NetworkRun.mem_ofFlow.mp hp
  obtain ⟨⟨d, q⟩, hd, rfl⟩ := List.mem_map.mp hmem
  obtain ⟨e, he, rfl, x₀, h0, hcarries⟩ := (hsublist hx).2 _ hd hflow
  cases NetworkRun.leg_of_carries hf (hlen ▸ hsrc) hserver h0 hcarries he with
  | first _ hl => rw [hr] at hl; cases hl
  | up _ hs => rw [hr] at hs; cases hs
  | down _ _ hl => rw [hr] at hl; cases hl
  | last _ _ _ hne hgroup =>
    obtain ⟨hiface, -⟩ := hf.server_iface hr (hf.net.peer he)
    rw [hiface] at hgroup
    exact ⟨(hf.member_iff hr).mp hgroup, hne⟩

/-- Two leaves with a group of the two servers. -/
def twoLeavesFabric : Option Fabric := do
  let net ← twoLeaves.createNetwork
  let uplink ← net.rebuild ⟨fun _ l => l, fun _ l => .refl l⟩
  let groups ← net.buildGroups [(3, 7), (4, 7)] {}
  return ⟨net, uplink, groups, fun _ => 1⟩

theorem twoLeavesFabric_eq {f : Fabric} (hnet : twoLeaves.createNetwork = some f.net)
    (hrebuild : f.net.rebuild ⟨fun _ l => l, fun _ l => .refl l⟩ = some f.uplink)
    (hgroups : f.net.buildGroups [(3, 7), (4, 7)] {} = some f.groups)
    (hseed : f.ecmpSeed = fun _ => 1) : twoLeavesFabric = some f := by
  obtain ⟨net, uplink, groups, seed⟩ := f
  cases hseed
  simp only [twoLeavesFabric, Option.bind_eq_bind, Option.bind_eq_some_iff]
  exact ⟨net, hnet, uplink, hrebuild, groups, hgroups, rfl⟩

/-- A packet from the server 3 to the group. -/
def groupPacket (body : Nat) : NetPacket Nat where
  ch := { sip := Network.getNodeIp 3, dip := 7, sport := 5, dport := 6, pg := 3 }
  size := 1000
  multicast := true
  body

/-- The second of three packets is lost between the spine and the second leaf. -/
def twoLeavesRun (f : Fabric) : Option (NetworkRun Nat) :=
  [.send 3 (groupPacket 1), .send 3 (groupPacket 2), .send 3 (groupPacket 3),
    .arrive ⟨3, 1⟩ false 0, .arrive ⟨3, 1⟩ false 0, .arrive ⟨3, 1⟩ false 0, .arrive ⟨1, 1⟩ false 0,
    .transmitComplete 1 1, .arrive ⟨1, 1⟩ false 0, .transmitComplete 1 1, .arrive ⟨1, 1⟩ false 0,
    .arrive ⟨0, 2⟩ false 0, .transmitComplete 0 2, .arrive ⟨0, 2⟩ true 0, .transmitComplete 0 2,
    .arrive ⟨0, 2⟩ false 0, .arrive ⟨2, 2⟩ false 0, .transmitComplete 2 2,
    .arrive ⟨2, 2⟩ false 0].foldlM (NetworkRun.handle f.net 5)
      (NetworkRun.start f {} (groupPacket 0))

theorem multicast_in_order_twoLeaves : ∃ (f : Fabric) (x : NetworkRun Nat),
    twoLeaves.createNetwork = some f.net ∧
    f.net.buildGroups [(3, 7), (4, 7)] {} = some f.groups ∧
    (NetworkRun.machine f {}).Reachable x ∧
    (x.sent 3).map (·.body) = [1, 2, 3] ∧ (x.receivedBy 4).map (·.body) = [1, 3] ∧
    x.receivedBy 3 = [] ∧
    (NetworkRun.ofFlow ⟨(groupPacket 0).ch, true⟩ (x.receivedBy 4)).Sublist
      (NetworkRun.ofFlow ⟨(groupPacket 0).ch, true⟩ (x.sent 3)) := by
  have hrun : (twoLeavesFabric.bind twoLeavesRun).any (fun x =>
      (x.sent 3).map (·.body) = [1, 2, 3] ∧ (x.receivedBy 4).map (·.body) = [1, 3] ∧
        (x.receivedBy 3).isEmpty) = true := by decide +kernel
  obtain ⟨x, hx, hrun⟩ := (Option.any_eq_true ..).mp hrun
  obtain ⟨hsent, hreceived, hnone⟩ := of_decide_eq_true hrun
  have hjoins : ∀ join ∈ [((3 : Nat), (7 : Nat)), (4, 7)],
      join.1 < twoLeaves.nodes.length ∧ twoLeavesRole join.1 = .server := by decide
  obtain ⟨f, hnet, hrebuild, hgroups, hseed, horder⟩ := multicast_in_order twoLeaves_spineLeaf
    (RdmaTopology.distinctIps_of_length_le (by decide)) ⟨fun _ l => l, fun _ l => .refl l⟩ hjoins
    fun _ => 1
  rw [twoLeavesFabric_eq hnet hrebuild hgroups hseed, Option.bind_some] at hx
  have hstart : (NetworkRun.machine f {}).Reachable (NetworkRun.start f {} (groupPacket 0)) :=
    .init (NetworkRun.initial_start f {} _)
  have hreach := hstart.of_foldlM (fun h => ⟨_, NetworkRun.step_of_handle h⟩) hx
  refine ⟨f, x, hnet, hgroups, hreach, hsent, hreceived, List.isEmpty_iff.mp hnone, ?_⟩
  exact ((horder {} 3 (by decide) rfl _ (.inl rfl) rfl x 4).1 hreach).1

end Roce
