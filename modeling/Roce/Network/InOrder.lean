import Roce.Network.Forwarding
import Roce.Network.Run

/-! # The order of the packets in the network

The devices that carry a flow are those that can be reached from its source by the tables. If they
form a tree, so that no node has two of them before it, then the packets of the flow stay in order
on their way. -/

namespace Roce

open Function

namespace NetworkRun

/-- The devices that a flow of the host `src` can use. -/
inductive Carries (net : Network) (tg : Nat → Port → List Slot) (src : Nat) : Dev → Prop
  | source : Carries net tg src ⟨src, 1⟩
  | onward : Carries net tg src d → net.getPeerNetDevice d = some e →
    net.isSwitchNode e.node = true → slot ∈ entering net tg d →
    SwitchNode.toPort i = some slot.1 → Carries net tg src ⟨e.node, i⟩

/-- The devices of a flow lead away from its source, and no node has two of them before it. -/
structure Tree (net : Network) (tg : Nat → Port → List Slot) (fl : PacketFlow) (src : Nat) where
  host : net.isSwitchNode src = false
  only : ∀ v < net.kinds.length, net.isSwitchNode v = false →
    Network.getNodeIp v = fl.ch.sip → v = src
  nodup : ∀ v port, (tg v port).Nodup
  queue : ∀ v, ∃ qIndex, ∀ port, ∀ slot ∈ tg v port, slot.2 = qIndex
  rank : Nat → Nat
  falls : ∀ {d e}, Carries net tg src d → net.getPeerNetDevice d = some e →
    rank e.node < rank d.node
  one : ∀ {d d' e e'}, Carries net tg src d → Carries net tg src d' →
    net.getPeerNetDevice d = some e → net.getPeerNetDevice d' = some e' → e.node = e'.node → d = d'

variable {α : Type u} {net : Network} {x y : NetworkRun α} {fl : PacketFlow} {lossless : Prop}
  {d e : Dev} {tr : Transmission α} {tg : Nat → Port → List Slot} {src : Nat}

theorem Tree.rank_le (tree : Tree net tg fl src) (h : Carries net tg src d) :
    tree.rank d.node ≤ tree.rank src := by
  induction h with
  | source => exact Nat.le_refl _
  | onward hd he _ _ _ ih => exact (tree.falls hd he).le.trans ih

/-- What holds in every run. -/
structure FlowInv (net : Network) (tg : Nat → Port → List Slot) (lossless : Prop) (fl : PacketFlow)
    (src : Nat) (x : NetworkRun α) : Prop where
  links : Links net lossless fl x
  lanes : Lanes net tg lossless fl x
  sent : ∀ {v p}, p ∈ x.sent v →
    v < net.kinds.length ∧ net.isSwitchNode v = false ∧ p.ch.sip = Network.getNodeIp v
  carries : ∀ {v d p}, (d, p) ∈ x.received v → p.inFlow fl = true → Carries net tg src d

/-- The lanes that the tables of the switches lead a flow to. -/
def flowTargets (fl : PacketFlow) (x : NetworkRun α) (v : Nat) (port : Port) : List Slot :=
  (x.switches v).targets fl.ch 0 fl.multicast port

section
variable {f : Fabric} {t : RoutingTables}

theorem Initial.outgoing (h : Initial f t x) (d : Dev) : x.outgoing net d = [] := by
  unfold NetworkRun.outgoing
  split
  · cases SwitchNode.toPort d.iface with
    | none => rfl
    | some port => rw [Option.elim_some, SwitchNode.transmitted, (h.idle d.node).dequeued]; rfl
  · rw [h.sent, List.map_nil, ite_self]

theorem Initial.flowInv (h : Initial f t x) : FlowInv net (flowTargets fl x) lossless fl src x := by
  have hlane : ∀ v slot, x.laneContents v slot = [] := fun v slot => by
    rw [laneContents, (h.idle v).lane]
    rfl
  constructor
  case links =>
    refine ⟨fun d => ?_, fun hp => ?_, fun {d e} _ => ?_⟩
    · rw [h.left]
      exact Nat.zero_le _
    · rw [h.received] at hp
      exact absurd hp List.not_mem_nil
    · rw [receivedFrom, h.received, h.outgoing, List.take_nil]
      exact .refl []
  case lanes =>
    refine ⟨fun _ _ => rfl, fun v => (h.idle v).inOrder, fun {v} slot _ => ?_⟩
    rw [hlane, h.received]
    exact .refl []
  case sent =>
    intro v p hp
    rw [h.sent] at hp
    exact absurd hp List.not_mem_nil
  case carries =>
    intro v d p hp
    rw [h.received] at hp
    exact absurd hp List.not_mem_nil

end

/-! ## Where a flow leaves a node -/

theorem packets_map_carry (x : NetworkRun α) (v : Nat) (l : List SwitchPacket) :
    packets (l.map (x.carry v)) = (l.filter (·.pfc.isNone)).map fun p => x.contents v p.ptr := by
  induction l with
  | nil => rfl
  | cons p l ih =>
    rw [List.map_cons, packets, List.filterMap_cons, carry]
    cases hp : p.pfc with
    | none =>
      rw [List.filter_cons_of_pos (by rw [hp]; rfl), List.map_cons, ← ih]
      rfl
    | some frame =>
      rw [List.filter_cons_of_neg (by simp [hp]), ← ih]
      rfl

theorem outgoing_switch (hsw : net.isSwitchNode d.node = true)
    (hport : SwitchNode.toPort d.iface = some port) :
    x.outgoing net d = ((x.switches d.node).transmitted port).map (x.carry d.node) := by
  rw [NetworkRun.outgoing, if_pos hsw, hport]
  rfl

/-- A packet of a flow that a switch has put out was in a lane of the port. -/
theorem mem_lane_of_outgoing (hsw : net.isSwitchNode d.node = true)
    (hp : p ∈ ofFlow fl (packets (x.outgoing net d))) :
    ∃ port qIndex, SwitchNode.toPort d.iface = some port ∧
      p ∈ ofFlow fl (x.laneContents d.node (port, qIndex)) := by
  obtain ⟨hmem, hflow⟩ := mem_ofFlow.mp hp
  cases hport : SwitchNode.toPort d.iface with
  | none =>
    rw [NetworkRun.outgoing, if_pos hsw, hport] at hmem
    exact absurd hmem List.not_mem_nil
  | some port =>
    rw [outgoing_switch hsw hport, packets_map_carry] at hmem
    obtain ⟨q, hq, rfl⟩ := List.mem_map.mp hmem
    obtain ⟨hq, hpfc⟩ := List.mem_filter.mp hq
    obtain ⟨qIndex, hlane⟩ := SwitchNode.mem_lane_of_transmitted hq
      (Option.isNone_iff_eq_none.mp hpfc)
    exact ⟨port, qIndex, rfl, mem_ofFlow.mpr ⟨List.mem_map_of_mem hlane, hflow⟩⟩

/-- And the switch received it from a device that leads to this lane. -/
theorem Lanes.received (h : Lanes net tg lossless fl x) (hsw : net.isSwitchNode v = true)
    (hp : p ∈ ofFlow fl (x.laneContents v slot)) :
    p.inFlow fl = true ∧ ∃ d, (d, p) ∈ x.received v ∧ slot ∈ entering net tg d := by
  obtain ⟨hmem, hflow⟩ := mem_ofFlow.mp ((h.order slot hsw).sublist.subset hp)
  obtain ⟨⟨d, q⟩, hq, rfl⟩ := List.mem_map.mp hmem
  obtain ⟨hq, hslot⟩ := List.mem_filter.mp hq
  exact ⟨hflow, d, hq, by simpa using hslot⟩

theorem packets_outgoing_host (hsw : net.isSwitchNode d.node = false) :
    packets (x.outgoing net d) = if d.iface = 1 then x.sent d.node else [] := by
  rw [NetworkRun.outgoing, hsw, if_neg Bool.false_ne_true]
  split
  · rw [packets, List.filterMap_map]
    exact List.filterMap_some
  · rfl

section
variable (hsrc : ∀ v < net.kinds.length, net.isSwitchNode v = false →
  Network.getNodeIp v = fl.ch.sip → v = src)
include hsrc

/-- Only the source among the hosts puts out packets of the flow, by its device. -/
theorem FlowInv.eq_source (h : FlowInv net tg lossless fl src x)
    (hkind : net.isSwitchNode d.node = false)
    (hp : p ∈ ofFlow fl (packets (x.outgoing net d))) : d = ⟨src, 1⟩ := by
  obtain ⟨hmem, hflow⟩ := mem_ofFlow.mp hp
  rw [packets_outgoing_host hkind] at hmem
  split at hmem
  next hiface =>
    obtain ⟨hlt, hsw, hsip⟩ := h.sent hmem
    rw [← hsrc d.node hlt hsw (by rw [← hsip, (inFlow_iff.mp hflow).1]), ← hiface]
  next => exact absurd hmem List.not_mem_nil

/-- A device that puts out packets of the flow carries it. -/
theorem FlowInv.carries_outgoing (h : FlowInv net tg lossless fl src x)
    (hp : p ∈ ofFlow fl (packets (x.outgoing net d))) : Carries net tg src d := by
  cases hkind : net.isSwitchNode d.node with
  | true =>
    obtain ⟨port, qIndex, hport, hlane⟩ := mem_lane_of_outgoing hkind hp
    obtain ⟨hflow, d₀, hmem, hslot⟩ := h.lanes.received hkind hlane
    obtain ⟨e, he, hnode⟩ := h.links.source hmem
    have hnext : Carries net tg src ⟨e.node, d.iface⟩ :=
      .onward (h.carries hmem hflow) he (hnode ▸ hkind) hslot hport
    rwa [hnode] at hnext
  | false => exact h.eq_source hsrc hkind hp ▸ .source

/-- What a node receives, a carrying device has put out. -/
theorem FlowInv.carries_next (h : FlowInv net tg lossless fl src x)
    (hnext : x.next net d = some (.packet p)) (hflow : p.inFlow fl = true) :
    Carries net tg src d := by
  refine h.carries_outgoing hsrc (p := p) (mem_ofFlow.mpr ⟨?_, hflow⟩)
  exact List.mem_filterMap.mpr ⟨_, List.mem_of_getElem? hnext, rfl⟩

/-- Each event keeps what holds. -/
theorem FlowInv.step (hch : HashesPorts fl.ch) (hnodup : ∀ v port, (tg v port).Nodup)
    (h : FlowInv net tg lossless fl src x) (hs : Step net x ev y)
    (hkeeps : lossless → Keeps net fl x ev) : FlowInv net tg lossless fl src y := by
  have hadvance : Advances x y → ∀ d, x.outgoing net d <+: y.outgoing net d :=
    fun hadv => hadv.outgoing h.lanes.inOrder
  have hreceive : ∀ {d tr v}, x.next net d = some tr → ∀ {w d' p},
      (d', p) ∈ (x.receiveAt d v tr).received w → p.inFlow fl = true → Carries net tg src d' := by
    intro d tr v hnext w d' p hp hflow
    dsimp only [receiveAt] at hp
    by_cases hw : w = v
    · subst hw
      rw [update_self] at hp
      rcases List.mem_append.mp hp with hp | hp
      · exact h.carries hp hflow
      · obtain ⟨q, hq, heq⟩ := List.mem_map.mp hp
        cases heq
        cases tr with
        | pfc frame => exact absurd hq List.not_mem_nil
        | packet p =>
          obtain rfl := List.mem_singleton.mp hq
          exact h.carries_next hsrc hnext hflow
    · rw [update_of_ne hw] at hp
      exact h.carries hp hflow
  cases hs with
  | @send host p _ hhost hsw hsip =>
    refine ⟨h.links.grow (fun d => ?_) rfl rfl, h.lanes.same rfl rfl fun _ _ => rfl, ?_, h.carries⟩
    · unfold NetworkRun.outgoing
      split
      · exact List.prefix_rfl
      · dsimp only
        by_cases hd : d.node = host
        · rw [hd, update_self, List.map_append]
          split
          · exact List.prefix_append ..
          · exact List.prefix_rfl
        · rw [update_of_ne hd]
    · intro v p' hp
      dsimp only at hp
      by_cases hv : v = host
      · subst hv
        rw [update_self] at hp
        rcases List.mem_append.mp hp with hp | hp
        · exact h.sent hp
        · cases List.mem_singleton.mp hp
          exact ⟨hhost, hsw, hsip⟩
      · rw [update_of_ne hv] at hp
        exact h.sent hp
  | @lose tr d junk _ hnext =>
    refine ⟨h.links.leave hnext (fun _ => List.prefix_rfl) rfl [] (fun _ hne => absurd rfl hne)
      (fun e _ => (List.append_nil _).symm) ⟨List.nil_sublist _, fun hlossless => ?_⟩,
      h.lanes.same rfl rfl fun _ _ => rfl, h.sent, h.carries⟩
    cases tr with
    | pfc frame => rfl
    | packet p =>
      symm
      refine List.filter_eq_nil_iff.mpr fun q hq hin => ?_
      obtain rfl := List.mem_singleton.mp hq
      exact absurd (hkeeps hlossless q hnext hin).1 (by decide)
  | @deliver tr d e junk _ hnext he hsw =>
    have hpackets : packets [tr] = tr.packet?.toList := by cases tr <;> rfl
    refine ⟨h.links.leave hnext (fun _ => List.prefix_rfl) rfl tr.packet?.toList (fun v hne => ?_)
      (fun f hf => ?_) (hpackets ▸ .refl _), h.lanes.same rfl rfl fun v hv => ?_, h.sent,
      hreceive hnext⟩
    · by_contra hnot
      exact hne (update_of_ne (fun heq => hnot ⟨e, he, heq.symm⟩) ..)
    · obtain rfl := Option.some.inj (he.symm.trans hf)
      exact update_self ..
    · refine update_of_ne (fun heq => ?_) ..
      rw [heq, hsw] at hv
      exact Bool.false_ne_true hv
  | @forward tr d e port fuel s junk _ hnext he hsw hport hs =>
    have hpackets : packets [tr] = tr.packet?.toList := by cases tr <;> rfl
    have happ : (x.switches e.node).Appends s := SwitchNode.onEvent_appends (e := .receive _ _) hs
    refine ⟨h.links.leave hnext (hadvance ?_) rfl tr.packet?.toList (fun v hne => ?_)
      (fun f hf => ?_) (hpackets ▸ .refl _),
      h.lanes.forward hch hnodup hnext he hsw hport hs hkeeps,
      h.sent, hreceive hnext⟩
    · exact Advances.update happ rfl (fun _ _ => learn_old) rfl
    · by_contra hnot
      exact hne (update_of_ne (fun heq => hnot ⟨e, he, heq.symm⟩) ..)
    · obtain rfl := Option.some.inj (he.symm.trans hf)
      exact update_self ..
  | @transmitComplete v fuel port s _ hsw hs =>
    have happ : (x.switches v).Appends s :=
      SwitchNode.onEvent_appends (e := .transmitComplete _) hs
    refine ⟨h.links.grow (hadvance (Advances.update happ rfl (fun _ _ _ => rfl) rfl)) rfl rfl,
      ?_, h.sent, h.carries⟩
    have henters := (SwitchNode.SameLanes.transmitComplete hs).enters
    exact h.lanes.enters henters rfl (fun _ _ _ => rfl) (fun _ _ => rfl) (List.append_nil _).symm
      fun _ => .refl []

end

/-- A flow has one queue at a node. -/
theorem Links.queue_of_entering (h : Links net lossless fl x)
    (hq : ∀ port, ∀ slot ∈ tg v port, slot.2 = qIndex) (hmem : (d, p) ∈ x.received v)
    (hslot : slot ∈ entering net tg d) : slot.2 = qIndex := by
  obtain ⟨e, he, rfl⟩ := h.source hmem
  obtain ⟨port, -, hslot⟩ := lanes_of_entering hslot he
  exact hq port _ hslot

/-- What a port has put out of a flow comes first in its lane. -/
theorem FlowInv.outgoing_prefix (h : FlowInv net tg lossless fl src x)
    (hq : ∀ port, ∀ slot ∈ tg d.node port, slot.2 = qIndex)
    (hsw : net.isSwitchNode d.node = true) (hport : SwitchNode.toPort d.iface = some port) :
    ofFlow fl (packets (x.outgoing net d)) <+:
      ofFlow fl (x.laneContents d.node (port, qIndex)) := by
  have hdequeued : ofFlow fl ((((x.switches d.node).dequeued.filter (·.port = port)).map
        (·.packet)).filter (·.pfc.isNone) |>.map fun p => x.contents d.node p.ptr) =
      ofFlow fl ((((x.switches d.node).dequeued.filter (·.slot = (port, qIndex))).map
        (·.packet)).filter (·.pfc.isNone) |>.map fun p => x.contents d.node p.ptr) := by
    simp only [ofFlow, List.filter_map, List.filter_filter, List.map_map]
    refine congrArg _ (List.filter_congr fun held hmem => ?_)
    simp only [Function.comp_apply]
    by_cases hflow : ((x.contents d.node held.packet.ptr).inFlow fl &&
      held.packet.pfc.isNone) = true
    · rw [← Bool.and_assoc, ← Bool.and_assoc, hflow, Bool.true_and, Bool.true_and]
      refine decide_eq_decide.mpr ⟨fun heq => ?_, fun heq => congrArg Prod.fst heq⟩
      rw [Bool.and_eq_true] at hflow
      -- a packet of the flow that left by the port was in the lane
      have hin : held.packet ∈ (x.switches d.node).lane held.slot :=
        List.mem_filter.mpr ⟨List.mem_append_left _ (List.mem_map_of_mem
          (List.mem_filter.mpr ⟨hmem, decide_eq_true rfl⟩)), hflow.2⟩
      obtain ⟨-, d', hmem', hslot⟩ :=
        h.lanes.received hsw (mem_ofFlow.mpr ⟨List.mem_map_of_mem hin, hflow.1⟩)
      exact Prod.ext heq (h.links.queue_of_entering hq hmem' hslot)
    · rw [← Bool.and_assoc, ← Bool.and_assoc, Bool.eq_false_iff.mpr hflow, Bool.false_and,
        Bool.false_and]
  rw [outgoing_switch hsw hport, packets_map_carry, SwitchNode.transmitted, hdequeued, laneContents,
    SwitchNode.lane, List.filter_append, List.map_append, ofFlow_append]
  exact List.prefix_append ..

/-! ## The order of a flow -/

/-- A node receives what it receives of a flow from one device. -/
theorem FlowInv.via_eq (tree : Tree net tg fl src) (h : FlowInv net tg lossless fl src x)
    (hmem : (d, p) ∈ x.received v) (hflow : p.inFlow fl = true) (hslot : slot ∈ entering net tg d) :
    ofFlow fl (via net tg slot (x.received v)) =
      ((x.received v).filter (·.2.inFlow fl)).map (·.2) := by
  rw [ofFlow, via, List.filter_map, List.filter_filter]
  refine congrArg _ (List.filter_congr fun a ha => ?_)
  simp only [Function.comp_apply, Bool.and_eq_left_iff_imp, decide_eq_true_eq]
  intro hin
  obtain ⟨e, he, hnode⟩ := h.links.source hmem
  obtain ⟨e', he', hnode'⟩ := h.links.source ha
  have hd := tree.one (h.carries ha hin) (h.carries hmem hflow) he' he (hnode'.trans hnode.symm)
  rwa [hd]

section
variable {R : List (NetPacket α) → List (NetPacket α) → Prop}

/-- The network as a relay of the packets of a flow. -/
def relay (hkeeps : KeepsOrder R) (hkept : ∀ {l l'}, Kept lossless l l' → R l l')
    (hpre : ∀ {l l' : List (NetPacket α)}, l <+: l' → R l l') (tree : Tree net tg fl src)
    (h : FlowInv net tg lossless fl src x) : Relay Nat Dev (NetPacket α) R where
  node := Dev.node
  rank := tree.rank
  source := src
  sent := ofFlow fl (x.sent src)
  out d := ofFlow fl (packets (x.outgoing net d))
  received v := (x.received v).filter (·.2.inFlow fl)
  keeps := hkeeps
  bound := tree.rank src
  falls := by
    intro v a ha
    obtain ⟨hmem, hflow⟩ := List.mem_filter.mp ha
    obtain ⟨e, he, rfl⟩ := h.links.source hmem
    exact tree.falls (h.carries hmem hflow) he
  rank_le := by
    intro v a ha
    obtain ⟨hmem, hflow⟩ := List.mem_filter.mp ha
    exact tree.rank_le (h.carries hmem hflow)
  one := by
    intro v a b ha hb
    obtain ⟨hmem, hflow⟩ := List.mem_filter.mp ha
    obtain ⟨hmem', hflow'⟩ := List.mem_filter.mp hb
    obtain ⟨e, he, hnode⟩ := h.links.source hmem
    obtain ⟨e', he', hnode'⟩ := h.links.source hmem'
    exact tree.one (h.carries hmem hflow) (h.carries hmem' hflow') he he' (hnode.trans hnode'.symm)
  link := by
    intro v d
    have hfilter : (((x.received v).filter (·.2.inFlow fl)).filter (·.1 = d)).map (·.2) =
        ofFlow fl (x.receivedFrom v d) := by
      simp only [ofFlow, receivedFrom, List.filter_map, List.filter_filter]
      refine congrArg _ (List.filter_congr fun a _ => ?_)
      exact Bool.and_comm ..
    rw [hfilter]
    by_cases hd : ∃ e, net.getPeerNetDevice d = some e ∧ e.node = v
    · obtain ⟨e, he, rfl⟩ := hd
      refine hkeeps.trans (hkept (h.links.link he)) (hpre ?_)
      exact ((List.take_prefix ..).filterMap _).filter _
    · have hnil : x.receivedFrom v d = [] := by
        refine List.map_eq_nil_iff.mpr (List.filter_eq_nil_iff.mpr fun a ha heq => hd ?_)
        obtain rfl : a.1 = d := by simpa using heq
        exact h.links.source ha
      rw [hnil]
      exact hkeeps.nil _
  relays := by
    intro d hd
    rcases List.eq_nil_or_concat (ofFlow fl (packets (x.outgoing net d))) with hnil | ⟨_, p, hp⟩
    · rw [hnil]
      exact hkeeps.nil _
    · have hp : p ∈ ofFlow fl (packets (x.outgoing net d)) := by simp [hp]
      cases hkind : net.isSwitchNode d.node with
      | true =>
        obtain ⟨port, qIndex', hport, hlane⟩ := mem_lane_of_outgoing hkind hp
        obtain ⟨hflow, d₀, hmem, hslot⟩ := h.lanes.received hkind hlane
        obtain ⟨qIndex, hq⟩ := tree.queue d.node
        have hqueue : qIndex' = qIndex := h.links.queue_of_entering hq hmem hslot
        subst hqueue
        refine hkeeps.trans (hpre (h.outgoing_prefix hq hkind hport)) ?_
        exact hkept (h.via_eq tree hmem hflow hslot ▸ h.lanes.order _ hkind)
      | false =>
        have hsource := h.eq_source tree.only hkind hp
        exact absurd (congrArg Dev.node hsource) hd
  sends := by
    intro d hd
    have hkind : net.isSwitchNode d.node = false := hd ▸ tree.host
    rw [packets_outgoing_host hkind, hd]
    split
    · exact hkept (.refl _)
    · exact hkeeps.nil _

end

/-- What a node has received of the flow is in the order in which it was sent. -/
theorem FlowInv.in_order (tree : Tree net tg fl src) (h : FlowInv net tg lossless fl src x)
    (v : Nat) :
    (ofFlow fl (x.receivedBy v)).Sublist (ofFlow fl (x.sent src)) ∧
      (lossless → ofFlow fl (x.receivedBy v) <+: ofFlow fl (x.sent src)) := by
  have hreceived : ((x.received v).filter (·.2.inFlow fl)).map (·.2) =
    ofFlow fl (x.receivedBy v) := by
    rw [receivedBy, ofFlow, List.filter_map]
    rfl
  rw [← hreceived]
  refine ⟨(relay keepsOrder_sublist (·.sublist) (·.sublist) tree h).in_order v, fun hlossless => ?_⟩
  exact (relay keepsOrder_prefix (fun hk => hk.eq hlossless ▸ List.prefix_rfl) id tree h).in_order v

/-- **The flows of a tree stay in order**, for the tables that the network starts with. -/
theorem in_order_of_tree {f : Fabric} {t : RoutingTables} (hch : HashesPorts fl.ch)
    (htree : ∀ x₀ : NetworkRun α, Initial f t x₀ →
      Nonempty (Tree f.net (flowTargets fl x₀) fl src)) (x : NetworkRun α) (v : Nat) :
    ((machine f t).Reachable x → (ofFlow fl (x.receivedBy v)).Sublist (ofFlow fl (x.sent src)) ∧
      ∀ a ∈ x.received v, a.2.inFlow fl = true → ∃ e, f.net.getPeerNetDevice a.1 = some e ∧
        e.node = v ∧ ∃ x₀ : NetworkRun α, Initial f t x₀ ∧
          Carries f.net (flowTargets fl x₀) src a.1) ∧
    (((machine f t).restrict (Keeps f.net fl)).Reachable x →
      ofFlow fl (x.receivedBy v) <+: ofFlow fl (x.sent src)) := by
  constructor
  · rintro ⟨x₀, events, h0, hrun⟩
    obtain ⟨tree⟩ := htree x₀ h0
    have hinv : FlowInv f.net (flowTargets fl x₀) False fl src x :=
      hrun.preserves (fun h hst => h.step tree.only hch tree.nodup hst False.elim)
        (Initial.flowInv h0)
    refine ⟨(hinv.in_order tree v).1, fun a ha hflow => ?_⟩
    obtain ⟨e, he, hnode⟩ := hinv.links.source ha
    exact ⟨e, he, hnode, x₀, h0, hinv.carries ha hflow⟩
  · rintro ⟨x₀, events, h0, hrun⟩
    obtain ⟨tree⟩ := htree x₀ h0
    have hstep : ∀ {y ev} {z : NetworkRun α}, FlowInv f.net (flowTargets fl x₀) True fl src y →
        ((machine f t).restrict (Keeps f.net fl)).step y ev z →
        FlowInv f.net (flowTargets fl x₀) True fl src z :=
      fun h hst => h.step tree.only hch tree.nodup hst.2 fun _ => hst.1
    exact ((hrun.preserves hstep (Initial.flowInv h0)).in_order tree v).2 trivial

/-! ## Unicast -/

section Unicast

variable {top : RdmaTopology} {f : Fabric} {t : RoutingTables} {ch : CustomHeader} {dst : Nat}
  {x₀ : NetworkRun α}

/-- A switch puts a unicast packet out by a port of its table. -/
theorem Initial.unicast (h : Initial f t x₀)
    (hslot : slot ∈ (x₀.switches v).targets ch junk false port)
    (hi : SwitchNode.toPort i = some slot.1) (hsw : f.net.isSwitchNode v = true) :
    (x₀.switches v).outDev ch junk = some i ∧ i ∈ t.ports f.net v ch.dip := by
  obtain ⟨j, hj, hport, -⟩ := SwitchNode.mem_targets.mp hslot
  obtain rfl := SwitchNode.toPort_inj hport hi
  have hout : (x₀.switches v).outDev ch junk = some j := Option.mem_toList.mp hj
  obtain ⟨nexthops, hnexthops, hpick⟩ := Option.bind_eq_some_iff.mp hout
  refine ⟨hout, ?_⟩
  rw [h.rtTable] at hnexthops
  rw [RoutingTables.ports, if_pos hsw, hnexthops]
  exact List.mem_of_getElem? hpick

end Unicast

end NetworkRun

namespace RdmaTopology

variable {top : RdmaTopology} {net : Network}

/-- A server has only the device 1. -/
theorem Simple.server_iface (hs : top.Simple) (hw : net.Wired top.links) (hv : v < top.nodes.length)
    (hsw : top.isSwitch v = false) (he : net.getPeerNetDevice ⟨v, i⟩ = some e) : i = 1 := by
  obtain ⟨-, dev, hdev, -⟩ := Network.getPeerNetDevice_eq_some.mp he
  have hlen : 0 < (net.devices v).length :=
    Nat.zero_lt_of_lt (List.getElem?_eq_some_iff.mp hdev).1
  have hfirst : net.getPeerNetDevice ⟨v, 1⟩ = some (net.devices v)[0].peer :=
    Network.getPeerNetDevice_eq_some.mpr ⟨Nat.one_ne_zero, _, List.getElem?_eq_getElem hlen, rfl⟩
  obtain ⟨u, hlink, honly⟩ := hs.server v hv hsw
  have hi : e.node = u := honly _ (hw.linkCount_pos he)
  have hone : (net.devices v)[0].peer.node = u := honly _ (hw.linkCount_pos hfirst)
  have hfirst : net.getPeerNetDevice ⟨v, 1⟩ = some ⟨e.node, (net.devices v)[0].peer.iface⟩ := by
    rw [hfirst, hi, ← hone]
  exact hw.port_unique (hs.link v e.node) he hfirst

end RdmaTopology

namespace NetworkRun

section Unicast

variable {α : Type u} {top : RdmaTopology} {f : Fabric} {t : RoutingTables} {ch : CustomHeader}
  {src dst : Nat} {x₀ : NetworkRun α} {d d' e : Dev} (hf : top.Forwards f.net t)
  (hlen : f.net.kinds.length = top.nodes.length) (hsrc : src < top.nodes.length)
  (hsrcsw : top.isSwitch src = false) (hdst : dst < top.nodes.length)
  (hdstsw : top.isSwitch dst = false) (hdip : ch.dip = Network.getNodeIp dst)
  (hfirst : 1 ∈ t.ports f.net src ch.dip) (h0 : Initial f t x₀)
include hf hlen hsrc hdst hdstsw hdip hfirst h0

/-- The devices of a unicast flow lead closer to the destination. -/
theorem carries_closer (h : Carries f.net (flowTargets ⟨ch, false⟩ x₀) src d) :
    ∃ e, f.net.getPeerNetDevice d = some e ∧
      top.graph.dist d.node dst = top.graph.dist e.node dst + 1 := by
  have hports : ∀ v < top.nodes.length, ∀ port ∈ t.ports f.net v ch.dip,
      ∃ e, f.net.getPeerNetDevice ⟨v, port⟩ = some e ∧
        top.graph.dist v dst = top.graph.dist e.node dst + 1 := by
    intro v hv port hport
    rw [hdip] at hport
    exact ((hf.ports v hv dst hdst hdstsw).2 port).mp hport
  cases h with
  | source => exact hports src hsrc 1 hfirst
  | @onward d e slot i _ he hsw hslot hi =>
    obtain ⟨port, -, hslot⟩ := lanes_of_entering hslot he
    exact hports _ (hlen ▸ Network.isSwitchNode_lt hsw) i (h0.unicast hslot hi hsw).2

/-- At each distance from the destination there is one device of the flow. -/
theorem carries_unique (h : Carries f.net (flowTargets ⟨ch, false⟩ x₀) src d)
    (h' : Carries f.net (flowTargets ⟨ch, false⟩ x₀) src d')
    (hdist : top.graph.dist d.node dst = top.graph.dist d'.node dst) : d = d' := by
  have hle : ∀ {d}, Carries f.net (flowTargets ⟨ch, false⟩ x₀) src d →
      top.graph.dist d.node dst ≤ top.graph.dist src dst := by
    intro d hd
    induction hd with
    | source => exact Nat.le_refl _
    | onward hd he _ _ _ ih =>
      obtain ⟨e', he', hcloser⟩ := carries_closer hf hlen hsrc hdst hdstsw hdip hfirst h0 hd
      obtain rfl := Option.some.inj (he.symm.trans he')
      exact (Nat.le_of_succ_le hcloser.ge).trans ih
  have hbelow : ∀ {d e}, Carries f.net (flowTargets ⟨ch, false⟩ x₀) src d →
      f.net.getPeerNetDevice d = some e →
      top.graph.dist d.node dst = top.graph.dist e.node dst + 1 := by
    intro d e hd he
    obtain ⟨e', he', hcloser⟩ := carries_closer hf hlen hsrc hdst hdstsw hdip hfirst h0 hd
    obtain rfl := Option.some.inj (he.symm.trans he')
    exact hcloser
  induction h generalizing d' with
  | source =>
    cases h' with
    | source => rfl
    | onward hd he _ _ _ =>
      have := hle hd
      have := hbelow hd he
      dsimp only at hdist
      omega
  | @onward d e slot i hd he hsw hslot hi ih =>
    cases h' with
    | source =>
      have := hle hd
      have := hbelow hd he
      dsimp only at hdist
      omega
    | @onward d' e' slot' i' hd' he' hsw' hslot' hi' =>
      have hprev : d = d' := by
        refine ih hd' ?_
        rw [hbelow hd he, hbelow hd' he']
        exact congrArg (· + 1) hdist
      subst hprev
      obtain rfl := Option.some.inj (he.symm.trans he')
      obtain ⟨port, -, hslot⟩ := lanes_of_entering hslot he
      obtain ⟨port', -, hslot'⟩ := lanes_of_entering hslot' he
      have hout := (h0.unicast hslot hi hsw).1
      rw [(h0.unicast hslot' hi' hsw).1, Option.some.injEq] at hout
      rw [hout]

/-- The way of a unicast flow. -/
noncomputable def unicastTree (hips : top.DistinctIps) (hsrcsw : top.isSwitch src = false)
    (hsip : ch.sip = Network.getNodeIp src) :
    Tree f.net (flowTargets ⟨ch, false⟩ x₀) ⟨ch, false⟩ src where
  host := hf.kind src ▸ hsrcsw
  only v hv hsw hip := hips v (hlen ▸ hv) src hsrc (hf.kind v ▸ hsw) hsrcsw (hip.trans hsip)
  nodup v port := SwitchNode.nodup_targets (fun h => absurd h Bool.false_ne_true) 0 port
  queue v := SwitchNode.targets_queue ..
  rank v := top.graph.dist v dst
  falls := by
    intro d e hd he
    obtain ⟨e', he', hcloser⟩ := carries_closer hf hlen hsrc hdst hdstsw hdip hfirst h0 hd
    obtain rfl := Option.some.inj (he.symm.trans he')
    omega
  one := by
    intro d d' e e' hd hd' he he' hnode
    obtain ⟨a, ha, hcloser⟩ := carries_closer hf hlen hsrc hdst hdstsw hdip hfirst h0 hd
    obtain ⟨a', ha', hcloser'⟩ := carries_closer hf hlen hsrc hdst hdstsw hdip hfirst h0 hd'
    obtain rfl := Option.some.inj (he.symm.trans ha)
    obtain rfl := Option.some.inj (he'.symm.trans ha')
    refine carries_unique hf hlen hsrc hdst hdstsw hdip hfirst h0 hd hd' ?_
    rw [hcloser, hcloser', hnode]

end Unicast

end NetworkRun

/-- A flow whose way from the host `src` is a tree, whatever the buffers are. -/
structure NetworkRun.Ordered (α : Type u) (f : Fabric) (t : RoutingTables) (fl : PacketFlow)
    (src : Nat) : Prop where
  hashes : HashesPorts fl.ch
  tree : ∀ x₀ : NetworkRun α, Initial f t x₀ → Nonempty (Tree f.net (flowTargets fl x₀) fl src)

/-- The unicast flows between two servers. -/
theorem RdmaTopology.Simple.ordered (α : Type u) {top : RdmaTopology} (hs : top.Simple)
    (hconn : top.Connected) (hips : top.DistinctIps) (ord : PtrOrder) (mtu : Nat) :
    ∃ net t, top.createNetwork = some net ∧ net.buildRoutes ord mtu = some t ∧
      ∀ f : Fabric, f.net = net →
      ∀ src < top.nodes.length, top.isSwitch src = false →
      ∀ dst < top.nodes.length, top.isSwitch dst = false → src ≠ dst →
      ∀ ch, NetworkRun.HashesPorts ch → ch.sip = Network.getNodeIp src →
        ch.dip = Network.getNodeIp dst → NetworkRun.Ordered α f t ⟨ch, false⟩ src := by
  obtain ⟨net, t, hnet, hroutes, hf⟩ := hs.forwards hconn hips ord mtu
  obtain ⟨net', hnet', hw, hk⟩ := hs.createNetwork
  obtain rfl := Option.some.inj (hnet.symm.trans hnet')
  have hlen := RdmaTopology.length_kinds hk
  refine ⟨net, t, hnet, hroutes, ?_⟩
  rintro f rfl src hsrc hsrcsw dst hdst hdstsw hne ch hch hsip hdip
  -- the port of the source for the destination is its only one
  have hfirst : 1 ∈ t.ports f.net src ch.dip := by
    obtain ⟨u, hadj, hdist⟩ := exists_nearer (hconn src hsrc dst hdst) hne
    obtain ⟨i, j, hi⟩ := hf.port hadj
    obtain rfl := hs.server_iface hw hsrc hsrcsw hi
    rw [hdip]
    exact ((hf.ports src hsrc dst hdst hdstsw).2 1).mpr ⟨_, hi, hdist⟩
  exact ⟨hch, fun x₀ h0 =>
    ⟨NetworkRun.unicastTree hf hlen hsrc hdst hdstsw hdip hfirst h0 hips hsrcsw hsip⟩⟩

/-- **The network keeps the order of every flow.** On a simple connected topology whose servers have
one link each, every node receives the unicast packets of one header (UDP, ACK or NACK, of which the
switches hash the ports) in the order in which the server with its source address sent them,
whatever the other flows do, which packets are lost and how the events interleave. If no packet of
the flow is lost, then none is missing in between. -/
theorem flow_in_order {α : Type u} {top : RdmaTopology} (hs : top.Simple) (hconn : top.Connected)
    (hips : top.DistinctIps) (ord : PtrOrder) (mtu : Nat) :
    ∃ net t, top.createNetwork = some net ∧ net.buildRoutes ord mtu = some t ∧
      ∀ f : Fabric, f.net = net →
      ∀ src < top.nodes.length, top.isSwitch src = false →
      ∀ dst < top.nodes.length, top.isSwitch dst = false → src ≠ dst →
      ∀ ch, NetworkRun.HashesPorts ch → ch.sip = Network.getNodeIp src →
        ch.dip = Network.getNodeIp dst → ∀ (x : NetworkRun α) (v : Nat),
        ((NetworkRun.machine f t).Reachable x →
          (NetworkRun.ofFlow ⟨ch, false⟩ (x.receivedBy v)).Sublist
            (NetworkRun.ofFlow ⟨ch, false⟩ (x.sent src))) ∧
        (((NetworkRun.machine f t).restrict (NetworkRun.Keeps net ⟨ch, false⟩)).Reachable x →
          NetworkRun.ofFlow ⟨ch, false⟩ (x.receivedBy v) <+:
            NetworkRun.ofFlow ⟨ch, false⟩ (x.sent src)) := by
  obtain ⟨net, t, hnet, hroutes, hordered⟩ := hs.ordered α hconn hips ord mtu
  refine ⟨net, t, hnet, hroutes, ?_⟩
  rintro f rfl src hsrc hsrcsw dst hdst hdstsw hne ch hch hsip hdip x v
  have h := hordered f rfl src hsrc hsrcsw dst hdst hdstsw hne ch hch hsip hdip
  obtain ⟨hsublist, hlossless⟩ := NetworkRun.in_order_of_tree h.hashes h.tree x v
  exact ⟨fun hx => (hsublist hx).1, hlossless⟩

/-- The diamond with its tables, without groups. -/
def diamondFabric : Option (Fabric × RoutingTables) := do
  let net ← diamond.createNetwork
  let t ← net.buildRoutes .byNode 1000
  return (⟨net, fun _ => [], {}, fun _ => 1⟩, t)

/-- What holds of the network of the diamond and of its routes holds of this one. -/
theorem diamondFabric_spec {P : Network → RoutingTables → Prop}
    (h : diamondFabric = some (f, t))
    (hP : ∃ net t, diamond.createNetwork = some net ∧ net.buildRoutes .byNode 1000 = some t ∧
      P net t) :
    diamond.createNetwork = some f.net ∧ f.net.buildRoutes .byNode 1000 = some t ∧ P f.net t := by
  simp only [diamondFabric, Option.bind_eq_bind, Option.bind_eq_some_iff] at h
  obtain ⟨net, hnet, t', hroutes, h⟩ := h
  cases h
  obtain ⟨net', t', hnet', hroutes', hP⟩ := hP
  obtain rfl := Option.some.inj (hnet.symm.trans hnet')
  obtain rfl := Option.some.inj (hroutes.symm.trans hroutes')
  exact ⟨hnet, hroutes, hP⟩

/-- A packet from the server 0 of the diamond to the server 1. -/
def diamondPacket (body : Nat) : NetPacket Nat where
  ch := {
    sip := Network.getNodeIp 0, dip := Network.getNodeIp 1, sport := 5, dport := 6, pg := 3 }
  size := 1000
  multicast := false
  body

/-- The second of three packets is lost on its first link, and the others cross the diamond. -/
def diamondRun (f : Fabric) (t : RoutingTables) : Option (NetworkRun Nat) :=
  [.send 0 (diamondPacket 1), .send 0 (diamondPacket 2), .send 0 (diamondPacket 3),
    .arrive ⟨0, 1⟩ false 0, .arrive ⟨0, 1⟩ true 0, .arrive ⟨0, 1⟩ false 0, .arrive ⟨2, 3⟩ false 0,
    .transmitComplete 2 3, .arrive ⟨2, 3⟩ false 0, .arrive ⟨5, 2⟩ false 0, .transmitComplete 5 2,
    .arrive ⟨5, 2⟩ false 0, .arrive ⟨3, 3⟩ false 0, .transmitComplete 3 3,
    .arrive ⟨3, 3⟩ false 0].foldlM (NetworkRun.handle f.net 5)
      (NetworkRun.start f t (diamondPacket 0))

theorem flow_in_order_diamond : ∃ (f : Fabric) (t : RoutingTables) (x : NetworkRun Nat),
    diamond.createNetwork = some f.net ∧
    f.net.buildRoutes .byNode 1000 = some t ∧
    (NetworkRun.machine f t).Reachable x ∧
    (x.sent 0).map (·.body) = [1, 2, 3] ∧ (x.receivedBy 1).map (·.body) = [1, 3] ∧
    (NetworkRun.ofFlow ⟨(diamondPacket 0).ch, false⟩ (x.receivedBy 1)).Sublist
      (NetworkRun.ofFlow ⟨(diamondPacket 0).ch, false⟩ (x.sent 0)) := by
  have hrun : (diamondFabric.bind fun (f, t) => diamondRun f t).any (fun x =>
      (x.sent 0).map (·.body) = [1, 2, 3] ∧ (x.receivedBy 1).map (·.body) = [1, 3]) = true := by
    decide +kernel
  obtain ⟨x, hx, hrun⟩ := (Option.any_eq_true ..).mp hrun
  obtain ⟨hsent, hreceived⟩ := of_decide_eq_true hrun
  obtain ⟨⟨f, t⟩, hf, hx⟩ := Option.bind_eq_some_iff.mp hx
  obtain ⟨hnet, hroutes, h⟩ := diamondFabric_spec hf (flow_in_order diamond_simple diamond_connected
    (RdmaTopology.distinctIps_of_length_le (by decide)) .byNode 1000)
  have hstart : (NetworkRun.machine f t).Reachable (NetworkRun.start f t (diamondPacket 0)) :=
    .init (NetworkRun.initial_start f t _)
  have hreach := hstart.of_foldlM (fun h => ⟨_, NetworkRun.step_of_handle h⟩) hx
  exact ⟨f, t, x, hnet, hroutes, hreach, hsent, hreceived,
    (h f rfl 0 (by decide) rfl 1 (by decide) rfl (by decide) _ (.inl rfl) rfl rfl x 1).1 hreach⟩

end Roce
