import Roce.Lib.Relay
import Roce.Network.Multicast
import Roce.Network.PfcLink
import Roce.Switch.Lanes

/-! # The network at run time

All switches of a network, and the links between the devices. A link delivers what its device
transmits in this order, except for what the error model takes away. The hosts send what they like
by their only device. -/

namespace Roce

open Function

/-- A packet, with the fields that a switch reads. The `body` is what it does not read. -/
structure NetPacket (α : Type u) where
  ch : CustomHeader
  size : Nat
  multicast : Bool
  body : α
  deriving DecidableEq

/-- The packets with one header. -/
structure PacketFlow where
  ch : CustomHeader
  multicast : Bool := false

def NetPacket.inFlow {α : Type u} (fl : PacketFlow) (p : NetPacket α) : Bool :=
  p.ch = fl.ch ∧ p.multicast = fl.multicast

/-- What a device transmits. -/
inductive Transmission (α : Type u) where
  | packet (p : NetPacket α)
  | pfc (frame : PauseHeader)

namespace Transmission

variable {α : Type u}

def packet? : Transmission α → Option (NetPacket α)
  | packet p => some p
  | pfc _ => none

/-- What arrives at a switch. -/
def arrival (junk : UInt32) : Transmission α → Arrival
  | packet p => { ch := p.ch, size := p.size, multicast := p.multicast, junk }
  | pfc frame => { ch := { l3Prot := 0xFE }, size := 31, pfc := frame, junk }

end Transmission

/-- The switches and the links. `contents` has the packets that the pointers of a switch stand for,
`sent` what a host has transmitted, `left` how many transmissions of a device have left the link,
and `received` what a node has received and from which device. -/
structure NetworkRun (α : Type u) where
  switches : Nat → SwitchNode
  contents : Nat → Nat → NetPacket α
  sent : Nat → List (NetPacket α) := fun _ => []
  left : Dev → Nat := fun _ => 0
  received : Nat → List (Dev × NetPacket α) := fun _ => []

inductive NetworkEvent (α : Type u) where
  | send (host : Nat) (p : NetPacket α)
  | arrive (d : Dev) (corrupt : Bool) (junk : UInt32)
  | transmitComplete (sw : Nat) (port : Port)

namespace NetworkRun

variable {α : Type u} (net : Network)

/-- A packet in the queues of a switch, as it is transmitted. -/
def carry (x : NetworkRun α) (v : Nat) (p : SwitchPacket) : Transmission α :=
  match p.pfc with
  | some frame => .pfc frame
  | none => .packet (x.contents v p.ptr)

/-- What a device has transmitted so far. A host has the device 1 only. -/
def outgoing (x : NetworkRun α) (d : Dev) : List (Transmission α) :=
  if net.isSwitchNode d.node then
    (SwitchNode.toPort d.iface).elim [] fun port =>
      ((x.switches d.node).transmitted port).map (x.carry d.node)
  else if d.iface = 1 then (x.sent d.node).map .packet
  else []

/-- The transmission that leaves the link next. -/
def next (x : NetworkRun α) (d : Dev) : Option (Transmission α) := (x.outgoing net d)[x.left d]?

/-- A transmission leaves the link. -/
def leave (x : NetworkRun α) (d : Dev) : NetworkRun α :=
  { x with left := update x.left d (x.left d + 1) }

/-- A node has received a transmission. -/
def receiveAt (x : NetworkRun α) (d : Dev) (v : Nat) (tr : Transmission α) : NetworkRun α :=
  { x.leave d with
    received := update x.received v (x.received v ++ tr.packet?.toList.map fun p => (d, p)) }

/-- The new pointers of a switch stand for the packet that it is processing. -/
def learn (x : NetworkRun α) (v : Nat) (tr : Transmission α) : Nat → Nat → NetPacket α :=
  match tr with
  | .pfc _ => x.contents
  | .packet p => update x.contents v fun ptr =>
    if ptr < (x.switches v).nextPtr then x.contents v ptr else p

inductive Step : NetworkRun α → NetworkEvent α → NetworkRun α → Prop
  /-- A host sends with its own address. -/
  | send : host < net.kinds.length → net.isSwitchNode host = false →
    p.ch.sip = Network.getNodeIp host →
    Step x (.send host p) { x with sent := update x.sent host (x.sent host ++ [p]) }
  | lose : x.next net d = some tr → Step x (.arrive d true junk) (x.leave d)
  | deliver : x.next net d = some tr → net.getPeerNetDevice d = some e →
    net.isSwitchNode e.node = false →
    Step x (.arrive d false junk) (x.receiveAt d e.node tr)
  | forward : x.next net d = some tr → net.getPeerNetDevice d = some e →
    net.isSwitchNode e.node = true → SwitchNode.toPort e.iface = some port →
    SwitchNode.receive (SwitchNode.dequeueAndTransmit fuel) port (tr.arrival junk)
      (x.switches e.node) = some s →
    Step x (.arrive d false junk)
      { x.receiveAt d e.node tr with
        switches := update x.switches e.node s
        contents := x.learn e.node tr }
  | transmitComplete : net.isSwitchNode v = true →
    SwitchNode.transmitComplete (SwitchNode.dequeueAndTransmit fuel) port (x.switches v) = some s →
    Step x (.transmitComplete v port) { x with switches := update x.switches v s }

/-- A network before the first packet, with the tables, the groups and the uplinks that were
built. -/
structure Initial (f : Fabric) (t : RoutingTables) (x : NetworkRun α) : Prop where
  idle : ∀ v, (x.switches v).Idle
  rtTable : ∀ v, (x.switches v).rtTable = t.switch v
  ogroups : ∀ v dip, ((x.switches v).ogroups dip).getD [] = (f.groups.ogroups v dip.toNat).keys
  uplink : ∀ v, (x.switches v).uplink = f.uplink v
  ecmpSeed : ∀ v, (x.switches v).ecmpSeed = f.ecmpSeed v
  sent : ∀ v, x.sent v = []
  left : ∀ d, x.left d = 0
  received : ∀ v, x.received v = []

def machine (f : Fabric) (t : RoutingTables) : Machine (NetworkRun α) (NetworkEvent α) :=
  ⟨Initial f t, Step f.net⟩

/-- The start with the default buffers. The contents of the pointers do not matter yet. -/
def start (f : Fabric) (t : RoutingTables) (p : NetPacket α) : NetworkRun α where
  switches v :=
    { mmu := { toMmuConfig := {} }
      rtTable := t.switch v
      ogroups := fun dip => some (f.groups.ogroups v dip.toNat).keys
      uplink := f.uplink v
      ecmpSeed := f.ecmpSeed v }
  contents _ _ := p

theorem initial_start (f : Fabric) (t : RoutingTables) (p : NetPacket α) :
    Initial f t (start f t p) where
  idle _ := ⟨⟨_, rfl⟩, fun _ _ => rfl, fun _ => rfl, fun _ _ => rfl, fun _ => rfl, rfl, rfl,
    rfl, rfl⟩
  rtTable _ := rfl
  ogroups _ _ := rfl
  uplink _ := rfl
  ecmpSeed _ := rfl
  sent _ := rfl
  left _ := rfl
  received _ := rfl

/-- The step of an event, computed. -/
def handle (fuel : Nat) (x : NetworkRun α) : NetworkEvent α → Option (NetworkRun α)
  | .send host p =>
    if host < net.kinds.length ∧ net.isSwitchNode host = false ∧
        p.ch.sip = Network.getNodeIp host then
      some { x with sent := update x.sent host (x.sent host ++ [p]) }
    else none
  | .arrive d true _ => (x.next net d).map fun _ => x.leave d
  | .arrive d false junk =>
    (x.next net d).bind fun tr => (net.getPeerNetDevice d).bind fun e =>
      if net.isSwitchNode e.node then
        (SwitchNode.toPort e.iface).bind fun port =>
          (SwitchNode.receive (SwitchNode.dequeueAndTransmit fuel) port (tr.arrival junk)
            (x.switches e.node)).map fun s =>
              { x.receiveAt d e.node tr with
                switches := update x.switches e.node s
                contents := x.learn e.node tr }
      else some (x.receiveAt d e.node tr)
  | .transmitComplete v port =>
    if net.isSwitchNode v then
      (SwitchNode.transmitComplete (SwitchNode.dequeueAndTransmit fuel) port (x.switches v)).map
        fun s => { x with switches := update x.switches v s }
    else none

theorem step_of_handle {net : Network} {x y : NetworkRun α} (h : handle net fuel x e = some y) :
    Step net x e y := by
  cases e with
  | send host p =>
    obtain ⟨⟨hlt, hhost, hsip⟩, h⟩ := Option.ite_none_right_eq_some.mp h
    cases h
    exact .send hlt hhost hsip
  | arrive d corrupt junk =>
    cases corrupt with
    | true =>
      obtain ⟨tr, hnext, rfl⟩ := Option.map_eq_some_iff.mp h
      exact .lose hnext
    | false =>
      obtain ⟨tr, hnext, h⟩ := Option.bind_eq_some_iff.mp h
      obtain ⟨e, he, h⟩ := Option.bind_eq_some_iff.mp h
      split at h
      next hsw =>
        obtain ⟨port, hport, h⟩ := Option.bind_eq_some_iff.mp h
        obtain ⟨s, hs, rfl⟩ := Option.map_eq_some_iff.mp h
        exact .forward hnext he hsw hport hs
      next hsw =>
        cases h
        exact .deliver hnext he (Bool.not_eq_true _ ▸ hsw)
  | transmitComplete v port =>
    obtain ⟨hsw, h⟩ := Option.ite_none_right_eq_some.mp h
    obtain ⟨s, hs, rfl⟩ := Option.map_eq_some_iff.mp h
    exact .transmitComplete hsw hs

/-! ## Flows -/

/-- The packets of a flow. -/
def ofFlow (fl : PacketFlow) (l : List (NetPacket α)) : List (NetPacket α) :=
  l.filter (·.inFlow fl)

/-- What the packets of a lane stand for. -/
def laneContents (x : NetworkRun α) (v : Nat) (slot : Slot) : List (NetPacket α) :=
  ((x.switches v).lane slot).map fun p => x.contents v p.ptr

/-- The packets that a node has received, and those from one device. -/
def receivedBy (x : NetworkRun α) (v : Nat) : List (NetPacket α) := (x.received v).map (·.2)

def receivedFrom (x : NetworkRun α) (v : Nat) (d : Dev) : List (NetPacket α) :=
  ((x.received v).filter (·.1 = d)).map (·.2)

/-- The lanes that a packet of a flow joins when it comes from a device. -/
def entering (tg : Nat → Port → List Slot) (d : Dev) : List Slot :=
  ((net.getPeerNetDevice d).bind fun e => (SwitchNode.toPort e.iface).map (tg e.node)).getD []

/-- The packets of the list that come from devices that lead to the lane. -/
def via (tg : Nat → Port → List Slot) (slot : Slot) (l : List (Dev × NetPacket α)) :
    List (NetPacket α) :=
  (l.filter fun a => slot ∈ entering net tg a.1).map (·.2)

/-- The packets among the transmissions. -/
def packets (l : List (Transmission α)) : List (NetPacket α) := l.filterMap (·.packet?)

/-- No packet of the flow is lost in this event: the error model does not take it, and a switch that
receives it takes it into all lanes that it has to join. -/
def Keeps (fl : PacketFlow) (x : NetworkRun α) : NetworkEvent α → Prop
  | .arrive d corrupt junk => ∀ p, x.next net d = some (.packet p) → p.inFlow fl → corrupt = false ∧
      ∀ e port fuel s, net.getPeerNetDevice d = some e → net.isSwitchNode e.node = true →
        SwitchNode.toPort e.iface = some port →
        SwitchNode.receive (SwitchNode.dequeueAndTransmit fuel) port
          (Transmission.arrival junk (.packet p)) (x.switches e.node) = some s →
        ∀ slot ∈ (x.switches e.node).targets p.ch junk p.multicast port,
          s.lane slot ≠ (x.switches e.node).lane slot
  | _ => True

/-- `Keeps` of a step, computed. -/
def keeps (fl : PacketFlow) (x y : NetworkRun α) : NetworkEvent α → Bool
  | .arrive d corrupt junk =>
    match x.next net d with
    | some (.packet p) => !p.inFlow fl || !corrupt && (net.getPeerNetDevice d).all fun e =>
      (SwitchNode.toPort e.iface).all fun port => !net.isSwitchNode e.node ||
        ((x.switches e.node).targets p.ch junk p.multicast port).all fun slot =>
          ((y.switches e.node).lane slot).length ≠ ((x.switches e.node).lane slot).length
    | _ => true
  | _ => true

theorem keeps_of_step {net : Network} {x y : NetworkRun α} (h : Step net x e y)
    (hk : keeps net fl x y e = true) : Keeps net fl x e := by
  cases e with
  | send => trivial
  | transmitComplete => trivial
  | arrive d corrupt junk =>
    intro p hnext hp
    simp only [keeps, hnext, hp, Bool.not_true, Bool.false_or, Bool.and_eq_true,
      Bool.not_eq_true', Option.all_eq_true, Bool.or_eq_true] at hk
    obtain ⟨rfl, hk⟩ := hk
    refine ⟨rfl, fun e port fuel s he hsw hport hs slot hslot hsame => ?_⟩
    have hne := ((hk e he port hport).resolve_left (by rw [hsw]; exact Bool.noConfusion))
    have hne := of_decide_eq_true (List.all_eq_true.mp hne slot hslot)
    -- the state of the switch does not depend on the fuel
    cases h with
    | deliver hnext' he' hsw' =>
      cases he.symm.trans he'
      cases hsw.symm.trans hsw'
    | forward hnext' he' _ hport' hs' =>
      cases he.symm.trans he'
      cases hport.symm.trans hport'
      cases hnext.symm.trans hnext'
      have heq := SwitchNode.onEvent_unique (e := .receive port _) hs' hs
      dsimp only at hne
      rw [update_self, heq, hsame] at hne
      exact hne rfl

end NetworkRun

/-! ## Kept orders -/

/-- The order is kept, and if `lossless` then nothing is missing. -/
structure Kept (lossless : Prop) (l l' : List β) : Prop where
  sublist : l.Sublist l'
  eq : lossless → l = l'

namespace Kept

variable {lossless : Prop} {l l' m m' : List β}

theorem refl (l : List β) : Kept lossless l l := ⟨.refl l, fun _ => rfl⟩

theorem append (h : Kept lossless l l') (h' : Kept lossless m m') :
    Kept lossless (l ++ m) (l' ++ m') :=
  ⟨h.sublist.append h'.sublist, fun hl => by rw [h.eq hl, h'.eq hl]⟩

/-- A loss. -/
theorem lose (h : Kept lossless l l') (hm : lossless → m = []) : Kept lossless l (l' ++ m) :=
  ⟨h.sublist.trans (List.sublist_append_left l' m),
    fun hl => by rw [hm hl, List.append_nil]; exact h.eq hl⟩

end Kept

namespace NetworkRun

variable {α : Type u} {net : Network} {x y : NetworkRun α} {fl : PacketFlow} {lossless : Prop}
  {d e : Dev} {tr : Transmission α} {tg : Nat → Port → List Slot}

theorem ofFlow_append (fl : PacketFlow) (l l' : List (NetPacket α)) :
    ofFlow fl (l ++ l') = ofFlow fl l ++ ofFlow fl l' := List.filter_append ..

theorem packets_append (l l' : List (Transmission α)) :
    packets (l ++ l') = packets l ++ packets l' := List.filterMap_append ..

theorem mem_ofFlow {l : List (NetPacket α)} : p ∈ ofFlow fl l ↔ p ∈ l ∧ p.inFlow fl = true :=
  List.mem_filter

/-! ## The links -/

/-- A node received from a device what this device transmitted. -/
structure Links (net : Network) (lossless : Prop) (fl : PacketFlow) (x : NetworkRun α) : Prop where
  left_le : ∀ d, x.left d ≤ (x.outgoing net d).length
  source : ∀ {v d p}, (d, p) ∈ x.received v → ∃ e, net.getPeerNetDevice d = some e ∧ e.node = v
  link : ∀ {d e}, net.getPeerNetDevice d = some e → Kept lossless
    (ofFlow fl (x.receivedFrom e.node d))
    (ofFlow fl (packets ((x.outgoing net d).take (x.left d))))

/-- The devices transmit more. -/
theorem Links.grow (h : Links net lossless fl x)
    (hout : ∀ d, x.outgoing net d <+: y.outgoing net d) (hleft : y.left = x.left)
    (hreceived : y.received = x.received) : Links net lossless fl y := by
  have htake : ∀ d, (y.outgoing net d).take (y.left d) = (x.outgoing net d).take (x.left d) := by
    intro d
    obtain ⟨l, hl⟩ := hout d
    rw [hleft, ← hl, List.take_append_of_le_length (h.left_le d)]
  constructor
  case left_le =>
    intro d
    rw [hleft]
    exact (h.left_le d).trans (hout d).length_le
  case source =>
    intro v d p hp
    exact h.source (hreceived ▸ hp)
  case link =>
    intro d e he
    rw [htake, receivedFrom, hreceived]
    exact h.link he

theorem take_next (hnext : x.next net d = some tr) :
    (x.outgoing net d).take (x.left d + 1) = (x.outgoing net d).take (x.left d) ++ [tr] := by
  rw [List.take_add_one, ← next, hnext]
  rfl

theorem left_lt (hnext : x.next net d = some tr) : x.left d < (x.outgoing net d).length :=
  (List.getElem?_eq_some_iff.mp hnext).1

/-- A transmission leaves its link, and is received or lost. -/
theorem Links.leave (h : Links net lossless fl x) (hnext : x.next net d = some tr)
    (hout : ∀ d, x.outgoing net d <+: y.outgoing net d)
    (hleft : y.left = update x.left d (x.left d + 1)) (new : List (NetPacket α))
    (hsource : ∀ v, y.received v ≠ x.received v → ∃ e, net.getPeerNetDevice d = some e ∧ e.node = v)
    (hreceived : ∀ e, net.getPeerNetDevice d = some e →
      y.received e.node = x.received e.node ++ new.map fun p => (d, p))
    (hnew : Kept lossless (ofFlow fl new) (ofFlow fl (packets [tr]))) :
    Links net lossless fl y := by
  have hother : ∀ e, e ≠ d → ∀ v, y.receivedFrom v e = x.receivedFrom v e := by
    intro e he v
    by_cases hv : y.received v = x.received v
    · rw [receivedFrom, receivedFrom, hv]
    · obtain ⟨f, hf, rfl⟩ := hsource v hv
      have hnil : (new.map fun p => (d, p)).filter (fun a => decide (a.1 = e)) = [] := by
        refine List.filter_eq_nil_iff.mpr fun a ha => ?_
        obtain ⟨p, -, rfl⟩ := List.mem_map.mp ha
        simpa using he.symm
      rw [receivedFrom, receivedFrom, hreceived f hf, List.filter_append, hnil, List.append_nil]
  constructor
  case left_le =>
    intro e
    rw [hleft]
    refine Nat.le_trans ?_ (hout e).length_le
    by_cases he : e = d
    · subst he
      rw [update_self]
      exact left_lt hnext
    · rw [update_of_ne he]
      exact h.left_le e
  case source =>
    intro v e p hp
    by_cases hv : y.received v = x.received v
    · exact h.source (hv ▸ hp)
    · obtain ⟨f, hf, rfl⟩ := hsource v hv
      rw [hreceived f hf] at hp
      rcases List.mem_append.mp hp with hp | hp
      · exact h.source hp
      · obtain ⟨p', -, heq⟩ := List.mem_map.mp hp
        cases heq
        exact ⟨f, hf, rfl⟩
  case link =>
    intro e f hf
    obtain ⟨l, hl⟩ := hout e
    by_cases he : e = d
    · subst he
      have hfrom : y.receivedFrom f.node e = x.receivedFrom f.node e ++ new := by
        have hself : (new.map fun p => (e, p)).filter (fun a => decide (a.1 = e)) =
            new.map fun p => (e, p) := by
          refine List.filter_eq_self.mpr fun a ha => ?_
          obtain ⟨p, -, rfl⟩ := List.mem_map.mp ha
          simp
        rw [receivedFrom, receivedFrom, hreceived f hf, List.filter_append, hself, List.map_append,
          List.map_map]
        exact congrArg _ (List.map_id new)
      rw [hfrom, hleft, update_self, ← hl, List.take_append_of_le_length (left_lt hnext),
        take_next hnext, packets_append, ofFlow_append, ofFlow_append]
      exact (h.link hf).append hnew
    · rw [hother e he, hleft, update_of_ne he, ← hl, List.take_append_of_le_length (h.left_le e)]
      exact h.link hf

/-! ## The switches -/

/-- The switches go on: they transmit more, and what their pointers stand for does not change. -/
structure Advances (x y : NetworkRun α) : Prop where
  appends : ∀ v, (x.switches v).Appends (y.switches v)
  contents : ∀ v ptr, ptr < (x.switches v).nextPtr → y.contents v ptr = x.contents v ptr
  sent : y.sent = x.sent

theorem Advances.refl (x : NetworkRun α) : Advances x x :=
  ⟨fun _ => .of_eq rfl rfl, fun _ _ _ => rfl, rfl⟩

/-- One switch goes on. -/
theorem Advances.update {s : SwitchNode} (hs : (x.switches v).Appends s)
    (hswitches : y.switches = update x.switches v s)
    (hcontents : ∀ w ptr, (w = v → ptr < (x.switches v).nextPtr) →
      y.contents w ptr = x.contents w ptr)
    (hsent : y.sent = x.sent) : Advances x y := by
  refine ⟨fun w => ?_, fun w ptr hptr => hcontents w ptr fun h => h ▸ hptr, hsent⟩
  rw [hswitches]
  by_cases hw : w = v
  · subst hw
    rwa [update_self]
  · rw [update_of_ne hw]
    exact .of_eq rfl rfl

theorem Advances.outgoing (h : Advances x y) (hx : ∀ v, (x.switches v).InOrder) (d : Dev) :
    x.outgoing net d <+: y.outgoing net d := by
  unfold NetworkRun.outgoing
  split
  · cases hport : SwitchNode.toPort d.iface with
    | none => exact List.prefix_rfl
    | some port =>
      have hcarry : ((x.switches d.node).transmitted port).map (x.carry d.node) =
          ((x.switches d.node).transmitted port).map (y.carry d.node) := by
        refine List.map_congr_left fun p hp => ?_
        unfold carry
        cases hpfc : p.pfc with
        | some frame => rfl
        | none =>
          obtain ⟨qIndex, hlane⟩ := SwitchNode.mem_lane_of_transmitted hp hpfc
          exact congrArg Transmission.packet
            (h.contents d.node p.ptr ((hx d.node).fresh _ p hlane)).symm
      rw [Option.elim_some, Option.elim_some, hcarry]
      exact (PfcLinks.transmitted_prefix (h.appends d.node) port).map _
  · rw [h.sent]

/-- The lanes of the switches have the packets of a flow that the switches received from the devices
that lead to them, in their order. -/
structure Lanes (net : Network) (tg : Nat → Port → List Slot) (lossless : Prop) (fl : PacketFlow)
    (x : NetworkRun α) : Prop where
  targets : ∀ v port, (x.switches v).targets fl.ch 0 fl.multicast port = tg v port
  inOrder : ∀ v, (x.switches v).InOrder
  order : ∀ {v} slot, net.isSwitchNode v = true → Kept lossless (ofFlow fl (x.laneContents v slot))
    (ofFlow fl (via net tg slot (x.received v)))

theorem via_append (l l' : List (Dev × NetPacket α)) :
    via net tg slot (l ++ l') = via net tg slot l ++ via net tg slot l' := by
  rw [via, List.filter_append, List.map_append]
  rfl

theorem entering_eq (he : net.getPeerNetDevice d = some e)
    (hport : SwitchNode.toPort e.iface = some port) : entering net tg d = tg e.node port := by
  rw [entering, he, Option.bind_some, hport]
  rfl

theorem lanes_of_entering (hslot : slot ∈ entering net tg d)
    (he : net.getPeerNetDevice d = some e) :
    ∃ port, SwitchNode.toPort e.iface = some port ∧ slot ∈ tg e.node port := by
  cases hport : SwitchNode.toPort e.iface with
  | none =>
    rw [entering, he, Option.bind_some, hport] at hslot
    exact absurd hslot List.not_mem_nil
  | some port =>
    rw [entering_eq he hport] at hslot
    exact ⟨port, rfl, hslot⟩

/-- Nothing happens to the switches. -/
theorem Lanes.same (h : Lanes net tg lossless fl x) (hswitches : y.switches = x.switches)
    (hcontents : y.contents = x.contents)
    (hreceived : ∀ v, net.isSwitchNode v = true → y.received v = x.received v) :
    Lanes net tg lossless fl y := by
  have hlane : y.laneContents = x.laneContents := by
    funext v slot
    rw [laneContents, hswitches, hcontents]
    rfl
  constructor
  case targets => exact hswitches ▸ h.targets
  case inOrder => exact hswitches ▸ h.inOrder
  case order =>
    intro v slot hsw
    rw [hlane, hreceived v hsw]
    exact h.order slot hsw

/-- A switch takes packets into its lanes. -/
theorem Lanes.enters {s : SwitchNode} {new : Slot → List SwitchPacket}
    {added : List (Dev × NetPacket α)} (h : Lanes net tg lossless fl x)
    (he : (x.switches v).Enters s new) (hswitches : y.switches = Function.update x.switches v s)
    (hcontents : ∀ w ptr, (w = v → ptr < (x.switches v).nextPtr) →
      y.contents w ptr = x.contents w ptr)
    (hother : ∀ w, w ≠ v → y.received w = x.received w)
    (hreceived : y.received v = x.received v ++ added)
    (hnew : ∀ slot, Kept lossless (ofFlow fl ((new slot).map fun p => y.contents v p.ptr))
      (ofFlow fl (via net tg slot added))) :
    Lanes net tg lossless fl y := by
  have hself : y.switches v = s := by rw [hswitches, update_self]
  have hne : ∀ w, w ≠ v → y.switches w = x.switches w := fun w hw => by
    rw [hswitches, update_of_ne hw]
  have hlane : ∀ slot, y.laneContents v slot =
      x.laneContents v slot ++ (new slot).map fun p => y.contents v p.ptr := by
    intro slot
    rw [laneContents, hself, he.lane, List.map_append, laneContents]
    refine congrArg (· ++ _) (List.map_congr_left fun p hp => ?_)
    exact hcontents v p.ptr fun _ => (h.inOrder v).fresh slot p hp
  have hlane' : ∀ w, w ≠ v → y.laneContents w = x.laneContents w := by
    intro w hw
    funext slot
    rw [laneContents, hne w hw, laneContents]
    exact List.map_congr_left fun p _ => hcontents w p.ptr fun heq => absurd heq hw
  constructor
  case targets =>
    intro w port
    by_cases hw : w = v
    · subst hw
      rw [hself, he.tables.targets, h.targets]
    · rw [hne w hw, h.targets]
  case inOrder =>
    intro w
    by_cases hw : w = v
    · subst hw
      rw [hself]
      exact (h.inOrder w).enters he
    · rw [hne w hw]
      exact h.inOrder w
  case order =>
    intro w slot hsw
    by_cases hw : w = v
    · subst hw
      rw [hlane, hreceived, via_append, ofFlow_append, ofFlow_append]
      exact (h.order slot hsw).append (hnew slot)
    · rw [hlane' w hw, hother w hw]
      exact h.order slot hsw

/-- The headers whose hash does not depend on what happens to be in memory. -/
def HashesPorts (ch : CustomHeader) : Prop := ch.l3Prot = 0x11 ∨ ch.l3Prot = 0xFC ∨ ch.l3Prot = 0xFD

theorem HashesPorts.targets {ch : CustomHeader} (hch : HashesPorts ch) (s : SwitchNode)
    (junk : UInt32) (multicast : Bool) (inIface : Port) :
    s.targets ch junk multicast inIface = s.targets ch 0 multicast inIface := by
  have hkey : SwitchNode.ecmpKey ch junk = SwitchNode.ecmpKey ch 0 := by
    have hprot : ch.l3Prot = 0x6 ∨ ch.l3Prot = 0x11 ∨ ch.l3Prot = 0xFC ∨ ch.l3Prot = 0xFD :=
      .inr hch
    rw [SwitchNode.ecmpKey, SwitchNode.ecmpKey, if_pos hprot, if_pos hprot]
  have hout : s.outDev ch junk = s.outDev ch 0 := by
    unfold SwitchNode.outDev SwitchNode.getOutDev
    dsimp only
    rw [hkey]
  have helect : ∀ group, SwitchNode.electUplink group s.uplink ch junk s.ecmpSeed =
      SwitchNode.electUplink group s.uplink ch 0 s.ecmpSeed := fun group => by
    rw [SwitchNode.electUplink, SwitchNode.electUplink, SwitchNode.ecmpPick,
      SwitchNode.ecmpPick, hkey]
  simp only [SwitchNode.targets, SwitchNode.outPorts, SwitchNode.multiPorts, hout, helect]

theorem inFlow_iff {p : NetPacket α} :
    p.inFlow fl = true ↔ p.ch = fl.ch ∧ p.multicast = fl.multicast := by
  simp [NetPacket.inFlow]

theorem learn_old {v w : Nat} (h : w = v → ptr < (x.switches v).nextPtr) :
    x.learn v tr w ptr = x.contents w ptr := by
  cases tr with
  | pfc frame => rfl
  | packet p =>
    by_cases hw : w = v
    · subst hw
      rw [learn, update_self, if_pos (h rfl)]
    · rw [learn, update_of_ne hw]

theorem learn_new {v : Nat} {p : NetPacket α} (h : (x.switches v).nextPtr ≤ ptr) :
    x.learn v (.packet p) v ptr = p := by
  rw [learn, update_self, if_neg (Nat.not_lt.mpr h)]

/-- A switch forwards what has left a link. -/
theorem Lanes.forward {s : SwitchNode} (hch : HashesPorts fl.ch)
    (hnodup : ∀ v port, (tg v port).Nodup) (h : Lanes net tg lossless fl x)
    (hnext : x.next net d = some tr) (he : net.getPeerNetDevice d = some e)
    (hsw : net.isSwitchNode e.node = true) (hport : SwitchNode.toPort e.iface = some port)
    (hs : SwitchNode.receive (SwitchNode.dequeueAndTransmit fuel) port (tr.arrival junk)
      (x.switches e.node) = some s)
    (hkeeps : lossless → Keeps net fl x (.arrive d false junk)) :
    Lanes net tg lossless fl { x.receiveAt d e.node tr with
      switches := update x.switches e.node s
      contents := x.learn e.node tr } := by
  obtain ⟨new, henters, hpfc, -, hcount⟩ :=
    SwitchNode.Enters.receive (SwitchNode.keepsLanes_dequeueAndTransmit fuel) hs
  have hother : ∀ w, w ≠ e.node → (x.receiveAt d e.node tr).received w = x.received w :=
    fun w hw => update_of_ne hw ..
  have hself : (x.receiveAt d e.node tr).received e.node =
      x.received e.node ++ tr.packet?.toList.map fun p => (d, p) := update_self ..
  cases tr with
  | pfc frame =>
    obtain rfl := hpfc rfl
    exact h.enters henters rfl (fun _ _ _ => rfl) hother hself fun _ => .refl []
  | packet p =>
    rw [show (Transmission.packet p).packet?.toList.map (fun p => (d, p)) =
      [(d, p)] from rfl] at hself
    have hold : ∀ w ptr, (w = e.node → ptr < (x.switches e.node).nextPtr) →
        x.learn e.node (.packet p) w ptr = x.contents w ptr := fun _ _ => learn_old
    refine h.enters henters rfl hold hother hself fun slot => ?_
    have hadded : (new slot).map (fun q => x.learn e.node (.packet p) e.node q.ptr) =
        (new slot).map fun _ => p :=
      List.map_congr_left fun q hq => learn_new (henters.fresh slot q hq).1
    rw [hadded]
    by_cases hp : p.inFlow fl = true
    · obtain ⟨hpch, hmulti⟩ := inFlow_iff.mp hp
      have htg : (x.switches e.node).targets p.ch junk p.multicast port = tg e.node port := by
        rw [hpch, hmulti, hch.targets, h.targets]
      have hlen : (new slot).length ≤ (tg e.node port).count slot := htg ▸ hcount slot
      have hone : ofFlow fl [p] = [p] := List.filter_eq_self.mpr (by simpa using hp)
      by_cases hslot : slot ∈ tg e.node port
      · have hvia : via net tg slot [(d, p)] = [p] := by
          rw [via, List.filter_cons_of_pos (by rw [entering_eq he hport]; simpa using hslot)]
          rfl
        have hle : (new slot).length ≤ 1 := hlen.trans
          (List.nodup_iff_count_le_one.mp (hnodup ..) slot)
        have hgrown : lossless → new slot ≠ [] := by
          intro hlossless hnil
          refine (hkeeps hlossless p hnext hp).2 e port fuel s he hsw hport hs slot ?_ ?_
          · rwa [htg]
          · rw [henters.lane, hnil, List.append_nil]
        rw [hvia, hone]
        rcases Nat.le_one_iff_eq_zero_or_eq_one.mp hle with hzero | hsingle
        · have hnil := List.eq_nil_of_length_eq_zero hzero
          exact ⟨by rw [hnil]; exact List.nil_sublist _, fun hl => absurd hnil (hgrown hl)⟩
        · obtain ⟨q, hq⟩ := List.length_eq_one_iff.mp hsingle
          rw [hq, List.map_singleton, hone]
          exact .refl _
      · have hvia : via net tg slot [(d, p)] = [] := by
          rw [via, List.filter_cons_of_neg (by rw [entering_eq he hport]; simpa using hslot)]
          rfl
        have hnil : new slot = [] :=
          List.eq_nil_of_length_eq_zero (Nat.le_zero.mp (List.count_eq_zero.mpr hslot ▸ hlen))
        rw [hvia, hnil]
        exact .refl []
    · -- a packet of another flow changes nothing for this one
      have hnil : ∀ l : List (NetPacket α), (∀ q ∈ l, q = p) → ofFlow fl l = [] := by
        refine fun l hl => List.filter_eq_nil_iff.mpr fun q hq => ?_
        rwa [hl q hq]
      rw [hnil _ fun q hq => (List.mem_map.mp hq).choose_spec.2.symm, hnil _ fun q hq => ?_]
      · exact .refl []
      · obtain ⟨a, ha, rfl⟩ := List.mem_map.mp hq
        rw [List.mem_singleton.mp (List.mem_of_mem_filter ha)]

end NetworkRun
end Roce
