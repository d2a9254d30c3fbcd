import Roce.Network.Multicast

/-! # Multicast on spine-leaf networks

In a spine-leaf network each server has a link to its leaf, and each leaf a link to each spine.
Groups mark more ports than needed: with several spines, the uplinks of a leaf without members get
into the group as well. This does no harm, as a leaf does not send a packet up that came from
above, and only one of its uplinks is elected.

The results on forwarding count the copies that each server gets from a copy at a leaf or a spine,
from the servers up. -/

namespace Roce

inductive Role where
  | server
  | leaf
  | spine
  deriving DecidableEq, Repr

/-- Whether two nodes have a link, where `home` is the leaf of a server. -/
def joined (role : Nat → Role) (home : Nat → Nat) (u v : Nat) : Bool :=
  match role u, role v with
  | .leaf, .spine | .spine, .leaf => true
  | .server, .leaf => home u = v
  | .leaf, .server => home v = u
  | _, _ => false

/-- A spine-leaf topology: one link for each leaf and spine and one link for each server, in any
order and direction. -/
structure SpineLeaf (top : RdmaTopology) (role : Nat → Role) (home : Nat → Nat) : Prop where
  kind : ∀ v < top.nodes.length, (top.isSwitch v = true ↔ role v ≠ .server)
  spine : ∃ v < top.nodes.length, role v = .spine
  leaf : ∃ v < top.nodes.length, role v = .leaf
  attached : ∀ v < top.nodes.length, role v = .server →
    home v < top.nodes.length ∧ role (home v) = .leaf
  populated : ∀ v < top.nodes.length, role v = .leaf →
    ∃ u < top.nodes.length, role u = .server ∧ home u = v
  link : ∀ u v, Network.linkCount top.links u v =
    if u < top.nodes.length ∧ v < top.nodes.length ∧ joined role home u v then 1 else 0

theorem joined_server (h : role v = .server) : joined role home v w = true ↔
    role w = .leaf ∧ home v = w := by
  unfold joined
  rw [h]
  cases role w <;> simp

theorem joined_spine (h : role v = .spine) : joined role home v w = true ↔ role w = .leaf := by
  unfold joined
  rw [h]
  cases role w <;> simp

theorem joined_leaf (h : role v = .leaf) : joined role home v w = true ↔
    role w = .spine ∨ (role w = .server ∧ home w = v) := by
  unfold joined
  rw [h]
  cases role w <;> simp

/-- The network of a spine-leaf topology. -/
structure SpineLeafNet (net : Network) (role : Nat → Role) (home : Nat → Nat) : Prop where
  kind : ∀ v < net.kinds.length, (net.isSwitchNode v = true ↔ role v ≠ .server)
  spine : ∃ v < net.kinds.length, role v = .spine
  leaf : ∃ v < net.kinds.length, role v = .leaf
  attached : ∀ v < net.kinds.length, role v = .server → home v < net.kinds.length ∧
    role (home v) = .leaf
  populated : ∀ v < net.kinds.length, role v = .leaf →
    ∃ u < net.kinds.length, role u = .server ∧ home u = v
  peer : ∀ {d e}, net.getPeerNetDevice d = some e → net.getPeerNetDevice e = some d
  adj : ∀ {d e}, net.getPeerNetDevice d = some e → d.node < net.kinds.length ∧
    joined role home d.node e.node = true
  port : ∀ u < net.kinds.length, ∀ v < net.kinds.length, joined role home u v = true →
    ∃ i j, net.getPeerNetDevice ⟨u, i⟩ = some ⟨v, j⟩
  unique : ∀ {d d' e e'}, net.getPeerNetDevice d = some e → net.getPeerNetDevice d' = some e' →
    d.node = d'.node → e.node = e'.node → d = d'
  first : ∀ v < net.kinds.length, role v = .server → ∃ j,
    net.getPeerNetDevice ⟨v, 1⟩ = some ⟨home v, j⟩

namespace SpineLeaf

variable {top : RdmaTopology} {role : Nat → Role} {home : Nat → Nat} {net : Network}

theorem linkCount_pos (h : SpineLeaf top role home) :
    0 < Network.linkCount top.links u v ↔
      u < top.nodes.length ∧ v < top.nodes.length ∧ joined role home u v := by
  rw [h.link]
  split <;> simp_all

theorem linkCount_le (h : SpineLeaf top role home) (u v : Nat) :
    Network.linkCount top.links u v ≤ 1 := by
  rw [h.link]
  split
  · exact Nat.le_refl 1
  · exact Nat.zero_le 1

theorem simple (h : SpineLeaf top role home) : top.Simple where
  range l hl := by
    obtain ⟨hs, hd, -⟩ := h.linkCount_pos.mp
      (Network.linkCount_pos.mpr ⟨l, hl, .inl ⟨rfl, rfl⟩⟩)
    exact ⟨hs, hd⟩
  loop l hl heq := by
    obtain ⟨-, -, hj⟩ := h.linkCount_pos.mp
      (Network.linkCount_pos.mpr ⟨l, hl, .inl ⟨rfl, rfl⟩⟩)
    rw [heq, joined] at hj
    cases hr : role l.dst <;> simp [hr] at hj
  link := h.linkCount_le
  server v hv hs := by
    have hr : role v = .server := by
      by_contra hr
      rw [(h.kind v hv).mpr hr] at hs
      cases hs
    obtain ⟨hlt, hleaf⟩ := h.attached v hv hr
    refine ⟨home v, ?_, fun w hw => ?_⟩
    · rw [h.link, if_pos ⟨hv, hlt, (joined_server hr).mpr ⟨hleaf, rfl⟩⟩]
    · obtain ⟨-, -, hj⟩ := h.linkCount_pos.mp hw
      exact ((joined_server hr).mp hj).2.symm

theorem spineLeafNet (h : SpineLeaf top role home) (hw : net.Wired top.links)
    (hk : net.kinds = top.nodes.map (·.isSwitch)) : SpineLeafNet net role home := by
  have hlen := RdmaTopology.length_kinds hk
  have hkind := congrFun (RdmaTopology.isSwitchNode_eq hk)
  constructor
  case kind => simpa only [hlen, hkind] using h.kind
  case spine => simpa only [hlen] using h.spine
  case leaf => simpa only [hlen] using h.leaf
  case attached => simpa only [hlen] using h.attached
  case populated => simpa only [hlen] using h.populated
  case peer => exact hw.peer
  case adj =>
    intro d e he
    obtain ⟨hd, -, hj⟩ := h.linkCount_pos.mp (hw.linkCount_pos he)
    exact ⟨hlen ▸ hd, hj⟩
  case port =>
    intro u hu v hv hj
    exact hw.exists_peer (h.linkCount_pos.mpr ⟨hlen ▸ hu, hlen ▸ hv, hj⟩)
  case unique =>
    rintro ⟨u, i⟩ ⟨u', i'⟩ ⟨v, j⟩ ⟨v', j'⟩ hd hd' rfl rfl
    rw [hw.port_unique (h.linkCount_le _ _) hd hd']
  case first =>
    intro v hv hr
    obtain ⟨hlt, hleaf⟩ := h.attached v (hlen ▸ hv) hr
    obtain ⟨i, j, hij⟩ := hw.exists_peer (v := home v)
      (h.linkCount_pos.mpr ⟨hlen ▸ hv, hlt, (joined_server hr).mpr ⟨hleaf, rfl⟩⟩)
    -- the first device of a server goes to its leaf, like any other
    obtain ⟨hi, dev, hdev, -⟩ := Network.getPeerNetDevice_eq_some.mp hij
    have hlen : 0 < (net.devices v).length :=
      Nat.zero_lt_of_lt (List.getElem?_eq_some_iff.mp hdev).1
    have hmem := List.getElem_mem hlen
    obtain ⟨-, -, hj⟩ := h.linkCount_pos.mp (hw.linkCount_pos_of_mem hmem)
    refine ⟨(net.devices v)[0].peer.iface, Network.getPeerNetDevice_eq_some.mpr
      ⟨Nat.one_ne_zero, _, List.getElem?_eq_getElem hlen, ?_⟩⟩
    rw [((joined_server hr).mp hj).2]

end SpineLeaf

/-- A spine-leaf network whose groups and uplinks are built, after the servers of `joins` have
joined. -/
structure SpineLeafFabric (f : Fabric) (role : Nat → Role) (home : Nat → Nat)
    (joins : List (Nat × Nat)) : Prop where
  net : SpineLeafNet f.net role home
  grouped : f.net.Grouped joins f.groups
  joins : ∀ join ∈ joins, join.1 < f.net.kinds.length ∧ role join.1 = .server
  uplink : ∀ {sw i e}, f.net.isSwitchNode sw = true → f.net.getPeerNetDevice ⟨sw, i⟩ = some e →
    (f.uplink sw).getD i false = decide (role sw = .leaf ∧ role e.node = .spine)

namespace SpineLeafFabric

variable {f : Fabric} {role : Nat → Role} {home : Nat → Nat} {joins : List (Nat × Nat)}
  {d e x y : Dev}

theorem isSwitchNode_iff (h : SpineLeafFabric f role home joins)
    (hd : f.net.getPeerNetDevice d = some e) :
    f.net.isSwitchNode d.node = true ↔ role d.node ≠ .server :=
  h.net.kind _ (h.net.adj hd).1

/-! ## The ports of a group -/

theorem spread (h : SpineLeafFabric f role home joins) (hx : (x, g) ∈ f.groups.groups)
    (hxy : f.net.Spread x y) : (y, g) ∈ f.groups.groups := by
  obtain ⟨v, hv, hreach⟩ := (h.grouped.groups x g).mp hx
  exact (h.grouped.groups y g).mpr ⟨v, hv, hreach.tail hxy⟩

theorem mem_ports (h : SpineLeafFabric f role home joins) :
    p ∈ (f.groups.ogroups sw g).keys ↔ f.net.isSwitchNode sw = true ∧
      ∃ e, f.net.getPeerNetDevice ⟨sw, p⟩ = some e ∧ (e, g) ∈ f.groups.groups := by
  rw [h.grouped.ogroups]
  constructor
  · rintro ⟨e, he, hpeer, hsw⟩
    exact ⟨hsw, e, h.net.peer hpeer, he⟩
  · rintro ⟨hsw, e, hpeer, he⟩
    exact ⟨e, he, h.net.peer hpeer, hsw⟩

/-- The only device of a server. -/
theorem server_iface (h : SpineLeafFabric f role home joins) (hr : role d.node = .server)
    (hd : f.net.getPeerNetDevice d = some e) : d = ⟨d.node, 1⟩ ∧ e.node = home d.node := by
  obtain ⟨hlt, hj⟩ := h.net.adj hd
  obtain ⟨j, hfirst⟩ := h.net.first _ hlt hr
  have hhome : e.node = home d.node := ((joined_server hr).mp hj).2.symm
  exact ⟨h.net.unique hd hfirst rfl hhome, hhome⟩

/-- The device of a server is in the group only if the server joined. -/
theorem member_iff (h : SpineLeafFabric f role home joins) (hr : role v = .server) :
    ((⟨v, 1⟩ : Dev), g) ∈ f.groups.groups ↔ (v, g) ∈ joins := by
  rw [h.grouped.groups]
  constructor
  · rintro ⟨w, hw, hreach⟩
    cases hreach with
    | refl => exact hw
    | tail _ hstep =>
      -- nothing spreads to the device of a server
      obtain ⟨e, -, hsw, hmem⟩ := hstep
      obtain ⟨hnode, -, hpeer⟩ := Network.mem_otherDevs.mp hmem
      obtain ⟨e', he'⟩ := Option.isSome_iff_exists.mp hpeer
      rw [← hnode] at hsw
      exact absurd hr ((h.isSwitchNode_iff he').mp hsw)
  · exact fun hv => ⟨v, hv, .refl⟩

/-- A group spreads over a switch from one neighbour to the device of another. -/
theorem spread_of_ne (h : SpineLeafFabric f role home joins) (hx : (x, g) ∈ f.groups.groups)
    (hxe : f.net.getPeerNetDevice x = some e) (hd : f.net.getPeerNetDevice d = some y)
    (hnode : d.node = e.node) (hne : y.node ≠ x.node) (hr : role d.node ≠ .server) :
    (d, g) ∈ f.groups.groups := by
  refine h.spread hx ⟨e, hxe, hnode ▸ (h.isSwitchNode_iff hd).mpr hr,
    Network.mem_otherDevs.mpr ⟨hnode, fun heq => hne ?_, by rw [hd]; rfl⟩⟩
  rw [heq, h.net.peer hxe, Option.some.injEq] at hd
  rw [hd]

/-- With a member below it, a leaf is marked at every spine. -/
theorem up_mem (h : SpineLeafFabric f role home joins) (hv : (v, g) ∈ joins)
    (hd : f.net.getPeerNetDevice d = some e) (hnode : d.node = home v) (he : role e.node = .spine) :
    (d, g) ∈ f.groups.groups := by
  obtain ⟨hlt, hr⟩ := h.joins _ hv
  obtain ⟨j, hfirst⟩ := h.net.first v hlt hr
  refine h.spread_of_ne ((h.member_iff hr).mpr hv) hfirst hd hnode (fun heq => ?_) fun hs => ?_
  · rw [heq, hr] at he
    cases he
  · rw [hnode, (h.net.attached v hlt hr).2] at hs
    cases hs

/-- And from the spines, so is every uplink of the other leaves. -/
theorem down_mem (h : SpineLeafFabric f role home joins) (hv : (v, g) ∈ joins)
    (hd : f.net.getPeerNetDevice d = some e) (hr : role d.node = .spine) (hne : e.node ≠ home v) :
    (d, g) ∈ f.groups.groups := by
  obtain ⟨hlt, hserver⟩ := h.joins _ hv
  obtain ⟨hhome, hleaf⟩ := h.net.attached v hlt hserver
  obtain ⟨j, q, hup⟩ := h.net.port _ hhome d.node (h.net.adj hd).1
    ((joined_leaf hleaf).mpr (.inl hr))
  refine h.spread_of_ne (h.up_mem hv hup rfl hr) hup hd rfl hne ?_
  rw [hr]
  exact fun hs => nomatch hs

/-! ## The copies of a packet -/

/-- How far a copy can still go: from a server up to its leaf, a spine, another leaf and a
server. -/
def rank (f : Fabric) (role : Nat → Role) (d : Dev) : Nat :=
  match role d.node with
  | .server => 0
  | .spine => 2
  | .leaf => if (f.net.getPeerNetDevice d).any (role ·.node = .spine) then 1 else 3

section Flood

variable {ch : CustomHeader} {junk : Dev → UInt32}

theorem mem_sendMultiToDevs (h : SpineLeafFabric f role home joins)
    (hd : f.net.getPeerNetDevice d = some e) (hr : role d.node ≠ .server) :
    p ∈ f.sendMultiToDevs ch junk d ↔
      ∃ x, f.net.getPeerNetDevice ⟨d.node, p⟩ = some x ∧ (x, ch.dip.toNat) ∈ f.groups.groups ∧
        p ≠ d.iface ∧ (role d.node = .leaf → role x.node = .spine → role e.node ≠ .spine ∧
          SwitchNode.electUplink (f.groups.ogroups d.node ch.dip.toNat).keys (f.uplink d.node) ch
            (junk d) (f.ecmpSeed d.node) = p) := by
  have hsw := (h.isSwitchNode_iff hd).mpr hr
  have hin := h.uplink (i := d.iface) hsw hd
  simp only [Fabric.sendMultiToDevs, SwitchNode.multiPorts, List.mem_filter, h.mem_ports, hsw,
    true_and, hin]
  have hport : ∀ x, f.net.getPeerNetDevice ⟨d.node, p⟩ = some x →
      (((f.uplink d.node).getD p false && (decide (role d.node = .leaf ∧ role e.node = .spine) ||
        decide (SwitchNode.electUplink (f.groups.ogroups d.node ch.dip.toNat).keys
          (f.uplink d.node) ch (junk d) (f.ecmpSeed d.node) ≠ p))) = false ↔
      (role d.node = .leaf → role x.node = .spine → role e.node ≠ .spine ∧
        SwitchNode.electUplink (f.groups.ogroups d.node ch.dip.toNat).keys (f.uplink d.node) ch
          (junk d) (f.ecmpSeed d.node) = p)) := by
    intro x hx
    rw [h.uplink hsw hx]
    by_cases hl : role d.node = .leaf <;> by_cases hs : role x.node = .spine <;> simp [hl, hs]
  simp only [Bool.and_eq_true, decide_eq_true_eq, Bool.not_eq_true']
  constructor
  · rintro ⟨⟨x, hx, hmem⟩, hne, hup⟩
    exact ⟨x, hx, hmem, hne, (hport x hx).mp hup⟩
  · rintro ⟨x, hx, hmem, hne, hup⟩
    exact ⟨⟨x, hx, hmem⟩, hne, (hport x hx).mpr hup⟩

theorem mem_copies (h : SpineLeafFabric f role home joins)
    (hd : f.net.getPeerNetDevice d = some e) :
    x ∈ f.copies ch junk d ↔ role d.node ≠ .server ∧
      ∃ p ∈ f.sendMultiToDevs ch junk d, f.net.getPeerNetDevice ⟨d.node, p⟩ = some x := by
  unfold Fabric.copies
  rw [← h.isSwitchNode_iff hd]
  split
  next hsw => simp [hsw]
  next hsw => simp [hsw]

theorem ranked (h : SpineLeafFabric f role home joins) :
    Bag.Ranked (f.copies ch junk) (fun d => (f.net.getPeerNetDevice d).isSome) (rank f role) := by
  intro d hd x hx
  obtain ⟨e, he⟩ := Option.isSome_iff_exists.mp hd
  obtain ⟨hr, p, hp, hpeer⟩ := (h.mem_copies he).mp hx
  obtain ⟨x', hx', -, -, hup⟩ := (h.mem_sendMultiToDevs he hr).mp hp
  obtain rfl : x = x' := Option.some.inj (hpeer.symm.trans hx')
  have hback := h.net.peer hpeer
  have hj := (h.net.adj hpeer).2
  refine ⟨Option.isSome_iff_exists.mpr ⟨_, hback⟩, ?_⟩
  unfold rank
  cases hrd : role d.node with
  | server => exact absurd hrd hr
  | spine =>
    rw [(joined_spine hrd).mp hj]
    simp [hback, hrd]
  | leaf =>
    rcases (joined_leaf hrd).mp hj with hrx | ⟨hrx, -⟩
    · have hre := (hup hrd hrx).1
      simp [hrx, he, hre]
    · simp only [hrx]
      split <;> decide

/-- The servers that a copy reaches in the end, each as often as it is reached. -/
def reach (f : Fabric) (role : Nat → Role) (ch : CustomHeader) (junk : Dev → UInt32) (d : Dev) :
    List Nat :=
  Bag.yield (f.copies ch junk) f.receive (rank f role) d

/-- The servers that are reached through a port. -/
def branch (f : Fabric) (role : Nat → Role) (ch : CustomHeader) (junk : Dev → UInt32) (sw p : Nat) :
    List Nat :=
  (f.net.getPeerNetDevice ⟨sw, p⟩).elim [] (reach f role ch junk)

theorem branch_eq (hp : f.net.getPeerNetDevice ⟨sw, p⟩ = some e) :
    branch f role ch junk sw p = reach f role ch junk e := by
  rw [branch, hp]
  rfl

theorem reach_server (h : SpineLeafFabric f role home joins)
    (hd : f.net.getPeerNetDevice d = some e) (hr : role d.node = .server) :
    reach f role ch junk d = [d.node] := by
  have hsw : f.net.isSwitchNode d.node = false :=
    Bool.eq_false_iff.mpr fun hsw => (h.isSwitchNode_iff hd).mp hsw hr
  have hok : (f.net.getPeerNetDevice d).isSome := Option.isSome_iff_exists.mpr ⟨e, hd⟩
  rw [reach, Bag.yield_eq h.ranked hok, Fabric.copies, Fabric.receive, hsw]
  rfl

theorem reach_switch (h : SpineLeafFabric f role home joins)
    (hd : f.net.getPeerNetDevice d = some e) (hr : role d.node ≠ .server) :
    reach f role ch junk d =
      (f.sendMultiToDevs ch junk d).flatMap (branch f role ch junk d.node) := by
  have hsw := (h.isSwitchNode_iff hd).mpr hr
  have hok : (f.net.getPeerNetDevice d).isSome := Option.isSome_iff_exists.mpr ⟨e, hd⟩
  rw [reach, Bag.yield_eq h.ranked hok, Fabric.copies, Fabric.receive, if_pos hsw, if_pos hsw,
    List.nil_append]
  induction f.sendMultiToDevs ch junk d with
  | nil => rfl
  | cons p ports ih =>
    rw [List.filterMap_cons, List.flatMap_cons, ← ih, branch]
    cases f.net.getPeerNetDevice ⟨d.node, p⟩ <;> rfl

theorem sendMultiToDevs_nodup (d : Dev) : (f.sendMultiToDevs ch junk d).Nodup := by
  refine List.Nodup.filter _ ?_
  rw [List.nodup_iff_pairwise_ne, OrdMap.keys, List.pairwise_map]
  exact (f.groups.ogroups d.node ch.dip.toNat).sorted.imp fun hlt => hlt.ne

/-- Behind a port of a leaf to a server is that server, and it is a member. -/
theorem count_server_port (h : SpineLeafFabric f role home joins) (ch : CustomHeader)
    (junk : Dev → UInt32) (v : Nat) (hp : f.net.getPeerNetDevice ⟨l, p⟩ = some x)
    (hx : (x, g) ∈ f.groups.groups)
    (hr : role x.node = .server) : (x.node, g) ∈ joins ∧ home x.node = l ∧ x = ⟨x.node, 1⟩ ∧
      (branch f role ch junk l p).count v = if x.node = v then 1 else 0 := by
  have hback := h.net.peer hp
  obtain ⟨hiface, hhome⟩ := h.server_iface hr hback
  rw [hiface] at hx
  refine ⟨(h.member_iff hr).mp hx, hhome.symm, hiface, ?_⟩
  rw [branch_eq hp, h.reach_server hback hr, List.count_singleton]
  simp [beq_iff_eq]

/-- What the server ports of a leaf `l` contribute, if its uplinks contribute nothing. -/
theorem count_leaf_ports (h : SpineLeafFabric f role home joins) (hl : role d.node = .leaf)
    (hd : f.net.getPeerNetDevice d = some e)
    (hup : ∀ p ∈ f.sendMultiToDevs ch junk d, ∀ x, f.net.getPeerNetDevice ⟨d.node, p⟩ = some x →
      role x.node = .spine → (branch f role ch junk d.node p).count v = 0) :
    (reach f role ch junk d).count v =
      if (v, ch.dip.toNat) ∈ joins ∧ home v = d.node ∧ v ≠ e.node then 1 else 0 := by
  have hr : role d.node ≠ .server := by rw [hl]; exact fun h => nomatch h
  rw [h.reach_switch hd hr]
  -- a port that does not lead to `v` itself contributes nothing
  have hother : ∀ p ∈ f.sendMultiToDevs ch junk d,
      f.net.getPeerNetDevice ⟨d.node, p⟩ ≠ some ⟨v, 1⟩ →
        (branch f role ch junk d.node p).count v = 0 := by
    intro p hp hne
    obtain ⟨x, hx, hmem, -⟩ := (h.mem_sendMultiToDevs hd hr).mp hp
    rcases (joined_leaf hl).mp (h.net.adj hx).2 with hs | ⟨hs, -⟩
    · exact hup p hp x hx hs
    · obtain ⟨-, -, hiface, hcount⟩ := h.count_server_port ch junk v hx hmem hs
      rw [hcount, if_neg]
      rintro rfl
      exact hne (hiface ▸ hx)
  split
  next hv =>
    obtain ⟨hjoin, hhome, hne⟩ := hv
    obtain ⟨hlt, hs⟩ := h.joins _ hjoin
    obtain ⟨j, hfirst⟩ := h.net.first v hlt hs
    have hport := h.net.peer hfirst
    rw [hhome] at hport
    have hmem := (h.member_iff hs).mpr hjoin
    have hin : j ∈ f.sendMultiToDevs ch junk d := by
      refine (h.mem_sendMultiToDevs hd hr).mpr ⟨_, hport, hmem, fun heq => hne ?_, fun _ hsp => ?_⟩
      · rw [heq] at hport
        exact congrArg Dev.node (Option.some.inj (hport.symm.trans hd))
      · have hsp : role v = .spine := hsp
        rw [hs] at hsp
        cases hsp
    rw [count_flatMap_of_nodup (sendMultiToDevs_nodup d) hin]
    · rw [(h.count_server_port ch junk v hport hmem hs).2.2.2, if_pos rfl]
    · intro p hp hpj
      refine hother p hp fun heq => hpj ?_
      exact congrArg Dev.iface (h.net.unique heq hport rfl rfl)
  next hv =>
    refine count_flatMap_eq_zero fun p hp => ?_
    by_cases hx : f.net.getPeerNetDevice ⟨d.node, p⟩ = some ⟨v, 1⟩
    · obtain ⟨x, hx', hmem, hne, -⟩ := (h.mem_sendMultiToDevs hd hr).mp hp
      obtain rfl : (⟨v, 1⟩ : Dev) = x := Option.some.inj (hx.symm.trans hx')
      rcases (joined_leaf hl).mp (h.net.adj hx).2 with hs | ⟨hs, hhome⟩
      · exact hup p hp _ hx hs
      · refine absurd ⟨(h.member_iff hs).mp hmem, hhome, fun heq => hne ?_⟩ hv
        exact congrArg Dev.iface (h.net.unique hx hd rfl heq)
    · exact hother p hp hx

/-- A copy that a leaf receives from a spine reaches the members below the leaf. -/
theorem count_reach_down (h : SpineLeafFabric f role home joins) (hl : role d.node = .leaf)
    (hd : f.net.getPeerNetDevice d = some e) (he : role e.node = .spine) :
    (reach f role ch junk d).count v =
      if (v, ch.dip.toNat) ∈ joins ∧ home v = d.node then 1 else 0 := by
  have hr : role d.node ≠ .server := by rw [hl]; exact fun h => nomatch h
  rw [h.count_leaf_ports hl hd]
  · refine if_congr (and_congr_right fun hjoin => and_iff_left_of_imp fun _ => ?_) rfl rfl
    rintro rfl
    rw [(h.joins _ hjoin).2] at he
    cases he
  · intro p hp x hx hs
    obtain ⟨x', hx', -, -, hup⟩ := (h.mem_sendMultiToDevs hd hr).mp hp
    obtain rfl : x = x' := Option.some.inj (hx.symm.trans hx')
    exact absurd he (hup hl hs).1

/-- A copy that a spine receives from a leaf reaches the members below the other leaves. -/
theorem count_reach_spine (h : SpineLeafFabric f role home joins) (hs : role d.node = .spine)
    (hd : f.net.getPeerNetDevice d = some e) :
    (reach f role ch junk d).count v =
      if (v, ch.dip.toNat) ∈ joins ∧ home v ≠ e.node then 1 else 0 := by
  have hr : role d.node ≠ .server := by rw [hs]; exact fun h => nomatch h
  have hleaf : role d.node ≠ .leaf := by rw [hs]; exact fun h => nomatch h
  rw [h.reach_switch hd hr]
  have hport : ∀ {p x}, f.net.getPeerNetDevice ⟨d.node, p⟩ = some x →
      (branch f role ch junk d.node p).count v =
        if (v, ch.dip.toNat) ∈ joins ∧ home v = x.node then 1 else 0 := by
    intro p x hx
    rw [branch_eq hx]
    exact h.count_reach_down ((joined_spine hs).mp (h.net.adj hx).2) (h.net.peer hx) hs
  split
  next hv =>
    obtain ⟨hjoin, hhome⟩ := hv
    obtain ⟨hlt, hserver⟩ := h.joins _ hjoin
    obtain ⟨hlt, hhleaf⟩ := h.net.attached v hlt hserver
    obtain ⟨p, j, hp⟩ := h.net.port _ (h.net.adj hd).1 _ hlt ((joined_spine hs).mpr hhleaf)
    have hin : p ∈ f.sendMultiToDevs ch junk d := by
      refine (h.mem_sendMultiToDevs hd hr).mpr ⟨_, hp, h.up_mem hjoin (h.net.peer hp) rfl hs,
        fun heq => hhome ?_, fun hl => absurd hl hleaf⟩
      rw [heq] at hp
      exact congrArg Dev.node (Option.some.inj (hp.symm.trans hd))
    rw [count_flatMap_of_nodup (sendMultiToDevs_nodup d) hin]
    · rw [hport hp, if_pos ⟨hjoin, rfl⟩]
    · intro p' hp' hne
      obtain ⟨x, hx, -⟩ := (h.mem_sendMultiToDevs hd hr).mp hp'
      rw [hport hx, if_neg]
      rintro ⟨-, hx'⟩
      exact hne (congrArg Dev.iface (h.net.unique hx hp rfl hx'.symm))
  next hv =>
    refine count_flatMap_eq_zero fun p hp => ?_
    obtain ⟨x, hx, -, hne, -⟩ := (h.mem_sendMultiToDevs hd hr).mp hp
    rw [hport hx, if_neg]
    rintro ⟨hjoin, hhome⟩
    refine hv ⟨hjoin, fun heq => hne ?_⟩
    exact congrArg Dev.iface (h.net.unique hx hd rfl (hhome.symm.trans heq))

/-- If a server below another leaf is a member, the leaf elects an uplink. -/
theorem exists_elected (h : SpineLeafFabric f role home joins) (junk : Dev → UInt32)
    (hl : role d.node = .leaf)
    (hd : f.net.getPeerNetDevice d = some e) (hv : (v, ch.dip.toNat) ∈ joins)
    (hhome : home v ≠ d.node) : ∃ p x, f.net.getPeerNetDevice ⟨d.node, p⟩ = some x ∧
      (x, ch.dip.toNat) ∈ f.groups.groups ∧ role x.node = .spine ∧
      SwitchNode.electUplink (f.groups.ogroups d.node ch.dip.toNat).keys (f.uplink d.node) ch
        (junk d) (f.ecmpSeed d.node) = p := by
  have hr : role d.node ≠ .server := by rw [hl]; exact fun h => nomatch h
  have hsw := (h.isSwitchNode_iff hd).mpr hr
  obtain ⟨s, hlt, hs⟩ := h.net.spine
  obtain ⟨i, q, hi⟩ := h.net.port _ (h.net.adj hd).1 s hlt ((joined_leaf hl).mpr (.inl hs))
  have hmark := h.down_mem hv (h.net.peer hi) hs hhome.symm
  have hne : ((f.groups.ogroups d.node ch.dip.toNat).keys.filter
      fun port => (f.uplink d.node).getD port false) ≠ [] := by
    refine List.ne_nil_of_mem (List.mem_filter.mpr ⟨h.mem_ports.mpr ⟨hsw, _, hi, hmark⟩, ?_⟩)
    rw [h.uplink hsw hi]
    exact decide_eq_true ⟨hl, hs⟩
  obtain ⟨p, hp, hpick⟩ := SwitchNode.ecmpPick_eq hne ch (junk d) (f.ecmpSeed d.node)
  obtain ⟨hp, hup⟩ := List.mem_filter.mp hp
  obtain ⟨-, x, hx, hmem⟩ := h.mem_ports.mp hp
  rw [h.uplink hsw hx, decide_eq_true_eq] at hup
  exact ⟨p, x, hx, hmem, hup.2, by rw [SwitchNode.electUplink, hpick]; rfl⟩

/-- A copy that a leaf receives from a server reaches all other members. -/
theorem count_reach_up (h : SpineLeafFabric f role home joins) (hl : role d.node = .leaf)
    (hd : f.net.getPeerNetDevice d = some e) (he : role e.node = .server) :
    (reach f role ch junk d).count v =
      if (v, ch.dip.toNat) ∈ joins ∧ v ≠ e.node then 1 else 0 := by
  have hr : role d.node ≠ .server := by rw [hl]; exact fun h => nomatch h
  have hspine : role e.node ≠ .spine := by rw [he]; exact fun h => nomatch h
  have hehome : d.node = home e.node := (h.server_iface he (h.net.peer hd)).2
  have hup : ∀ {p x}, f.net.getPeerNetDevice ⟨d.node, p⟩ = some x → role x.node = .spine →
      (branch f role ch junk d.node p).count v =
        if (v, ch.dip.toNat) ∈ joins ∧ home v ≠ d.node then 1 else 0 := by
    intro p x hx hs
    rw [branch_eq hx]
    exact h.count_reach_spine (e := ⟨d.node, p⟩) hs (h.net.peer hx)
  by_cases hv : (v, ch.dip.toNat) ∈ joins ∧ home v ≠ d.node
  · obtain ⟨hjoin, hhome⟩ := hv
    obtain ⟨p, x, hx, hmem, hs, helect⟩ := h.exists_elected junk hl hd hjoin hhome
    have hin : p ∈ f.sendMultiToDevs ch junk d := by
      refine (h.mem_sendMultiToDevs hd hr).mpr
        ⟨x, hx, hmem, fun heq => hspine ?_, fun _ _ => ⟨hspine, helect⟩⟩
      rw [heq] at hx
      rwa [← Option.some.inj (hx.symm.trans hd)]
    have hne : v ≠ e.node := fun heq => hhome (heq ▸ hehome.symm)
    rw [h.reach_switch hd hr, count_flatMap_of_nodup (sendMultiToDevs_nodup d) hin,
      hup hx hs, if_pos ⟨hjoin, hhome⟩, if_pos ⟨hjoin, hne⟩]
    · intro p' hp' hne
      obtain ⟨x', hx', hmem', -, helect'⟩ := (h.mem_sendMultiToDevs hd hr).mp hp'
      rcases (joined_leaf hl).mp (h.net.adj hx').2 with hs' | ⟨hs', hhome'⟩
      · exact absurd ((helect' hl hs').2.symm.trans helect) hne
      · rw [(h.count_server_port ch junk v hx' hmem' hs').2.2.2, if_neg]
        rintro rfl
        exact hhome hhome'
  · rw [h.count_leaf_ports hl hd fun p _ x hx hs => by rw [hup hx hs, if_neg hv]]
    refine if_congr (and_congr_right fun hjoin => and_iff_right ?_) rfl rfl
    by_contra hne
    exact hv ⟨hjoin, hne⟩

end Flood

end SpineLeafFabric

/-! ## Every member gets one copy -/

/-- The distance of a node of a spine-leaf network from the servers. -/
def Role.level : Role → Nat
  | .server => 0
  | .leaf => 1
  | .spine => 2

theorem SpineLeafNet.levels {net : Network} (h : SpineLeafNet net role home) :
    net.Levels fun v => (role v).level where
  server v hv := by
    rw [← not_iff_not, Bool.not_eq_false, h.kind v hv]
    cases role v <;> simp [Role.level]
  link v dev hdev := by
    obtain ⟨i, hi⟩ := List.mem_iff_getElem?.mp hdev
    have hpeer : net.getPeerNetDevice ⟨v, i + 1⟩ = some dev.peer :=
      Network.getPeerNetDevice_eq_some.mpr ⟨Nat.succ_ne_zero i, dev, hi, rfl⟩
    refine ⟨(h.adj (h.peer hpeer)).1, ?_⟩
    have hj := (h.adj hpeer).2
    unfold joined at hj
    revert hj
    cases role v <;> cases role dev.peer.node <;> simp [Role.level]
  nearer v hv hpos := by
    have hnear : ∃ u < net.kinds.length, joined role home u v = true ∧
        (role v).level = (role u).level + 1 := by
      cases hr : role v with
      | server => rw [hr] at hpos; cases hpos
      | leaf =>
        obtain ⟨u, hu, hur, huv⟩ := h.populated v hv hr
        exact ⟨u, hu, (joined_server hur).mpr ⟨hr, huv⟩, by rw [hur]; rfl⟩
      | spine =>
        obtain ⟨u, hu, hur⟩ := h.leaf
        exact ⟨u, hu, (joined_leaf hur).mpr (.inl hr), by rw [hur]; rfl⟩
    obtain ⟨u, hu, hj, hlevel⟩ := hnear
    obtain ⟨i, j, hpeer⟩ := h.port u hu v hv hj
    obtain ⟨-, dev, hdev, heq⟩ := Network.getPeerNetDevice_eq_some.mp hpeer
    exact ⟨u, hu, ⟨dev, List.mem_of_getElem? hdev, by rw [heq]⟩, hlevel⟩

/-- The network code builds a spine-leaf topology, its uplinks and any groups. -/
theorem SpineLeaf.exists_fabric {top : RdmaTopology} (h : SpineLeaf top role home) (ord : SetOrder)
    {joins : List (Nat × Nat)}
    (hjoins : ∀ join ∈ joins, join.1 < top.nodes.length ∧ role join.1 = .server)
    (seed : Nat → UInt32) :
    ∃ f : Fabric, top.createNetwork = some f.net ∧ f.net.rebuild ord = some f.uplink ∧
      f.net.buildGroups joins {} = some f.groups ∧ f.ecmpSeed = seed ∧
      f.net.kinds.length = top.nodes.length ∧ SpineLeafFabric f role home joins := by
  obtain ⟨net, hnet, hw, hk⟩ := h.simple.createNetwork
  have hs := h.spineLeafNet hw hk
  have hlen := RdmaTopology.length_kinds hk
  have hserver : net.servers ≠ [] := by
    obtain ⟨l, hl, hleaf⟩ := hs.leaf
    obtain ⟨u, hu, hur, -⟩ := hs.populated l hl hleaf
    refine List.ne_nil_of_mem (List.mem_filter.mpr ⟨List.mem_range.mpr hu, ?_⟩)
    cases hsw : net.isSwitchNode u
    · rfl
    · exact absurd hur ((hs.kind u hu).mp hsw)
  obtain ⟨uplink, hrebuild, huplink⟩ := net.rebuild_of_levels ord hs.levels hserver
  obtain ⟨groups, hgroups, hgrouped⟩ := net.buildGroups_grouped fun join hj => by
    obtain ⟨hlt, hr⟩ := hjoins join hj
    obtain ⟨j, hfirst⟩ := hs.first join.1 (hlen ▸ hlt) hr
    exact Network.mem_getAllQbbNetDevices.mpr ⟨hlen ▸ hlt, Option.isSome_iff_exists.mpr ⟨_, hfirst⟩⟩
  refine ⟨⟨net, uplink, groups, seed⟩, hnet, hrebuild, hgroups, rfl, hlen, ?_⟩
  constructor
  case net => exact hs
  case grouped => exact hgrouped
  case joins => simpa only [hlen] using hjoins
  case uplink =>
    intro sw i e hsw he
    have hr := (hs.kind sw (Network.isSwitchNode_lt hsw)).mp hsw
    refine (Network.uplink_getD (fun v => (role v).level)
      (huplink sw (Network.mem_switches.mpr hsw)) he).trans ?_
    revert hr
    cases role sw <;> cases role e.node <;> simp [Role.level]

/-- The flooding of a packet of the server `src`: its end, and what it leaves. -/
theorem SpineLeafFabric.flood {f : Fabric} {joins : List (Nat × Nat)}
    (h : SpineLeafFabric f role home joins) (ch : CustomHeader) (junk : Dev → UInt32)
    (hsrc : src < f.net.kinds.length) (hserver : role src = .server) :
    ∃ N, ∀ s es b, (f.flood ch junk src).init s → (f.flood ch junk src).Run s es b →
      es.length ≤ N ∧ (b.todo = [] → ∀ v, b.done.count v =
        if (v, ch.dip.toNat) ∈ joins ∧ v ≠ src then 1 else 0) := by
  obtain ⟨j, hfirst⟩ := h.net.first src hsrc hserver
  have hback := h.net.peer hfirst
  have hleaf := (h.net.attached src hsrc hserver).2
  refine ⟨(([⟨home src, j⟩] : List Dev).map
    (Bag.work (f.copies ch junk) (rank f role))).sum, fun s es b hinit hrun => ?_⟩
  have hs : s = ⟨[⟨home src, j⟩], []⟩ := by
    rw [show s = _ from hinit, hfirst]
    rfl
  rw [hs, Fabric.flood, hfirst] at hrun
  obtain ⟨hperm, hwork⟩ := Bag.processing_run h.ranked (fun d hd => by
    rw [Option.toList_some, List.mem_singleton] at hd
    exact hd ▸ Option.isSome_iff_exists.mpr ⟨_, hback⟩) hrun
  refine ⟨?_, fun hnil v => ?_⟩
  · exact Nat.le_of_add_left_le hwork.le
  · rw [hnil, List.flatMap_nil, List.append_nil] at hperm
    rw [hperm.count_eq]
    exact (congrArg _ (List.append_nil _)).trans (h.count_reach_up hleaf hback hserver)

/-- **Multicast reaches each member exactly once** on every spine-leaf network, whatever the order
in which the copies are received, and the forwarding ends. -/
theorem multicast_exactly_once {top : RdmaTopology} {role : Nat → Role} {home : Nat → Nat}
    (h : SpineLeaf top role home) (ord : SetOrder) {joins : List (Nat × Nat)}
    (hjoins : ∀ join ∈ joins, join.1 < top.nodes.length ∧ role join.1 = .server)
    (seed : Nat → UInt32) (ch : CustomHeader) (junk : Dev → UInt32) {src : Nat}
    (hsrc : src < top.nodes.length) (hserver : role src = .server) :
    ∃ f : Fabric, top.createNetwork = some f.net ∧ f.net.rebuild ord = some f.uplink ∧
      f.net.buildGroups joins {} = some f.groups ∧ f.ecmpSeed = seed ∧
      (∃ N, ∀ s es b, (f.flood ch junk src).init s → (f.flood ch junk src).Run s es b →
        es.length ≤ N) ∧
      ∀ b, (f.flood ch junk src).Reachable b →
        (b.todo ≠ [] → ∃ d b', (f.flood ch junk src).step b d b') ∧
        (b.todo = [] → ∀ v, b.done.count v =
          if (v, ch.dip.toNat) ∈ joins ∧ v ≠ src then 1 else 0) := by
  obtain ⟨f, hnet, hrebuild, hgroups, hseed, hlen, hf⟩ := h.exists_fabric ord hjoins seed
  obtain ⟨N, hflood⟩ := hf.flood ch junk (hlen ▸ hsrc) hserver
  refine ⟨f, hnet, hrebuild, hgroups, hseed, ⟨N, fun s es b hs hrun => (hflood s es b hs hrun).1⟩,
    ?_⟩
  rintro b ⟨s, es, hs, hrun⟩
  exact ⟨Bag.exists_step, (hflood s es b hs hrun).2⟩

/-- A spine, two leaves and a server below each of them. -/
def twoLeaves : RdmaTopology where
  nodes := [⟨0, true⟩, ⟨1, true⟩, ⟨2, true⟩, ⟨3, false⟩, ⟨4, false⟩]
  links := [⟨0, 1, 1, 1⟩, ⟨2, 0, 1, 1⟩, ⟨3, 1, 1, 1⟩, ⟨4, 2, 1, 1⟩]

def twoLeavesRole (v : Nat) : Role := if v = 0 then .spine else if v ≤ 2 then .leaf else .server

theorem twoLeaves_spineLeaf : SpineLeaf twoLeaves twoLeavesRole (· - 2) where
  kind := by decide
  spine := ⟨0, by decide⟩
  leaf := ⟨1, by decide⟩
  attached := by decide
  populated := by decide
  link u v := by
    by_cases h : u < 5 ∧ v < 5
    · obtain ⟨hu, hv⟩ := h
      exact (by decide : ∀ u < 5, ∀ v < 5, Network.linkCount twoLeaves.links u v =
        if u < 5 ∧ v < 5 ∧ joined twoLeavesRole (· - 2) u v then 1 else 0) u hu v hv
    · rw [if_neg fun h' => h ⟨h'.1, h'.2.1⟩]
      refine Nat.eq_zero_of_not_pos fun hpos => h ?_
      obtain ⟨l, hl, hends⟩ := Network.linkCount_pos.mp hpos
      have hrange : l.src < 5 ∧ l.dst < 5 :=
        (by decide : ∀ l ∈ twoLeaves.links, l.src < 5 ∧ l.dst < 5) l hl
      rcases hends with ⟨rfl, rfl⟩ | ⟨rfl, rfl⟩
      · exact hrange
      · exact hrange.symm

theorem multicast_twoLeaves : ∃ f : Fabric, twoLeaves.createNetwork = some f.net ∧
    f.net.buildGroups [(4, 7)] {} = some f.groups ∧
    ∀ b, (f.flood { dip := 7 } (fun _ => 0) 3).Reachable b → b.todo = [] → b.done.count 4 = 1 := by
  have hjoins : ∀ join ∈ [((4 : Nat), (7 : Nat))],
      join.1 < twoLeaves.nodes.length ∧ twoLeavesRole join.1 = .server := by decide
  obtain ⟨f, hnet, -, hgroups, -, -, hflood⟩ := multicast_exactly_once twoLeaves_spineLeaf
    ⟨fun _ l => l, fun _ l => .refl l⟩ hjoins (fun _ => 1) { dip := 7 } (fun _ => 0)
    (show 3 < twoLeaves.nodes.length by decide) rfl
  exact ⟨f, hnet, hgroups, fun b hb hnil => (hflood b hb).2 hnil 4⟩

end Roce
