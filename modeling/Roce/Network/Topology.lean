import Roce.Lib.Count
import Mathlib.Logic.Function.Basic
import Mathlib.Order.Nat
import Mathlib.Tactic.Common

/-! # Topologies and networks

The nodes, links and groups of a topology file, and the network that `RdmaNetwork` makes of them
(`CreateNodes`, `CreateLinks`): the net devices of every node, each with its peer. Nodes get their
ids in creation order, and the interface 0 of a node is its loopback. -/

namespace Roce

open Function

/-- `RdmaTopology::Node`. -/
structure NodeConfig where
  id : Nat := 0
  isSwitch : Bool := false
  deriving DecidableEq, Repr

/-- `RdmaTopology::Link`, in bits per second and nanoseconds. -/
structure Link where
  src : Nat := 0
  dst : Nat := 0
  bandwidth : Nat := 100000000000
  latency : Nat := 1000
  deriving DecidableEq, Repr

/-- An element of `Ranges`: a number, or all numbers from one to another. -/
inductive Ranges.Element where
  | index (n : Nat)
  | range (first last : Nat)
  deriving DecidableEq, Repr

/-- `Ranges`. -/
structure Ranges where
  wildcard : Bool := false
  elements : List Ranges.Element := []
  deriving DecidableEq, Repr

/-- `RdmaTopology::Group`, with its parsed nodes. -/
structure GroupConfig where
  id : Nat := 0
  nodes : Ranges := {}
  deriving DecidableEq, Repr

structure RdmaTopology where
  nodes : List NodeConfig
  links : List Link
  groups : List GroupConfig := []
  deriving DecidableEq, Repr

/-- A net device, by its node and its interface number. -/
structure Dev where
  node : Nat
  iface : Nat
  deriving DecidableEq, Repr

/-- What a `QbbNetDevice` knows: its peer, its data rate and the delay of its channel. -/
structure QbbNetDevice where
  peer : Dev
  dataRate : Nat
  delay : Nat
  deriving DecidableEq, Repr

/-- `RdmaNetwork::Interface`. -/
structure Interface where
  up : Bool := false
  idx : Nat := 0
  delay : Nat := 0
  bw : Nat := 0
  deriving DecidableEq, Repr

/-- `RdmaNetwork::P2pInfo`, up to what `BuildRoute` computes. -/
structure P2pInfo where
  iface : Interface := {}
  nextHops : List Nat := []
  delay : Nat := 0
  txDelay : Nat := 0
  bw : Nat := 0
  deriving DecidableEq, Repr

/-- `m_nodes` with their devices and first addresses, and `m_p2p`. -/
structure Network where
  kinds : List Bool
  devices : Nat → List QbbNetDevice := fun _ => []
  ip : Nat → Option UInt32 := fun _ => none
  p2p : Nat → Nat → Option P2pInfo := fun _ _ => none

namespace Network

/-- `IsSwitchNode`. -/
def isSwitchNode (net : Network) (v : Nat) : Bool := net.kinds.getD v false

/-- `GetPeerNetDevice`; nothing for a loopback. -/
def getPeerNetDevice (net : Network) (d : Dev) : Option Dev :=
  if d.iface = 0 then none else ((net.devices d.node)[d.iface - 1]?).map (·.peer)

/-- `GetNodeIp`. -/
def getNodeIp (id : Nat) : UInt32 :=
  (0x0b000001 + (id / 256 * 0x00010000 + id % 256 * 0x00000100)).toUInt32

/-- The address that `Ipv4AddressHelper` assigns to an end of a link. -/
def linkIp (linkId host : Nat) : UInt32 :=
  (10 * 0x01000000 + (linkId / 254 + 1) * 0x00010000 + (linkId % 254 + 1) * 0x00000100 +
    host).toUInt32

/-- A change of `m_p2p[src][dst]`, which is created if there is none. -/
def modifyInfo (p2p : Nat → Nat → Option P2pInfo) (src dst : Nat) (f : P2pInfo → P2pInfo) :
    Nat → Nat → Option P2pInfo :=
  update p2p src (update (p2p src) dst (some (f ((p2p src dst).getD {}))))

/-- `m_p2p[src][dst].iface = iface`. -/
def setIface (p2p : Nat → Nat → Option P2pInfo) (src dst : Nat) (iface : Interface) :
    Nat → Nat → Option P2pInfo :=
  modifyInfo p2p src dst fun info => { info with iface }

/-- The first address of a node: a server has the one of its id, a switch the one of its first
link. -/
def assignIp (net : Network) (v linkId host : Nat) : Nat → Option UInt32 :=
  update net.ip v (if net.isSwitchNode v then (net.ip v).or (some (linkIp linkId host))
    else some (getNodeIp v))

/-- The device that a link adds to its source. -/
def srcDev (net : Network) (link : Link) : Dev := ⟨link.src, (net.devices link.src).length + 1⟩

/-- The device that a link adds to its destination, after the one of the source. -/
def dstDev (net : Network) (link : Link) : Dev :=
  ⟨link.dst, (net.devices link.dst).length + if link.dst = link.src then 2 else 1⟩

/-- `QbbHelper::Install` on the ends of a link, and what `CreateLinks` notes about the devices. -/
def addLink (net : Network) (linkId : Nat) (link : Link) : Network where
  kinds := net.kinds
  devices v := net.devices v ++
    (if v = link.src then [⟨net.dstDev link, link.bandwidth, link.latency⟩] else []) ++
    (if v = link.dst then [⟨net.srcDev link, link.bandwidth, link.latency⟩] else [])
  ip := { net with ip := net.assignIp link.src linkId 1 }.assignIp link.dst linkId 2
  p2p :=
    setIface
      (setIface net.p2p link.src link.dst
        ⟨true, (net.srcDev link).iface, link.latency, link.bandwidth⟩)
      link.dst link.src ⟨true, (net.dstDev link).iface, link.latency, link.bandwidth⟩

/-- One turn of the loop of `CreateLinks`. It fails on an unknown node, and on the second link of
a server. -/
def createLink (net : Network) (linkId : Nat) (link : Link) : Option Network :=
  if link.src < net.kinds.length ∧ link.dst < net.kinds.length ∧
      (net.isSwitchNode link.src ∨ (net.srcDev link).iface = 1) ∧
      (net.isSwitchNode link.dst ∨ (net.dstDev link).iface = 1) then
    some (net.addLink linkId link)
  else none

/-- The loop of `CreateLinks`. -/
def createLinks : Network → Nat → List Link → Option Network
  | net, _, [] => some net
  | net, linkId, link :: links => do createLinks (← net.createLink linkId link) (linkId + 1) links

/-- `CreateNodes`. -/
def createNodes (top : RdmaTopology) : Network := { kinds := top.nodes.map (·.isSwitch) }

end Network

/-- `InitTopology`, up to `CreateLinks`. -/
def RdmaTopology.createNetwork (top : RdmaTopology) : Option Network :=
  (Network.createNodes top).createLinks 0 top.links

namespace Network

/-! ## What the links determine -/

/-- The ends of links at `u` whose other end is at `v`. -/
def linkCount (links : List Link) (u v : Nat) : Nat :=
  links.countP (fun l => l.src = u ∧ l.dst = v) + links.countP fun l => l.src = v ∧ l.dst = u

theorem linkCount_comm (links : List Link) (u v : Nat) :
    linkCount links u v = linkCount links v u :=
  Nat.add_comm ..

theorem linkCount_append (l l' : List Link) (u v : Nat) :
    linkCount (l ++ l') u v = linkCount l u v + linkCount l' u v := by
  simp only [linkCount, List.countP_append]
  omega

theorem linkCount_pos {links : List Link} :
    0 < linkCount links u v ↔ ∃ l ∈ links, (l.src = u ∧ l.dst = v) ∨ (l.src = v ∧ l.dst = u) := by
  simp only [linkCount, Nat.add_pos_iff_pos_or_pos, List.countP_pos_iff, decide_eq_true_eq]
  constructor
  · rintro (⟨l, hl, h⟩ | ⟨l, hl, h⟩)
    · exact ⟨l, hl, .inl h⟩
    · exact ⟨l, hl, .inr h⟩
  · rintro ⟨l, hl, h | h⟩
    · exact .inl ⟨l, hl, h⟩
    · exact .inr ⟨l, hl, h⟩

/-- The network of some links: the devices are wired in pairs, there is one for each end of a link,
and `m_p2p` knows one device for each neighbour. -/
structure Wired (links : List Link) (net : Network) : Prop where
  peer : ∀ {d e}, net.getPeerNetDevice d = some e → net.getPeerNetDevice e = some d
  count : ∀ u v, (net.devices u).countP (·.peer.node = v) = linkCount links u v
  range : ∀ l ∈ links, l.src < net.kinds.length ∧ l.dst < net.kinds.length
  ip : ∀ v, net.devices v ≠ [] → ∃ addr, net.ip v = some addr ∧
    (net.isSwitchNode v = false → addr = getNodeIp v)
  p2p_isSome : ∀ u v, (net.p2p u v).isSome ↔ 0 < linkCount links u v
  p2p : ∀ {u v info}, net.p2p u v = some info → info.iface.up = true ∧ info.nextHops = [] ∧
    ∃ i, net.getPeerNetDevice ⟨u, info.iface.idx⟩ = some ⟨v, i⟩

theorem createNodes_wired (top : RdmaTopology) : Wired [] (createNodes top) where
  peer h := by simp [getPeerNetDevice, createNodes] at h
  count _ _ := rfl
  range _ h := nomatch h
  ip _ h := absurd rfl h
  p2p_isSome u v := by simp [createNodes, linkCount]
  p2p h := nomatch h

theorem getElem?_append_ite {l : List α} {p : Prop} [Decidable p] :
    (l ++ if p then [a] else [])[k]? = some x ↔ l[k]? = some x ∨ (p ∧ k = l.length ∧ x = a) := by
  split
  next hp =>
    rw [List.getElem?_append]
    split
    next hk =>
      refine ⟨.inl, fun h => h.resolve_right fun h => ?_⟩
      exact absurd h.2.1 (Nat.ne_of_lt hk)
    next hk =>
      rw [List.getElem?_eq_none (Nat.le_of_not_lt hk), List.getElem?_singleton]
      constructor
      · intro h
        split at h
        next h0 =>
          cases h
          exact .inr ⟨hp, by omega, rfl⟩
        next => cases h
      · rintro (h | ⟨-, rfl, rfl⟩)
        · cases h
        · rw [Nat.sub_self, if_pos rfl]
  next hp => simp [hp]

variable {net net' : Network} {links : List Link} {link : Link}

/-- The devices before and after a link is added. -/
theorem getPeerNetDevice_addLink {d e : Dev} :
    (net.addLink linkId link).getPeerNetDevice d = some e ↔
      net.getPeerNetDevice d = some e ∨ (d = net.srcDev link ∧ e = net.dstDev link) ∨
        (d = net.dstDev link ∧ e = net.srcDev link) := by
  obtain ⟨v, i⟩ := d
  unfold getPeerNetDevice
  by_cases hi : i = 0
  · have hsrc : (⟨v, i⟩ : Dev) ≠ net.srcDev link := fun h => by
      have := congrArg Dev.iface h
      simp only [hi, srcDev] at this
      omega
    have hdst : (⟨v, i⟩ : Dev) ≠ net.dstDev link := fun h => by
      have := congrArg Dev.iface h
      simp only [hi, dstDev] at this
      split at this <;> omega
    simp [hi ▸ hsrc, hi ▸ hdst, hi]
  · have hsrc : (⟨v, i⟩ : Dev) = net.srcDev link ↔
        v = link.src ∧ i - 1 = (net.devices v).length := by
      rw [srcDev, Dev.mk.injEq]
      refine and_congr_right fun hv => ?_
      rw [hv]
      omega
    have hdst : (⟨v, i⟩ : Dev) = net.dstDev link ↔ v = link.dst ∧
        i - 1 = (net.devices v ++ if v = link.src then
          ([⟨net.dstDev link, link.bandwidth, link.latency⟩] : List QbbNetDevice)
          else []).length := by
      rw [dstDev, Dev.mk.injEq]
      refine and_congr_right fun hv => ?_
      rw [hv, List.length_append]
      split
      next => simp only [List.length_singleton]; omega
      next => simp only [List.length_nil]; omega
    rw [hsrc, hdst]
    simp only [hi, ↓reduceIte, addLink, Option.map_eq_some_iff, getElem?_append_ite]
    constructor
    · rintro ⟨a, (h | ⟨h1, h2, rfl⟩) | ⟨h1, h2, rfl⟩, rfl⟩
      · exact .inl ⟨a, h, rfl⟩
      · exact .inr (.inl ⟨⟨h1, h2⟩, rfl⟩)
      · exact .inr (.inr ⟨⟨h1, h2⟩, rfl⟩)
    · rintro (⟨a, h, rfl⟩ | ⟨⟨h1, h2⟩, rfl⟩ | ⟨⟨h1, h2⟩, rfl⟩)
      · exact ⟨a, .inl (.inl h), rfl⟩
      · exact ⟨_, .inl (.inr ⟨h1, h2, rfl⟩), rfl⟩
      · exact ⟨_, .inr ⟨h1, h2, rfl⟩, rfl⟩

theorem countP_ite_singleton {p : Prop} [Decidable p] {f : α → Bool} :
    (if p then [a] else []).countP f = if p ∧ f a then 1 else 0 := by
  by_cases hp : p
  · simp [hp, List.countP_singleton]
  · simp [hp]

theorem update_update_self {f : Nat → α → β} [DecidableEq α] {x : β} :
    update f u (update (f u) v x) u v = x := by
  rw [update_self, update_self]

theorem update_update_of_ne {f : Nat → α → β} [DecidableEq α] {x : β} (h : ¬(u = src ∧ v = dst)) :
    update f src (update (f src) dst x) u v = f u v := by
  by_cases hu : u = src
  · rw [hu, update_self, update_of_ne fun hv => h ⟨hu, hv⟩]
  · rw [update_of_ne hu]

theorem modifyInfo_self {p2p : Nat → Nat → Option P2pInfo} :
    modifyInfo p2p u v f u v = some (f ((p2p u v).getD {})) :=
  update_update_self

theorem modifyInfo_of_ne {p2p : Nat → Nat → Option P2pInfo} (h : ¬(u = src ∧ v = dst)) :
    modifyInfo p2p src dst f u v = p2p u v :=
  update_update_of_ne h

theorem setIface_eq_some {p2p : Nat → Nat → Option P2pInfo} {iface : Interface}
    (h : setIface p2p src dst iface u v = some info) :
    (u = src ∧ v = dst ∧ info = { (p2p u v).getD {} with iface }) ∨ p2p u v = some info := by
  by_cases huv : u = src ∧ v = dst
  · obtain ⟨rfl, rfl⟩ := huv
    rw [setIface, modifyInfo_self, Option.some.injEq] at h
    exact .inl ⟨rfl, rfl, h.symm⟩
  · rw [setIface, modifyInfo_of_ne huv] at h
    exact .inr h

theorem setIface_isSome {p2p : Nat → Nat → Option P2pInfo} {iface : Interface} :
    (setIface p2p src dst iface u v).isSome ↔ (p2p u v).isSome ∨ (u = src ∧ v = dst) := by
  by_cases huv : u = src ∧ v = dst
  · obtain ⟨rfl, rfl⟩ := huv
    rw [setIface, modifyInfo_self]
    simp
  · rw [setIface, modifyInfo_of_ne huv]
    simp [huv]

theorem Wired.addLink (h : Wired links net) (linkId : Nat)
    (hsrc : link.src < net.kinds.length ∧ (net.isSwitchNode link.src ∨ (net.srcDev link).iface = 1))
    (hdst : link.dst < net.kinds.length ∧
      (net.isSwitchNode link.dst ∨ (net.dstDev link).iface = 1)) :
    Wired (links ++ [link]) (net.addLink linkId link) := by
  constructor
  case peer =>
    intro d e hd
    rw [getPeerNetDevice_addLink] at hd ⊢
    rcases hd with hd | ⟨rfl, rfl⟩ | ⟨rfl, rfl⟩
    · exact .inl (h.peer hd)
    · exact .inr (.inr ⟨rfl, rfl⟩)
    · exact .inr (.inl ⟨rfl, rfl⟩)
  case count =>
    intro u v
    rw [linkCount_append, ← h.count u v]
    simp only [Network.addLink, List.countP_append, linkCount, List.countP_singleton,
      countP_ite_singleton, dstDev, srcDev, decide_eq_true_eq, Nat.add_assoc]
    refine congrArg _ (congrArg₂ _ ?_ ?_)
    · exact if_congr (and_congr eq_comm Iff.rfl) rfl rfl
    · exact if_congr (and_comm.trans (and_congr Iff.rfl eq_comm)) rfl rfl
  case range =>
    intro l hl
    rcases List.mem_append.mp hl with hl | hl
    · exact h.range l hl
    · rw [List.mem_singleton.mp hl]
      exact ⟨hsrc.1, hdst.1⟩
  case ip =>
    intro v hne
    have hip : ∀ (net : Network) w linkId host,
        v = w ∨ (∃ addr, net.ip v = some addr ∧ (net.isSwitchNode v = false → addr = getNodeIp v)) →
        ∃ addr, net.assignIp w linkId host v = some addr ∧
          (net.isSwitchNode v = false → addr = getNodeIp v) := by
      intro net w linkId host hw
      rw [assignIp, update_apply]
      split
      next heq =>
        rw [← heq]
        cases hsw : net.isSwitchNode v
        · exact ⟨_, rfl, fun _ => rfl⟩
        · cases hv : net.ip v
          · exact ⟨_, rfl, nofun⟩
          · exact ⟨_, rfl, nofun⟩
      next hne => exact hw.resolve_left hne
    refine hip { net with ip := net.assignIp link.src linkId 1 } _ _ _ ?_
    by_cases hd : v = link.dst
    · exact .inl hd
    · refine .inr (hip net _ _ _ ?_)
      by_cases hs : v = link.src
      · exact .inl hs
      · refine .inr (h.ip v fun hnil => hne ?_)
        simp [Network.addLink, hnil, hs, hd]
  case p2p_isSome =>
    intro u v
    rw [linkCount_append, Nat.add_pos_iff_pos_or_pos, ← h.p2p_isSome, linkCount_pos]
    simp only [Network.addLink, setIface_isSome, List.mem_singleton, exists_eq_left, or_assoc]
    refine or_congr_right (or_congr (and_congr eq_comm eq_comm) ?_)
    exact and_comm.trans (and_congr eq_comm eq_comm)
  case p2p =>
    intro u v info hinfo
    have hold : ∀ {w x : Nat}, ((net.p2p w x).getD {}).nextHops = [] := by
      intro w x
      cases hq : net.p2p w x
      · rfl
      · exact (h.p2p hq).2.1
    have hfirst : ∀ {iface : Interface} {w x : Nat},
        ((setIface net.p2p link.src link.dst iface w x).getD {}).nextHops = [] := by
      intro iface w x
      cases hq : setIface net.p2p link.src link.dst iface w x
      · rfl
      · rcases setIface_eq_some hq with ⟨rfl, rfl, rfl⟩ | hq
        · exact hold
        · exact (h.p2p hq).2.1
    simp only [getPeerNetDevice_addLink]
    rcases setIface_eq_some hinfo with ⟨rfl, rfl, rfl⟩ | hinfo
    · exact ⟨rfl, hfirst, _, .inr (.inr ⟨rfl, rfl⟩)⟩
    · rcases setIface_eq_some hinfo with ⟨rfl, rfl, rfl⟩ | hinfo
      · exact ⟨rfl, hold, _, .inr (.inl ⟨rfl, rfl⟩)⟩
      · obtain ⟨hup, hnext, i, hi⟩ := h.p2p hinfo
        exact ⟨hup, hnext, i, .inl hi⟩

theorem getPeerNetDevice_eq_some {d e : Dev} : net.getPeerNetDevice d = some e ↔
    d.iface ≠ 0 ∧ ∃ dev, (net.devices d.node)[d.iface - 1]? = some dev ∧ dev.peer = e := by
  unfold getPeerNetDevice
  split
  next h => simp [h]
  next h => simp [h, Option.map_eq_some_iff]

theorem Wired.linkCount_pos (h : Wired links net)
    (hpeer : net.getPeerNetDevice ⟨u, i⟩ = some ⟨v, j⟩) : 0 < linkCount links u v := by
  obtain ⟨-, dev, hdev, heq⟩ := getPeerNetDevice_eq_some.mp hpeer
  rw [← h.count]
  exact List.countP_pos_iff.mpr ⟨dev, List.mem_of_getElem? hdev, by simp [heq]⟩

theorem Wired.exists_peer (h : Wired links net) (hl : 0 < linkCount links u v) :
    ∃ i j, net.getPeerNetDevice ⟨u, i⟩ = some ⟨v, j⟩ := by
  rw [← h.count] at hl
  obtain ⟨dev, hdev, hnode⟩ := List.countP_pos_iff.mp hl
  obtain ⟨k, hk⟩ := List.mem_iff_getElem?.mp hdev
  have hv : dev.peer.node = v := by simpa using hnode
  refine ⟨k + 1, dev.peer.iface, getPeerNetDevice_eq_some.mpr ⟨Nat.succ_ne_zero k, dev, hk, ?_⟩⟩
  rw [← hv]

/-- Two ports to the same neighbour are one, if there is only one link. -/
theorem Wired.port_unique (h : Wired links net) (hl : linkCount links u v ≤ 1)
    (hi : net.getPeerNetDevice ⟨u, i⟩ = some ⟨v, k⟩)
    (hj : net.getPeerNetDevice ⟨u, j⟩ = some ⟨v, m⟩) : i = j := by
  obtain ⟨hi0, dev, hdev, hpeer⟩ := getPeerNetDevice_eq_some.mp hi
  obtain ⟨hj0, dev', hdev', hpeer'⟩ := getPeerNetDevice_eq_some.mp hj
  have hi0 : i ≠ 0 := hi0
  have hj0 : j ≠ 0 := hj0
  rw [← h.count] at hl
  have := eq_of_countP_le_one hl hdev hdev' (by simp [hpeer]) (by simp [hpeer'])
  simp only at this
  omega

theorem Wired.linkCount_pos_of_mem (h : Wired links net) {dev : QbbNetDevice}
    (hdev : dev ∈ net.devices u) : 0 < linkCount links u dev.peer.node := by
  rw [← h.count]
  exact List.countP_pos_iff.mpr ⟨dev, hdev, by simp⟩

/-! ## When `CreateLinks` does not abort -/

theorem createLink_eq_some : net.createLink k link = some net' ↔
    (link.src < net.kinds.length ∧ link.dst < net.kinds.length ∧
      (net.isSwitchNode link.src ∨ (net.srcDev link).iface = 1) ∧
      (net.isSwitchNode link.dst ∨ (net.dstDev link).iface = 1)) ∧ net.addLink k link = net' := by
  rw [createLink]
  exact Option.ite_none_right_eq_some.trans (and_congr_right fun _ => Option.some_inj)

/-- What every link preserves holds of the network of all links. -/
theorem createLinks_invariant {I : List Link → Network → Prop}
    (hstep : ∀ {links net k link net'}, I links net → net.createLink k link = some net' →
      I (links ++ [link]) net')
    (h : net.createLinks k ls = some net') (hI : I links net) : I (links ++ ls) net' := by
  induction ls generalizing links net k with
  | nil =>
    cases h
    rwa [List.append_nil]
  | cons l ls ih =>
    obtain ⟨net₁, hnet₁, h⟩ := Option.bind_eq_some_iff.mp h
    rw [List.append_cons]
    exact ih h (hstep hI hnet₁)

theorem Wired.createLink (h : Wired links net) (hnet : net.createLink k link = some net') :
    Wired (links ++ [link]) net' := by
  obtain ⟨⟨hsrc, hdst, hsrc1, hdst1⟩, rfl⟩ := createLink_eq_some.mp hnet
  exact h.addLink k ⟨hsrc, hsrc1⟩ ⟨hdst, hdst1⟩

theorem createLink_kinds (hnet : net.createLink k link = some net') : net'.kinds = net.kinds := by
  obtain ⟨-, rfl⟩ := createLink_eq_some.mp hnet
  rfl

/-- Each server has at most one device. -/
def SingleHomed (net : Network) : Prop :=
  ∀ v, net.isSwitchNode v = false → (net.devices v).length ≤ 1

theorem SingleHomed.createLink (h : SingleHomed net) (hnet : net.createLink k link = some net') :
    SingleHomed net' := by
  obtain ⟨⟨-, -, hsrc, hdst⟩, rfl⟩ := createLink_eq_some.mp hnet
  intro v hv
  have hv : net.isSwitchNode v = false := hv
  have hold := h v hv
  -- a server that gets a device had none
  have hnil : ∀ {w n}, v = w → (net.isSwitchNode w ∨ (net.devices w).length + n = 1) →
      (net.devices v).length + n = 1 := by
    rintro w n rfl (hsw | hone)
    · exact absurd hsw (Bool.eq_false_iff.mp hv)
    · exact hone
  simp only [Network.addLink, List.length_append]
  by_cases hs : v = link.src
  · have hs1 := hnil hs hsrc
    by_cases hd : v = link.dst
    · have hd1 := hnil hd hdst
      rw [if_pos (hd.symm.trans hs)] at hd1
      omega
    · rw [if_pos hs, if_neg hd, List.length_singleton, List.length_nil]
      omega
  · by_cases hd : v = link.dst
    · have hd1 := hnil hd hdst
      rw [if_neg fun heq => hs (hd.trans heq)] at hd1
      rw [if_neg hs, if_pos hd, List.length_singleton, List.length_nil]
      omega
    · rw [if_neg hs, if_neg hd, List.length_nil]
      omega

/-- Each server is not linked to itself, since it has only one device. -/
theorem SingleHomed.linkCount_self (h : SingleHomed net) (hw : Wired links net)
    (hv : net.isSwitchNode v = false) : linkCount links v v = 0 := by
  have hle : linkCount links v v ≤ 1 := by
    rw [← hw.count]
    exact List.countP_le_length.trans (h v hv)
  rw [linkCount] at hle ⊢
  omega

end Network

/-- The network of a topology, when `CreateLinks` does not abort. -/
theorem RdmaTopology.createNetwork_wired {top : RdmaTopology} {net : Network}
    (h : top.createNetwork = some net) :
    net.Wired top.links ∧ net.SingleHomed ∧ net.kinds = top.nodes.map (·.isSwitch) := by
  refine Network.createLinks_invariant (I := fun links net =>
    net.Wired links ∧ net.SingleHomed ∧ net.kinds = top.nodes.map (·.isSwitch)) ?_ h
    ⟨Network.createNodes_wired top, fun _ _ => Nat.zero_le _, rfl⟩
  rintro links net k link net' ⟨hw, hone, hkinds⟩ hnet
  exact ⟨hw.createLink hnet, hone.createLink hnet, (Network.createLink_kinds hnet).trans hkinds⟩

/-! ## Simple topologies -/

namespace RdmaTopology

open Network

def isSwitch (top : RdmaTopology) (v : Nat) : Bool := (top.nodes.map (·.isSwitch)).getD v false

/-- A simple graph where each server has exactly one link. -/
structure Simple (top : RdmaTopology) : Prop where
  range : ∀ l ∈ top.links, l.src < top.nodes.length ∧ l.dst < top.nodes.length
  loop : ∀ l ∈ top.links, l.src ≠ l.dst
  link : ∀ u v, linkCount top.links u v ≤ 1
  server : ∀ v < top.nodes.length, top.isSwitch v = false →
    ∃ u, linkCount top.links v u = 1 ∧ ∀ w, 0 < linkCount top.links v w → w = u

variable {top : RdmaTopology} {net : Network}

theorem length_kinds (hk : net.kinds = top.nodes.map (·.isSwitch)) :
    net.kinds.length = top.nodes.length := by rw [hk, List.length_map]

theorem isSwitchNode_eq (hk : net.kinds = top.nodes.map (·.isSwitch)) :
    net.isSwitchNode = top.isSwitch := by
  funext v
  rw [isSwitchNode, isSwitch, hk]

/-- A server has no device before its only link. -/
theorem Simple.devices_eq_nil (h : top.Simple) (hpre : top.links = pre ++ l :: post)
    (hw : Wired pre net) (hv : v < top.nodes.length) (hs : top.isSwitch v = false)
    (hl : 0 < linkCount [l] v w) : net.devices v = [] := by
  obtain ⟨u, -, honly⟩ := h.server v hv hs
  have hsplit : ∀ x, linkCount top.links v x =
      linkCount pre v x + (linkCount [l] v x + linkCount post v x) := by
    intro x
    rw [hpre, linkCount_append, ← linkCount_append [l]]
    rfl
  cases hdev : net.devices v
  · rfl
  next dev devs =>
    have hcount := hw.count v dev.peer.node
    rw [hdev, List.countP_cons_of_pos (by simp)] at hcount
    have hpeer := hsplit dev.peer.node
    have hsum := hsplit w
    have hw : w = u := honly w (by omega)
    have hdev : dev.peer.node = u := honly dev.peer.node (by omega)
    rw [hdev] at hcount
    rw [hw] at hl hsum
    have hle := h.link v u
    omega

theorem Simple.createLinks {ls : List Link} (h : top.Simple) (hpre : top.links = pre ++ ls)
    (hw : Wired pre net) (hk : net.kinds = top.nodes.map (·.isSwitch)) :
    ∃ net', net.createLinks k ls = some net' ∧ Wired top.links net' ∧
      net'.kinds = top.nodes.map (·.isSwitch) := by
  induction ls generalizing pre net k with
  | nil => exact ⟨net, rfl, by rwa [hpre, List.append_nil], hk⟩
  | cons l ls ih =>
    have hmem : l ∈ top.links := by simp [hpre]
    obtain ⟨hs, hd⟩ := h.range l hmem
    have hlen := length_kinds hk
    have hkind := congrFun (isSwitchNode_eq hk)
    have hnil : ∀ v w, v < top.nodes.length → 0 < linkCount [l] v w → net.isSwitchNode v = true ∨
        net.devices v = [] := by
      intro v w hv hl
      cases hsw : top.isSwitch v
      · exact .inr (h.devices_eq_nil hpre hw hv hsw hl)
      · exact .inl ((hkind v).trans hsw)
    have hsrc : net.isSwitchNode l.src ∨ (net.srcDev l).iface = 1 := by
      refine (hnil l.src l.dst hs ?_).imp id fun hnil => ?_
      · exact linkCount_pos.mpr ⟨l, List.mem_singleton_self l, .inl ⟨rfl, rfl⟩⟩
      · rw [srcDev, hnil]
        rfl
    have hdst : net.isSwitchNode l.dst ∨ (net.dstDev l).iface = 1 := by
      refine (hnil l.dst l.src hd ?_).imp id fun hnil => ?_
      · exact linkCount_pos.mpr ⟨l, List.mem_singleton_self l, .inr ⟨rfl, rfl⟩⟩
      · rw [dstDev, hnil, if_neg (h.loop l hmem).symm]
        rfl
    rw [← hlen] at hs hd
    obtain ⟨net', hnet, hrest⟩ := ih (k := k + 1)
      (by rw [hpre, List.append_assoc, List.singleton_append])
      (hw.addLink k ⟨hs, hsrc⟩ ⟨hd, hdst⟩) hk
    refine ⟨net', ?_, hrest⟩
    rw [Network.createLinks, createLink, if_pos ⟨hs, hd, hsrc, hdst⟩]
    exact hnet

theorem Simple.createNetwork (h : top.Simple) : ∃ net, top.createNetwork = some net ∧
    Wired top.links net ∧ net.kinds = top.nodes.map (·.isSwitch) :=
  h.createLinks rfl (createNodes_wired top) rfl

end RdmaTopology
end Roce
