import Mathlib.Data.Rat.Floor
import Roce.Network.SpineLeaf

/-! # The generator of spine-leaf topologies

The class `Topology` of `spineleaf.py`, and `set_spineleaf_topology`, which sets its fields. The
class makes the topology that its fields ask for. The number of leaves is not one of the fields that
are set: the caller sets `n_leaf`, and the class reads `n_leafs`. -/

namespace Roce

structure Style where
  serverXpadding : ℚ := 2
  serverXmargin : ℚ := 2
  serverYmargin : ℚ := 4
  leafYmargin : ℚ := 5

/-- `Config`, in bits per second and in seconds. -/
structure SpineLeafConfig where
  spineBw : ℚ := 400000000000
  serverBw : ℚ := 100000000000
  linkLatency : ℚ := 1 / 1000000

/-! ## What is generated -/

structure JsonNode where
  id : Nat
  isSwitch : Bool
  x : ℚ
  y : ℚ

structure JsonLink where
  src : Nat
  dst : Nat
  bandwidth : ℚ
  latency : ℚ
  errorRate : ℚ

structure TopologyJson where
  nodes : List JsonNode
  groups : List GroupConfig
  links : List JsonLink

/-- The topology as the simulator reads it. -/
def TopologyJson.toRdmaTopology (json : TopologyJson) : RdmaTopology where
  nodes := json.nodes.map fun n => { id := n.id, isSwitch := n.isSwitch }
  links := json.links.map fun l => {
    src := l.src, dst := l.dst
    bandwidth := ⌊l.bandwidth⌋.toNat, latency := ⌊l.latency * (1000000000 : ℚ)⌋.toNat }
  groups := json.groups

/-! ## The class -/

/-- `Topology`. No method reads `n_leaf`, the attribute that `set_spineleaf_topology` adds. -/
structure SpineLeafTopology where
  config : SpineLeafConfig := {}
  style : Style := {}
  nServersPerLeaf : Nat := 4
  nLeafs : Nat := 4
  nSpines : Nat := 2
  nLeaf : Option Nat := none

/-- The variables of the loop in `_make_servers`. -/
structure ServerLoop where
  servers : List JsonNode
  id : Nat
  x : ℚ

/-- The variables of the loop over the leaves in `_make_switches`. -/
structure LeafLoop where
  sw : List JsonNode
  links : List JsonLink
  x : ℚ
  lastX : Option ℚ

/-- The id of a node, and whether it is a switch. -/
def JsonNode.key (n : JsonNode) : Nat × Bool := (n.id, n.isSwitch)

/-- The ends of a link. -/
def JsonLink.ends (l : JsonLink) : Nat × Nat := (l.src, l.dst)

namespace SpineLeafTopology

variable (t : SpineLeafTopology)

def nServers : Nat := t.nServersPerLeaf * t.nLeafs

def firstServer : Nat := t.nLeafs + t.nSpines

def firstLeaf : Nat := t.nSpines

def leafOfServer (server : Nat) : Nat :=
  t.firstLeaf + (server - t.firstServer) / t.nServersPerLeaf

def servers : List Nat := List.range' t.firstServer t.nServers

def isServer (id : Nat) : Bool := id ≥ t.firstServer

/-- `_make_link`. -/
def makeLink (src dst : Nat) : JsonLink where
  src := src
  dst := dst
  bandwidth := if t.isServer src || t.isServer dst then t.config.serverBw else t.config.spineBw
  latency := t.config.linkLatency
  errorRate := 0

/-- A server of `_make_servers`. -/
def makeServer (s : ServerLoop) : ServerLoop where
  servers := s.servers ++ [{ id := s.id, isSwitch := false, x := s.x, y := 0 }]
  id := s.id + 1
  x := s.x + t.style.serverXpadding

/-- The servers of a leaf. -/
def makeLeafServers (s : ServerLoop) (_leaf : Nat) : ServerLoop :=
  let s := (List.range t.nServersPerLeaf).foldl (fun s _ => t.makeServer s) s
  { s with x := s.x + t.style.serverXmargin }

/-- `_make_servers`. -/
def makeServers : List JsonNode :=
  ((List.range t.nLeafs).foldl t.makeLeafServers
    { servers := [], id := t.firstServer, x := 0 }).servers

/-- The links of a leaf to the spines. -/
def leafLinks (leaf : Nat) : List JsonLink :=
  (List.range t.nSpines).map (t.makeLink (t.nSpines + leaf))

/-- A leaf of `_make_switches`. -/
def makeLeaf (s : LeafLoop) (leaf : Nat) : LeafLoop where
  sw := s.sw ++ [{ id := t.nSpines + leaf, isSwitch := true, x := s.x, y := t.style.serverYmargin }]
  links := s.links ++ t.leafLinks leaf
  x := s.x + (t.nServersPerLeaf * t.style.serverXpadding + t.style.serverXmargin)
  lastX := some s.x

def firstX : ℚ := (t.nServersPerLeaf - 1) * t.style.serverXpadding / 2

/-- A spine of `_make_switches`, with its coordinate of `np.linspace`. -/
def makeSpine (lastX : ℚ) (spine : Nat) : JsonNode where
  id := spine
  isSwitch := true
  x := t.firstX + (spine + 1) * ((lastX - t.firstX) / (t.nSpines + 1))
  y := t.style.serverYmargin + t.style.leafYmargin

/-- The loop over the leaves. -/
def leafLoop : LeafLoop :=
  (List.range t.nLeafs).foldl t.makeLeaf { sw := [], links := [], x := t.firstX, lastX := none }

/-- `_make_switches`. Without leaves, `last_x` has no value. -/
def makeSwitches : Option (List JsonNode × List JsonLink) :=
  t.leafLoop.lastX.map fun lastX =>
    (t.leafLoop.sw ++ (List.range t.nSpines).map (t.makeSpine lastX),
      t.leafLoop.links ++ t.servers.map fun server => t.makeLink (t.leafOfServer server) server)

/-- `to_json`. -/
def toJson : Option TopologyJson :=
  t.makeSwitches.map fun (sw, links) => { nodes := sw ++ t.makeServers, groups := [], links }

end SpineLeafTopology

/-- The topology of a `Model`. -/
structure AnalysisModel where
  topo : Option TopologyJson := none

/-- `set_spineleaf_topology`. -/
def setSpineleafTopology (model : AnalysisModel) (nSpines nLeafs nServersPerLeaf : Nat) :
    Option AnalysisModel := do
  let topo : SpineLeafTopology := { nServersPerLeaf, nLeaf := some nLeafs, nSpines }
  let json ← topo.toJson
  return { model with topo := some json }

/-! ## The ids and the links -/

namespace SpineLeafTopology

variable (t : SpineLeafTopology)

/-- The servers of a leaf are numbered from the next id on. -/
theorem foldl_makeServer (l : List Nat) (s : ServerLoop) :
    (l.foldl (fun s _ => t.makeServer s) s).id = s.id + l.length ∧
      (l.foldl (fun s _ => t.makeServer s) s).servers.map JsonNode.key =
        s.servers.map JsonNode.key ++ (List.range' s.id l.length).map (·, false) := by
  induction l using List.reverseRecOn with
  | nil => simp
  | append_singleton l x ih =>
    obtain ⟨hid, hservers⟩ := ih
    rw [List.foldl_concat, makeServer, hid]
    constructor
    · simp [Nat.add_assoc]
    · dsimp only
      rw [List.map_append, hservers, List.length_append, List.length_singleton, List.range'_concat]
      simp [JsonNode.key]

theorem foldl_makeServers (l : List Nat) (s : ServerLoop) :
    (l.foldl t.makeLeafServers s).id = s.id + t.nServersPerLeaf * l.length ∧
      (l.foldl t.makeLeafServers s).servers.map JsonNode.key = s.servers.map JsonNode.key ++
        (List.range' s.id (t.nServersPerLeaf * l.length)).map (·, false) := by
  induction l using List.reverseRecOn with
  | nil => simp
  | append_singleton l leaf ih =>
    obtain ⟨hid, hservers⟩ := ih
    obtain ⟨hid', hservers'⟩ := t.foldl_makeServer (List.range t.nServersPerLeaf)
      (l.foldl t.makeLeafServers s)
    rw [List.foldl_concat, makeLeafServers, hid', hservers', hid, hservers, List.length_range,
      List.length_append, List.length_singleton, Nat.mul_add, Nat.mul_one]
    refine ⟨Nat.add_assoc .., ?_⟩
    rw [List.append_assoc, ← List.map_append, List.range'_append_1]

theorem key_makeServers : t.makeServers.map JsonNode.key = t.servers.map (·, false) := by
  obtain ⟨-, hservers⟩ := t.foldl_makeServers (List.range t.nLeafs)
    { servers := [], id := t.firstServer, x := 0 }
  rw [makeServers, hservers, List.length_range]
  rfl

/-- The leaves, their links, and the coordinate of the last one. -/
theorem foldl_makeLeaf (l : List Nat) (s : LeafLoop) :
    (l.foldl t.makeLeaf s).sw.map JsonNode.key =
        s.sw.map JsonNode.key ++ l.map (t.nSpines + ·, true) ∧
      (l.foldl t.makeLeaf s).links = s.links ++ l.flatMap t.leafLinks ∧
      (l ≠ [] → (l.foldl t.makeLeaf s).lastX.isSome) := by
  induction l using List.reverseRecOn with
  | nil => simp
  | append_singleton l leaf ih =>
    obtain ⟨hsw, hlinks, -⟩ := ih
    rw [List.foldl_concat]
    refine ⟨?_, ?_, fun _ => rfl⟩
    · simp [makeLeaf, hsw, JsonNode.key]
    · simp [makeLeaf, hlinks]

/-- The ends of all links. -/
def pairs : List (Nat × Nat) :=
  (List.range' t.nSpines t.nLeafs).product (List.range t.nSpines) ++
    t.servers.map fun server => (t.leafOfServer server, server)

/-- The ids of the leaves, the spines and the servers, and whether they are switches. -/
def keys : List (Nat × Bool) :=
  (List.range t.nLeafs).map (t.nSpines + ·, true) ++ (List.range t.nSpines).map (·, true) ++
    t.servers.map (·, false)

/-- **What the class generates**: its nodes and links. -/
theorem exists_toJson (h : 0 < t.nLeafs) : ∃ json, t.toJson = some json ∧
    json.nodes.map JsonNode.key = t.keys ∧ json.links.map JsonLink.ends = t.pairs ∧
    json.groups = [] := by
  obtain ⟨hsw, hlinks, hlast⟩ := t.foldl_makeLeaf (List.range t.nLeafs)
    { sw := [], links := [], x := t.firstX, lastX := none }
  obtain ⟨lastX, hlastX⟩ := Option.isSome_iff_exists.mp (hlast (by simpa using h.ne'))
  have hlastX : t.leafLoop.lastX = some lastX := hlastX
  simp only [toJson, makeSwitches, hlastX, Option.map_some, Option.some.injEq, exists_eq_left']
  refine ⟨?_, ?_, trivial⟩
  · rw [List.map_append, List.map_append, key_makeServers, leafLoop, hsw, List.map_nil,
      List.nil_append, List.map_map]
    rfl
  · rw [List.map_append, leafLoop, hlinks, List.nil_append, pairs, List.map_flatMap, List.map_map]
    refine congrArg₂ _ ?_ rfl
    rw [List.product, List.range'_eq_map_range, List.flatMap_map]
    apply List.flatMap_congr
    intro leaf _
    rw [leafLinks, List.map_map]
    rfl

/-! ## A spine-leaf topology -/

/-- The spines have the first ids, then come the leaves and the servers. -/
def role (v : Nat) : Role :=
  if v < t.nSpines then .spine else if v < t.firstServer then .leaf else .server

variable {t} {u v : Nat}

theorem role_spine : t.role v = .spine ↔ v < t.nSpines := by
  unfold role
  split
  · simp [*]
  · split <;> simp [*]

theorem role_leaf : t.role v = .leaf ↔ t.nSpines ≤ v ∧ v < t.firstServer := by
  unfold role
  split
  · simp
    omega
  · split <;> simp <;> omega

theorem role_server : t.role v = .server ↔ t.firstServer ≤ v := by
  unfold role firstServer
  split
  · simp
    omega
  · split <;> simp <;> omega

/-- The number of nodes. -/
def nNodes (t : SpineLeafTopology) : Nat := t.firstServer + t.nServers

theorem lt_nNodes (h : t.role v ≠ .server) : v < t.nNodes := by
  have hlt : v < t.firstServer := Nat.lt_of_not_le fun hle => h (role_server.mpr hle)
  exact hlt.trans_le (Nat.le_add_right ..)

theorem mem_servers : v ∈ t.servers ↔ t.role v = .server ∧ v < t.nNodes := by
  rw [servers, List.mem_range'_1, role_server, nNodes]

/-- A server has one of the leaves. -/
theorem role_leafOfServer (hv : v ∈ t.servers) : t.role (t.leafOfServer v) = .leaf := by
  obtain ⟨hge, hlt⟩ := List.mem_range'_1.mp hv
  have hdiv : (v - t.firstServer) / t.nServersPerLeaf < t.nLeafs :=
    Nat.div_lt_of_lt_mul (by rw [nServers] at hlt; omega)
  have hfirst : t.firstServer = t.nLeafs + t.nSpines := rfl
  rw [role_leaf, leafOfServer, firstLeaf]
  generalize (v - t.firstServer) / t.nServersPerLeaf = leaf at hdiv
  omega

theorem mem_pairs : (u, v) ∈ t.pairs ↔ t.role u = .leaf ∧
    (t.role v = .spine ∨ t.role v = .server ∧ v < t.nNodes ∧ t.leafOfServer v = u) := by
  have hleaf : u ∈ List.range' t.nSpines t.nLeafs ↔ t.role u = .leaf := by
    rw [List.mem_range'_1, role_leaf, firstServer, Nat.add_comm t.nSpines]
  have hspine : v ∈ List.range t.nSpines ↔ t.role v = .spine := by rw [List.mem_range, role_spine]
  rw [pairs, List.mem_append, List.pair_mem_product, hleaf, hspine, List.mem_map]
  simp only [Prod.mk_inj, exists_eq_right_right, and_or_left]
  refine or_congr_right ⟨fun ⟨hv, heq⟩ => ?_, fun ⟨_, hrole, hlt, heq⟩ => ?_⟩
  · obtain ⟨hrole, hlt⟩ := mem_servers.mp hv
    exact ⟨heq ▸ role_leafOfServer hv, hrole, hlt, heq⟩
  · exact ⟨mem_servers.mpr ⟨hrole, hlt⟩, heq⟩

theorem nodup_pairs (t : SpineLeafTopology) : t.pairs.Nodup := by
  refine List.nodup_append.mpr ⟨List.Nodup.product List.nodup_range' List.nodup_range, ?_, ?_⟩
  · exact List.Nodup.map_on (fun _ _ _ _ heq => congrArg Prod.snd heq) List.nodup_range'
  · rintro ⟨u, v⟩ hleaf _ hserver rfl
    obtain ⟨server, hs, heq⟩ := List.mem_map.mp hserver
    obtain rfl : server = v := congrArg Prod.snd heq
    have hspine := role_spine.mpr (List.mem_range.mp (List.pair_mem_product.mp hleaf).2)
    rw [(mem_servers.mp hs).1] at hspine
    cases hspine

/-- One link for each leaf and spine, and one for each server. -/
theorem linkCount_eq {links : List Link} (h : links.map (fun l => (l.src, l.dst)) = t.pairs)
    (u v : Nat) :
    Network.linkCount links u v =
      if u < t.nNodes ∧ v < t.nNodes ∧ joined t.role t.leafOfServer u v then 1 else 0 := by
  have hcount : ∀ a b, links.countP (fun l => l.src = a ∧ l.dst = b) =
      if (a, b) ∈ t.pairs then 1 else 0 := by
    intro a b
    have hpair : t.pairs.count (a, b) = links.countP (fun l => l.src = a ∧ l.dst = b) := by
      rw [← h, List.count, List.countP_map]
      exact List.countP_congr fun l _ => by simp
    rw [← hpair]
    split
    next hmem => exact List.count_eq_one_of_mem t.nodup_pairs hmem
    next hmem => exact List.count_eq_zero_of_not_mem hmem
  have hlt : ∀ w, t.role w = .leaf ∨ t.role w = .spine → w < t.nNodes := by
    rintro w (hw | hw) <;> exact lt_nNodes (by simp [hw])
  rw [Network.linkCount, hcount, hcount]
  cases hu : t.role u <;> cases hv : t.role v <;> simp [mem_pairs, joined, hu, hv, hlt]

/-- Each leaf has its servers. -/
theorem countP_leafOfServer (hleaf : t.role w = .leaf) : (List.range t.nNodes).countP
    (fun v => t.role v = .server ∧ t.leafOfServer v = w) = t.nServersPerLeaf := by
  obtain ⟨leaf, rfl⟩ := Nat.exists_eq_add_of_le (role_leaf.mp hleaf).1
  have hlt : leaf < t.nLeafs := by
    have hlt := (role_leaf.mp hleaf).2
    rw [firstServer] at hlt
    omega
  have hle : leaf * t.nServersPerLeaf + t.nServersPerLeaf ≤ t.nServers := by
    rw [nServers, Nat.mul_comm t.nServersPerLeaf, ← Nat.succ_mul]
    exact Nat.mul_le_mul_right _ hlt
  have hinterval := countP_range (t.firstServer + leaf * t.nServersPerLeaf)
    (t.firstServer + leaf * t.nServersPerLeaf + t.nServersPerLeaf) t.nNodes
  have hcongr : ∀ v ∈ List.range t.nNodes,
      (decide (t.role v = .server ∧ t.leafOfServer v = t.nSpines + leaf) = true ↔
        decide (t.firstServer + leaf * t.nServersPerLeaf ≤ v ∧
          v < t.firstServer + leaf * t.nServersPerLeaf + t.nServersPerLeaf) = true) := by
    intro v hv
    have hv : v < t.firstServer + t.nServers := List.mem_range.mp hv
    rw [decide_eq_true_iff, decide_eq_true_iff, role_server, leafOfServer, firstLeaf,
      Nat.add_left_cancel_iff]
    rcases Nat.eq_zero_or_pos t.nServersPerLeaf with hzero | hpos
    · have hnone : t.nServers = 0 := by rw [nServers, hzero, Nat.zero_mul]
      omega
    · rw [Nat.div_eq_iff hpos]
      omega
  rw [List.countP_congr hcongr, hinterval, nNodes]
  omega

end SpineLeafTopology

/-- The topology with `s` spines, `l` leaves and `p` servers below each leaf: the ids, each used
once, and the links, where each node has a role and each server a leaf. -/
structure SpineLeafJson (s l p : Nat) (json : TopologyJson) (role : Nat → Role) (home : Nat → Nat) :
    Prop where
  ids : (json.nodes.map (·.id)).Perm (List.range (s + l + l * p))
  flag : ∀ n ∈ json.nodes, n.isSwitch = true ↔ role n.id ≠ .server
  spines : (List.range (s + l + l * p)).countP (role · = .spine) = s
  leafs : (List.range (s + l + l * p)).countP (role · = .leaf) = l
  servers : (List.range (s + l + l * p)).countP (role · = .server) = l * p
  attached : ∀ v < s + l + l * p, role v = .server → home v < s + l + l * p ∧ role (home v) = .leaf
  perLeaf : ∀ w < s + l + l * p, role w = .leaf →
    (List.range (s + l + l * p)).countP (fun v => role v = .server ∧ home v = w) = p
  link : ∀ u v, Network.linkCount json.toRdmaTopology.links u v =
    if u < s + l + l * p ∧ v < s + l + l * p ∧ joined role home u v then 1 else 0

namespace SpineLeafTopology

variable {t : SpineLeafTopology} {nodes : List JsonNode}

/-- The ids are used once each. -/
theorem perm_ids (hnodes : nodes.map JsonNode.key = t.keys) :
    (nodes.map (·.id)).Perm (List.range t.nNodes) := by
  have hfst : nodes.map (·.id) = (nodes.map JsonNode.key).map Prod.fst := by
    rw [List.map_map]
    rfl
  have hids : nodes.map (·.id) =
      List.range' t.nSpines t.nLeafs ++ List.range t.nSpines ++ t.servers := by
    rw [hfst, hnodes, keys, List.range'_eq_map_range]
    simp [Function.comp_def]
  have hrange : List.range t.nNodes =
      List.range t.nSpines ++ List.range' t.nSpines t.nLeafs ++ t.servers := by
    have hfirst : List.range t.firstServer =
        List.range t.nSpines ++ List.range' t.nSpines t.nLeafs := by
      rw [firstServer, Nat.add_comm, List.range_eq_range', List.range_eq_range']
      simpa using (List.range'_append_1 (s := 0) (m := t.nSpines) (n := t.nLeafs)).symm
    rw [nNodes, servers, ← hfirst, List.range_eq_range', List.range_eq_range']
    simpa using (List.range'_append_1 (s := 0) (m := t.firstServer) (n := t.nServers)).symm
  rw [hids, hrange]
  exact List.perm_append_comm.append_right _

theorem isSwitch_iff (hnodes : nodes.map JsonNode.key = t.keys) (hn : n ∈ nodes) :
    n.isSwitch = true ↔ t.role n.id ≠ .server := by
  have hkey : n.key ∈ t.keys := hnodes ▸ List.mem_map_of_mem hn
  rw [keys, List.mem_append, List.mem_append, List.mem_map, List.mem_map, List.mem_map] at hkey
  rcases hkey with (⟨leaf, hmem, hkey⟩ | ⟨spine, hmem, hkey⟩) | ⟨server, hmem, hkey⟩
  · obtain ⟨hid, hsw⟩ := Prod.mk_inj.mp hkey
    have hr : t.role n.id = .leaf := by
      have hlt := List.mem_range.mp hmem
      rw [role_leaf, firstServer, ← hid]
      omega
    simp [← hsw, hr]
  · obtain ⟨hid, hsw⟩ := Prod.mk_inj.mp hkey
    have hr : t.role n.id = .spine := role_spine.mpr (hid ▸ List.mem_range.mp hmem)
    simp [← hsw, hr]
  · obtain ⟨hid, hsw⟩ := Prod.mk_inj.mp hkey
    have hr : t.role n.id = .server := (mem_servers.mp (hid ▸ hmem)).1
    simp [← hsw, hr]

/-- The switches come first. -/
theorem map_snd_keys (t : SpineLeafTopology) : t.keys.map Prod.snd =
    List.replicate t.firstServer true ++ List.replicate t.nServers false := by
  have h : t.keys.map Prod.snd = List.replicate t.nLeafs true ++
      (List.replicate t.nSpines true ++ List.replicate t.nServers false) := by
    simp [keys, servers, Function.comp_def]
  rw [h, firstServer, List.replicate_add, List.append_assoc]

/-- The nodes of a role have an interval of the ids. -/
theorem countP_role (t : SpineLeafTopology) {r : Role}
    (h : ∀ v < t.nNodes, (t.role v = r ↔ a ≤ v ∧ v < b)) :
    (List.range t.nNodes).countP (t.role · = r) = min t.nNodes b - a := by
  rw [← countP_range]
  exact List.countP_congr fun v hv => by simpa using h v (List.mem_range.mp hv)

theorem nNodes_eq (t : SpineLeafTopology) :
    t.nSpines + t.nLeafs + t.nLeafs * t.nServersPerLeaf = t.nNodes := by
  rw [nNodes, firstServer, nServers, Nat.mul_comm t.nLeafs, Nat.add_comm t.nSpines]

/-- Without leaves there is no topology. -/
theorem pos_nLeafs (h : t.toJson = some json) : 0 < t.nLeafs := by
  apply Nat.pos_of_ne_zero
  intro hzero
  simp [toJson, makeSwitches, leafLoop, hzero] at h

/-- **The class generates a spine-leaf topology** with the numbers in its fields. -/
theorem spineLeafJson (h : t.toJson = some json) :
    SpineLeafJson t.nSpines t.nLeafs t.nServersPerLeaf json t.role t.leafOfServer := by
  obtain ⟨json', hjson, hnodes, hlinks, -⟩ := t.exists_toJson (pos_nLeafs h)
  obtain rfl : json' = json := Option.some.inj (hjson.symm.trans h)
  have hN := t.nNodes_eq
  constructor
  case ids => exact hN ▸ perm_ids hnodes
  case flag => exact fun n hn => isSwitch_iff hnodes hn
  case spines =>
    rw [hN, t.countP_role fun v _ => role_spine.trans (and_iff_right (Nat.zero_le v)).symm, ← hN]
    omega
  case leafs =>
    rw [hN, t.countP_role fun v _ => role_leaf, ← hN, firstServer]
    omega
  case servers =>
    rw [hN, t.countP_role fun v hv => role_server.trans (and_iff_left hv).symm, nNodes, nServers,
      Nat.mul_comm t.nLeafs]
    omega
  case attached =>
    intro v hv hr
    rw [hN] at hv ⊢
    have hleaf := role_leafOfServer (mem_servers.mpr ⟨hr, hv⟩)
    exact ⟨lt_nNodes (by simp [hleaf]), hleaf⟩
  case perLeaf =>
    rw [hN]
    exact fun w _ hw => countP_leafOfServer hw
  case link =>
    rw [hN]
    refine linkCount_eq ?_
    rw [← hlinks, TopologyJson.toRdmaTopology, List.map_map]
    rfl

/-- The simulator gets a spine-leaf network, on which multicast reaches each member once. -/
theorem spineLeaf (h : t.toJson = some json)
    (hs : 1 ≤ t.nSpines) (hp : 1 ≤ t.nServersPerLeaf) :
    SpineLeaf json.toRdmaTopology t.role t.leafOfServer := by
  have hleafs := pos_nLeafs h
  have hgenerated := spineLeafJson h
  obtain ⟨json', hjson, hnodes, -, -⟩ := t.exists_toJson hleafs
  obtain rfl : json' = json := Option.some.inj (hjson.symm.trans h)
  have hlen : json'.toRdmaTopology.nodes.length = t.nNodes := by
    simpa [TopologyJson.toRdmaTopology] using (perm_ids hnodes).length_eq
  have hswitch : json'.toRdmaTopology.nodes.map (·.isSwitch) = t.keys.map Prod.snd := by
    rw [← hnodes, TopologyJson.toRdmaTopology, List.map_map, List.map_map]
    rfl
  constructor
  case kind =>
    intro v hv
    rw [RdmaTopology.isSwitch, hswitch, t.map_snd_keys, ne_eq, role_server, Nat.not_le,
      List.getD_eq_getElem?_getD, List.getElem?_append, List.length_replicate]
    split
    next hlt => simp [hlt]
    next hge =>
      have hlt : v - t.firstServer < t.nServers := by
        rw [hlen, nNodes] at hv
        omega
      simp [hlt, hge]
  case spine =>
    have hr : t.role 0 = .spine := role_spine.mpr hs
    exact ⟨0, hlen ▸ lt_nNodes (by simp [hr]), hr⟩
  case leaf =>
    have hr : t.role t.nSpines = .leaf := role_leaf.mpr ⟨le_refl _, by rw [firstServer]; omega⟩
    exact ⟨t.nSpines, hlen ▸ lt_nNodes (by simp [hr]), hr⟩
  case attached =>
    intro v hv hr
    have hleaf := role_leafOfServer (mem_servers.mpr ⟨hr, hlen ▸ hv⟩)
    exact ⟨hlen ▸ lt_nNodes (by simp [hleaf]), hleaf⟩
  case populated =>
    intro w _ hw
    have hpos : 0 < (List.range t.nNodes).countP
        (fun v => t.role v = .server ∧ t.leafOfServer v = w) := by
      rw [countP_leafOfServer hw]
      exact hp
    obtain ⟨v, hv, hserver⟩ := List.countP_pos_iff.mp hpos
    exact ⟨v, hlen ▸ List.mem_range.mp hv, of_decide_eq_true hserver⟩
  case link =>
    intro u v
    rw [hgenerated.link, nNodes_eq, hlen]

end SpineLeafTopology

/-! ## The topology that is asked for -/

theorem SpineLeafJson.length (h : SpineLeafJson s l p json role home) :
    json.nodes.length = s + l + l * p := by
  simpa using h.ids.length_eq

/-- What is stored has four leaves. -/
theorem exists_setSpineleafTopology (model : AnalysisModel) (s l p : Nat) : ∃ json role home,
    setSpineleafTopology model s l p = some { model with topo := some json } ∧
      SpineLeafJson s 4 p json role home := by
  let t : SpineLeafTopology := { nServersPerLeaf := p, nLeaf := some l, nSpines := s }
  obtain ⟨json, hjson, -⟩ := t.exists_toJson (Nat.zero_lt_succ 3)
  refine ⟨json, t.role, t.leafOfServer, ?_, t.spineLeafJson hjson⟩
  rw [setSpineleafTopology, show SpineLeafTopology.toJson _ = _ from hjson]
  rfl

/-- **When the topology is the one asked for**: for four leaves, the default of the class. -/
theorem setSpineleafTopology_iff (model : AnalysisModel) (s l p : Nat) :
    (∃ model' json role home, setSpineleafTopology model s l p = some model' ∧
      model'.topo = some json ∧ SpineLeafJson s l p json role home) ↔ l = 4 := by
  obtain ⟨json, role, home, hset, hfour⟩ := exists_setSpineleafTopology model s l p
  constructor
  · rintro ⟨model', json', role', home', hset', htopo, hasked⟩
    rw [hset] at hset'
    cases hset'
    cases htopo
    have hlen := hfour.length.symm.trans hasked.length
    have hmul : (p + 1) * 4 = (p + 1) * l := by linarith
    exact (Nat.eq_of_mul_eq_mul_left p.succ_pos hmul).symm
  · rintro rfl
    exact ⟨_, json, role, home, hset, rfl, hfour⟩

/-- A spine and two leaves are asked for, and four leaves are made. -/
theorem not_setSpineleafTopology : ¬∀ model s l p, 1 ≤ s → 1 ≤ l → 1 ≤ p →
    ∃ model' json role home, setSpineleafTopology model s l p = some model' ∧
      model'.topo = some json ∧ SpineLeafJson s l p json role home := by
  intro h
  obtain ⟨model', json', role', home', hset', htopo, hasked⟩ :=
    h {} 1 2 1 (by decide) (by decide) (by decide)
  obtain ⟨json, role, home, hset, hfour⟩ := exists_setSpineleafTopology {} 1 2 1
  rw [hset] at hset'
  cases hset'
  cases htopo
  exact absurd (hfour.length.symm.trans hasked.length) (by decide)

end Roce
