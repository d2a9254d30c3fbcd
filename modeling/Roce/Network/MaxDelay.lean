import Roce.Lib.FirstRoute
import Roce.Network.Routing
import Mathlib.Algebra.Order.Field.Rat
import Mathlib.Algebra.BigOperators.Group.List.Basic
import Mathlib.Tactic.NormNum

/-! # The wait after a multicast

`BuildP2pInfo` and `GetMaxDelay`, and the wait that `AgFlowMcastPhase` inserts after each multicast.
Times are in nanoseconds. Numbers are exact: a sum of integers never wraps around, and a quotient is
rounded only where it is stored as an integer. -/

namespace Roce

open Function

/-- `rtt` of a pair: the propagation twice, the transmission once. -/
def P2pInfo.rtt (p2p : P2pInfo) : Nat := p2p.delay * 2 + p2p.txDelay

def P2pInfo.bdp (p2p : P2pInfo) : Nat := p2p.rtt * p2p.bw / 10 ^ 9 / 8

/-- `m_maxRtt` and `m_maxBdp`. -/
structure P2pMaxima where
  maxRtt : Nat := 0
  maxBdp : Nat := 0
  deriving DecidableEq, Repr

namespace Network

variable (net : Network) (p2p : Nat → Nat → Option P2pInfo)

/-- The body of the inner loop of `BuildP2pInfo`, which fails if the pair has no entry. -/
def maximize (src : Nat) (m : P2pMaxima) (dst : Nat) : Option P2pMaxima := do
  let info ← p2p src dst
  return { maxRtt := max m.maxRtt info.rtt, maxBdp := max m.maxBdp info.bdp }

/-- `BuildP2pInfo`. -/
def buildP2pInfo : Option P2pMaxima :=
  net.servers.foldlM (fun m src => net.servers.foldlM (maximize p2p src) m) {}

/-- `HaveAllServersSameBandwidth`. -/
def haveAllServersSameBandwidth (links : List Link) : Bool :=
  match links.filter fun l => !net.isSwitchNode l.src || !net.isSwitchNode l.dst with
  | [] => true
  | first :: rest => rest.all fun l => first.bandwidth = l.bandwidth

end Network

/-- What `InitTopology` does on its way to `BuildP2pInfo`; `ConfigureSwitches` aborts if the
bandwidths of the servers differ. -/
def RdmaTopology.initMaxima (top : RdmaTopology) (ord : PtrOrder) (mtu : Nat) :
    Option P2pMaxima := do
  let net ← top.createNetwork
  if net.haveAllServersSameBandwidth top.links then
    let p2p ← net.servers.foldlM (net.buildRoute ord mtu) net.p2p
    net.buildP2pInfo p2p
  else none

/-- `GetMaxDelay`. -/
def P2pMaxima.getMaxDelay (m : P2pMaxima) : Nat := m.maxRtt / 2

/-- The `Time` of the wait, `GetMaxDelay() * 1.1` rounded to the nearest nanosecond. -/
def AgFlowMcastPhase.waitTime (m : P2pMaxima) : Nat := (11 * m.getMaxDelay + 5) / 10

/-! ## The flight of a packet -/

def Link.Joins (l : Link) (u v : Nat) : Prop := (l.src = u ∧ l.dst = v) ∨ (l.src = v ∧ l.dst = u)

instance (l : Link) (u v : Nat) : Decidable (l.Joins u v) := inferInstanceAs (Decidable (_ ∨ _))

namespace RdmaTopology

variable (top : RdmaTopology)

def IsServer (v : Nat) : Prop := v < top.nodes.length ∧ top.isSwitch v = false

/-- Links that lead from one node to another through switches. -/
inductive Path : Nat → List Link → Nat → Prop
  | nil : Path d [] d
  | cons : l ∈ top.links → l.Joins u v → (v = d ∨ top.isSwitch v = true) → Path v ls d →
    Path u (l :: ls) d

def ShortestPath (s : Nat) (ls : List Link) (d : Nat) : Prop :=
  top.Path s ls d ∧ ∀ ls', top.Path s ls' d → ls.length ≤ ls'.length

end RdmaTopology

/-- The time that an MTU-sized packet needs over some links: at each of them it is serialised, and
then its last bit travels. -/
def flight (mtu : Nat) (ls : List Link) : ℚ :=
  (ls.map fun l => (l.latency : ℚ) + mtu * 8 * 10 ^ 9 / l.bandwidth).sum

def latency (ls : List Link) : Nat := (ls.map (·.latency)).sum

/-- The time to push an MTU-sized packet into the links, in whole nanoseconds for each. -/
def txDelay (mtu : Nat) (ls : List Link) : Nat :=
  (ls.map fun l => mtu * 8 * 10 ^ 9 / l.bandwidth).sum

/-! ## The path that the search takes -/

/-- One node comes before another in the order of the pointers. -/
def PtrOrder.Before (ord : PtrOrder) (n u v : Nat) : Prop :=
  (ord.order n).idxOf u < (ord.order n).idxOf v

namespace RdmaTopology

variable (top : RdmaTopology) (ord : PtrOrder)

/-- The neighbours of a node, in the order of the pointers. -/
def neighbours (u : Nat) : List Nat :=
  (ord.order top.nodes.length).filter fun v => 0 < Network.linkCount top.links u v

/-- The last link between two nodes is the one that `m_p2p` knows. -/
def wire (u v : Nat) : Link := ((top.links.filter fun l => l.Joins u v).getLast?).getD {}

/-- The links of a way to a server. -/
def wires (d : Nat) : List Nat → List Link
  | [] => []
  | v :: p => top.wire (p.headD d) v :: wires d p

/-- The path between two servers whose length the search from the second one measures: the first of
the shortest ones, in the order of the pointers seen from there. -/
def SearchPath (s : Nat) (ls : List Link) (d : Nat) : Prop :=
  ∃ p, Bfs.First (top.neighbours ord) d top.isSwitch (ord.Before top.nodes.length) p s ∧
    ls = top.wires d p

end RdmaTopology

/-! ## The interfaces -/

namespace Network

variable {net net' : Network} {links ls : List Link} {link : Link}

/-- The delay and the bandwidth that `m_p2p` knows for two neighbours are those of their last
link. -/
def Measured (links : List Link) (net : Network) : Prop :=
  ∀ u v, 0 < linkCount links u v →
    (ifaceOf net.p2p u v).delay = (RdmaTopology.wire ⟨[], links, []⟩ u v).latency ∧
    (ifaceOf net.p2p u v).bw = (RdmaTopology.wire ⟨[], links, []⟩ u v).bandwidth

theorem ifaceOf_setIface {p2p : Nat → Nat → Option P2pInfo} {iface : Interface} :
    ifaceOf (setIface p2p src dst iface) u v =
      if u = src ∧ v = dst then iface else ifaceOf p2p u v := by
  split
  next h =>
    rw [h.1, h.2, ifaceOf, setIface, modifyInfo_self]
    rfl
  next h => rw [ifaceOf, setIface, modifyInfo_of_ne h, ifaceOf]

theorem Measured.addLink (h : Measured links net) (k : Nat) (link : Link) :
    Measured (links ++ [link]) (net.addLink k link) := by
  intro u v hpos
  have hiface : ∀ u v, link.Joins u v →
      (ifaceOf (net.addLink k link).p2p u v).delay = link.latency ∧
      (ifaceOf (net.addLink k link).p2p u v).bw = link.bandwidth := by
    intro u v hj
    simp only [Network.addLink, ifaceOf_setIface]
    split
    next => exact ⟨rfl, rfl⟩
    next hnot =>
      have hsrc := hj.resolve_right fun hj => hnot ⟨hj.2.symm, hj.1.symm⟩
      rw [if_pos ⟨hsrc.1.symm, hsrc.2.symm⟩]
      exact ⟨rfl, rfl⟩
  by_cases hj : link.Joins u v
  · have hwire : RdmaTopology.wire ⟨[], links ++ [link], []⟩ u v = link := by
      simp [RdmaTopology.wire, List.filter_append, hj]
    rw [hwire]
    exact hiface u v hj
  · have hwire : RdmaTopology.wire ⟨[], links ++ [link], []⟩ u v =
        RdmaTopology.wire ⟨[], links, []⟩ u v := by
      simp [RdmaTopology.wire, List.filter_append, hj]
    have hkeep : ifaceOf (net.addLink k link).p2p u v = ifaceOf net.p2p u v := by
      have hsrc : ¬(u = link.src ∧ v = link.dst) := fun hu => hj (.inl ⟨hu.1.symm, hu.2.symm⟩)
      have hdst : ¬(u = link.dst ∧ v = link.src) := fun hu => hj (.inr ⟨hu.2.symm, hu.1.symm⟩)
      simp only [Network.addLink, ifaceOf_setIface, if_neg hsrc, if_neg hdst]
    have hpos : 0 < linkCount links u v := by
      obtain ⟨l, hl, hlj⟩ := linkCount_pos.mp hpos
      rcases List.mem_append.mp hl with hl | hl
      · exact linkCount_pos.mpr ⟨l, hl, hlj⟩
      · rw [List.mem_singleton.mp hl] at hlj
        exact absurd hlj hj
    rw [hwire, hkeep]
    exact h u v hpos

end Network

namespace RdmaTopology

open Network

variable {top : RdmaTopology} {net : Network} {ord : PtrOrder}

theorem createNetwork_measured (h : top.createNetwork = some net) : Measured top.links net := by
  have hnil : Measured [] (createNodes top) := fun _ _ hpos => absurd hpos (Nat.lt_irrefl 0)
  refine createLinks_invariant (I := Measured) ?_ h hnil
  intro links net k link net' hm hnet
  obtain ⟨-, rfl⟩ := createLink_eq_some.mp hnet
  exact hm.addLink k link

end RdmaTopology

/-! ## What a search notes -/

theorem PtrOrder.pairwise_before (ord : PtrOrder) (n : Nat) :
    (ord.order n).Pairwise (ord.Before n) := by
  refine List.pairwise_iff_getElem.mpr fun i j hi hj hij => ?_
  have hnodup := Network.nodup_order ord n
  rwa [PtrOrder.Before, hnodup.idxOf_getElem, hnodup.idxOf_getElem]

namespace RouteState

variable {net : Network} {mtu host now : Nat} {st : RouteState}
  {base : Nat → Nat → Option P2pInfo}

/-- What `BuildRoute` notes at a node: the sums over the path through its first next hop. -/
structure Noted (mtu host : Nat) (base : Nat → Nat → Option P2pInfo) (st : RouteState) : Prop where
  root : st.path host = some { bw := 0xffffffffffffffff }
  fresh : ∀ v, st.path v = none →
    Network.nextHopsOf st.p2p v host = [] ∧ st.p2p v host = base v host
  queue : ∀ v ∈ st.q, (st.path v).isSome
  parent : ∀ v ≠ host, ∀ path, st.path v = some path → ∃ u hops here,
    Network.nextHopsOf st.p2p v host = u :: hops ∧ st.path u = some here ∧
    path.delay = here.delay + (Network.ifaceOf base u v).delay ∧
    path.txDelay = here.txDelay + mtu * 8 * 10 ^ 9 / (Network.ifaceOf base u v).bw

theorem Noted.start (hfresh : ∀ v, Network.nextHopsOf base v host = []) :
    Noted mtu host base (start base host) := by
  have hpath : ∀ v, v ≠ host → (RouteState.start base host).path v = none := fun v hv => by
    simp [RouteState.start, hv]
  have hroot : (RouteState.start base host).path host = some { bw := 0xffffffffffffffff } := by
    simp [RouteState.start]
  constructor
  case root => exact hroot
  case fresh => exact fun v _ => ⟨hfresh v, rfl⟩
  case queue =>
    intro v hv
    rw [List.mem_singleton.mp hv, hroot]
    rfl
  case parent =>
    intro v hv path hsome
    rw [hpath v hv] at hsome
    cases hsome

theorem p2p_pushHop (hu : u ≠ next) : (st.pushHop host now next).p2p u host = st.p2p u host := by
  simp only [pushHop]
  exact Network.modifyInfo_of_ne fun h => hu h.1

theorem nextHopsOf_pushHop (u : Nat) : Network.nextHopsOf (st.pushHop host now next).p2p u host =
    Network.nextHopsOf st.p2p u host ++ if u = next then [now] else [] := by
  have hbfs : (st.pushHop host now next).bfs host = _ := bfs_pushHop next
  have hhops := congrArg (Bfs.preds · u) hbfs
  simp only [bfs] at hhops
  rw [hhops]
  by_cases hu : u = next
  · simp [hu]
  · simp [hu]

/-- The hop to a node that was already seen. -/
theorem Noted.pushHop (h : Noted mtu host base st) (hseen : (st.path next).isSome) (now : Nat) :
    Noted mtu host base (st.pushHop host now next) := by
  constructor
  case root => exact h.root
  case fresh =>
    intro v hv
    have hne : v ≠ next := by
      rintro rfl
      have hv : st.path v = none := hv
      rw [hv] at hseen
      cases hseen
    rw [nextHopsOf_pushHop, if_neg hne, List.append_nil, p2p_pushHop hne]
    exact h.fresh v hv
  case queue => exact h.queue
  case parent =>
    intro v hv path hpath
    obtain ⟨u, hops, here, hhops, hrest⟩ := h.parent v hv path hpath
    refine ⟨u, hops ++ if v = next then [now] else [], here, ?_, hrest⟩
    rw [nextHopsOf_pushHop, hhops]
    rfl

theorem Noted.visit (h : Noted mtu host base st) (net : Network) (hnow : st.path now = some here)
    (d : Nat) (hiface : ∀ u v, Network.ifaceOf st.p2p u v = Network.ifaceOf base u v)
    (next : Nat) : Noted mtu host base (st.visit net mtu host now d next) ∧
      (st.visit net mtu host now d next).path now = some here := by
  unfold RouteState.visit
  dsimp only
  split
  swap
  · exact ⟨h, hnow⟩
  cases hp : st.path next with
  | some path =>
    have hseen : (st.path next).isSome := by rw [hp]; rfl
    have hdiscover : st.discover net mtu now d ((st.p2p now next).getD {}) next = st :=
      if_pos hseen
    rw [hdiscover]
    split
    · exact ⟨h.pushHop hseen now, hnow⟩
    · exact ⟨h, hnow⟩
  | none =>
    have hne : ∀ v path, st.path v = some path → v ≠ next := by
      rintro v path hv rfl
      rw [hp] at hv
      cases hv
    -- the entries that are there stay, and `next` gets the one over `now`
    have hdiscover : Noted mtu host base
        ((st.discover net mtu now d ((st.p2p now next).getD {}) next).pushHop host now next) := by
      unfold discover
      rw [if_neg (by simp [hp])]
      constructor
      case root => exact (update_of_ne (hne _ _ h.root) ..).trans h.root
      case fresh =>
        intro v hv
        by_cases hvn : v = next
        · simp [RouteState.pushHop, hvn] at hv
        · rw [nextHopsOf_pushHop, if_neg hvn, List.append_nil]
          have hv : st.path v = none := (update_of_ne hvn ..).symm.trans hv
          rw [p2p_pushHop hvn]
          exact h.fresh v hv
      case queue =>
        intro v hv
        by_cases hvn : v = next
        · simp [RouteState.pushHop, hvn]
        · have hv : v ∈ st.q := by
            simp only [RouteState.pushHop] at hv
            split at hv
            · simpa [hvn] using hv
            · exact hv
          simpa [RouteState.pushHop, hvn] using h.queue v hv
      case parent =>
        intro v hv path hpath
        rw [nextHopsOf_pushHop]
        simp only [RouteState.pushHop] at hpath ⊢
        by_cases hvn : v = next
        · subst hvn
          rw [update_self, Option.some.injEq] at hpath
          refine ⟨now, [], here, ?_, (update_of_ne (hne _ _ hnow) ..).trans hnow, ?_⟩
          · rw [if_pos rfl, (h.fresh v hp).1]
            rfl
          · rw [← hpath, hnow, ← hiface]
            exact ⟨rfl, rfl⟩
        · rw [update_of_ne hvn] at hpath
          obtain ⟨u, hops, prev, hhops, hprev, hrest⟩ := h.parent v hv path hpath
          refine ⟨u, hops, prev, ?_, (update_of_ne (hne _ _ hprev) ..).trans hprev, hrest⟩
          rw [if_neg hvn, List.append_nil]
          exact hhops
    have hpath : (st.discover net mtu now d ((st.p2p now next).getD {}) next).path now =
      some here := by
      unfold discover
      rw [if_neg (by simp [hp])]
      exact (update_of_ne (hne _ _ hnow) ..).trans hnow
    have hdis : d + 1 =
        (((st.discover net mtu now d ((st.p2p now next).getD {}) next).path next).getD {}).dis := by
      unfold discover
      rw [if_neg (by simp [hp])]
      simp
    rw [if_pos hdis]
    exact ⟨hdiscover, hpath⟩

/-- The loop over the neighbours of `now`. -/
theorem Noted.visits (net : Network) (nexts : List Nat) (h : Noted mtu host base st)
    (hnow : st.path now = some here)
    (hiface : ∀ u v, Network.ifaceOf st.p2p u v = Network.ifaceOf base u v) :
    Noted mtu host base (nexts.foldl (RouteState.visit net mtu host now d) st) := by
  induction nexts generalizing st with
  | nil => exact h
  | cons next nexts ih =>
    obtain ⟨h', hnow'⟩ := h.visit net hnow d hiface next
    exact ih h' hnow' fun u v => ((frame_visit next).iface u v).trans (hiface u v)

end RouteState

namespace Network

variable {net : Network} {mtu host : Nat} {base : Nat → Nat → Option P2pInfo}

theorem routeLoop_noted {st st' : RouteState} (h : RouteState.Noted mtu host base st)
    (hiface : ∀ u v, ifaceOf st.p2p u v = ifaceOf base u v)
    (hloop : net.routeLoop ord mtu host fuel st = some st') :
      RouteState.Noted mtu host base st' := by
  induction fuel generalizing st with
  | zero => cases hloop
  | succ fuel ih =>
    unfold routeLoop at hloop
    split at hloop
    next =>
      cases hloop
      exact h
    next now rest hq =>
      have hqueue := h.queue
      rw [hq] at hqueue
      obtain ⟨here, hnow⟩ := Option.isSome_iff_exists.mp (hqueue now List.mem_cons_self)
      have hpopped : RouteState.Noted mtu host base { st with q := rest } :=
        ⟨h.root, h.fresh, fun v hv => hqueue v (List.mem_cons_of_mem _ hv), h.parent⟩
      refine ih (hpopped.visits net _ hnow hiface) (fun u v => ?_) hloop
      have hframe := (RouteState.bfs_visits net mtu host now ((st.path now).getD {}).dis
        (ord.keys net.kinds.length (st.p2p now)) { st with q := rest }).2
      exact (hframe.iface u v).trans (hiface u v)

end Network

namespace RdmaTopology

open Network

variable {top : RdmaTopology} {net : Network} {ord : PtrOrder} {mtu : Nat}
  {p2p p2p' : Nat → Nat → Option P2pInfo}

theorem mem_neighbours (hw : Wired top.links net) (hlen : net.kinds.length = top.nodes.length) :
    v ∈ top.neighbours ord u ↔ 0 < linkCount top.links u v := by
  rw [neighbours, List.mem_filter, mem_order, decide_eq_true_eq, and_iff_right_iff_imp]
  intro hpos
  obtain ⟨l, hl, ⟨-, rfl⟩ | ⟨rfl, -⟩⟩ := linkCount_pos.mp hpos
  · exact hlen ▸ (hw.range l hl).2
  · exact hlen ▸ (hw.range l hl).1

theorem upNeighbours_eq (hw : Wired top.links net) (hlen : net.kinds.length = top.nodes.length)
    (hiface : ∀ u v, ifaceOf p2p u v = ifaceOf net.p2p u v) :
    net.upNeighbours ord p2p = top.neighbours ord := by
  funext u
  rw [upNeighbours, neighbours, hlen]
  refine List.filter_congr fun v _ => ?_
  rw [hiface, Bool.eq_iff_iff, hw.ifaceOf_up, decide_eq_true_eq]

/-- The search from a node finds the lengths of the search paths to it. -/
theorem buildRoute_delay (hw : Wired top.links net) (hm : Measured top.links net)
    (hk : net.kinds = top.nodes.map (·.isSwitch)) (hhost : host < top.nodes.length)
    (hiface : ∀ u v, ifaceOf p2p u v = ifaceOf net.p2p u v)
    (hcol : ∀ v, p2p v host = net.p2p v host)
    (hbuild : net.buildRoute ord mtu p2p host = some p2p') :
    Frame host p2p p2p' ∧ ∀ v info, p2p' v host = some info →
      ∃ ls, top.SearchPath ord v ls host ∧ info.delay = latency ls ∧
        info.txDelay = txDelay mtu ls := by
  have hlen := RdmaTopology.length_kinds hk
  have hkind := RdmaTopology.isSwitchNode_eq hk
  have hnbrs : net.upNeighbours ord p2p = top.neighbours ord := upNeighbours_eq hw hlen hiface
  have hlt : ∀ u, ∀ v ∈ top.neighbours ord u, v < top.nodes.length := fun u v hv =>
    mem_order.mp (List.mem_filter.mp hv).1
  have hfresh : ∀ v, nextHopsOf p2p v host = [] := by
    intro v
    rw [nextHopsOf, hcol]
    cases hp : net.p2p v host with
    | none => rfl
    | some info => exact (hw.p2p hp).2.1
  -- the search as such
  obtain ⟨b, hrun, hroute, hinduct⟩ :
      ∃ b, Bfs.run (top.neighbours ord) top.isSwitch (top.nodes.length + 1) (.start host) = some b ∧
        (∀ v, (b.dist v).isSome ↔ ∃ p, Bfs.Route (top.neighbours ord) host top.isSwitch p v) ∧ _ :=
    Bfs.exists_run_first (List.mem_range.mpr hhost)
      (fun u _ v hv => List.mem_range.mpr (hlt u v hv))
      (fun u _ => (nodup_order ord _).filter _) (fun u _ => (ord.pairwise_before _).filter _)
      (fun u v w => Nat.lt_trans) (List.length_range.trans_lt (Nat.lt_succ_self _))
  rw [← hnbrs, ← hkind, ← hlen, ← RouteState.start_bfs hfresh] at hrun
  have hrefl : Frame host p2p (RouteState.start p2p host).p2p := .refl
  obtain ⟨st, hloop, rfl, hframe⟩ := routeLoop_eq mtu _ hrefl hrun
  have hnoted := routeLoop_noted (.start hfresh) (fun _ _ => rfl) hloop
  have hp2p' : p2p' = st.writePaths host := by
    rw [buildRoute, hloop] at hbuild
    exact (Option.some.inj hbuild).symm
  have hdist : ∀ v, ((st.bfs host).dist v).isSome ↔ (st.path v).isSome := by
    intro v
    show ((st.path v).map (·.dis)).isSome ↔ _
    rw [Option.isSome_map]
  have hpath : ∀ v, (st.path v).isSome → ∃ ls, top.SearchPath ord v ls host ∧
      ∃ path, st.path v = some path ∧ path.delay = latency ls ∧ path.txDelay = txDelay mtu ls := by
    intro v hv
    refine (hinduct
      (fun v p => ∃ path, st.path v = some path ∧ path.delay = latency (top.wires host p) ∧
        path.txDelay = txDelay mtu (top.wires host p))
      ⟨_, hnoted.root, rfl, rfl⟩ ?_ v ((hdist v).mpr hv)).elim
      fun p hp => ⟨_, ⟨p, hp.1, rfl⟩, hp.2⟩
    rintro u v preds p hpreds hne hv harc hroute ⟨here, hhere, hdelay, htx⟩
    obtain ⟨path, hpath⟩ := Option.isSome_iff_exists.mp ((hdist v).mp hv)
    obtain ⟨u', hops, here', hhops, hhere', hdelay', htx'⟩ := hnoted.parent v hne path hpath
    have hpreds : nextHopsOf st.p2p v host = u :: preds := hpreds
    obtain rfl : u = u' := (List.cons.inj (hpreds.symm.trans hhops)).1
    obtain rfl : here = here' := Option.some.inj (hhere.symm.trans hhere')
    obtain ⟨hd, hbw⟩ := hm u v ((mem_neighbours hw hlen).mp harc)
    rw [hiface, hd, hdelay] at hdelay'
    rw [hiface, hbw, htx] at htx'
    refine ⟨path, hpath, ?_, ?_⟩
    · rw [wires, hroute.headD, hdelay', latency, latency, List.map_cons, List.sum_cons,
        Nat.add_comm]
      rfl
    · rw [wires, hroute.headD, htx', txDelay, txDelay, List.map_cons, List.sum_cons, Nat.add_comm]
      rfl
  refine ⟨?_, fun v info hinfo => ?_⟩
  · rw [hp2p']
    exact hframe.trans st.frame_writePaths
  · rw [hp2p', RouteState.writePaths] at hinfo
    cases hv : st.path v with
    | some path =>
      obtain ⟨ls, hls, path', hpath', hsums⟩ := hpath v (by rw [hv]; rfl)
      obtain rfl : path = path' := Option.some.inj (hv.symm.trans hpath')
      simp only [hv, if_true, Option.some.injEq] at hinfo
      rw [← hinfo]
      exact ⟨ls, hls, hsums⟩
    | none =>
      -- an entry of a node that was not seen would be that of a neighbour
      simp only [hv] at hinfo
      rw [(hnoted.fresh v hv).2, hcol] at hinfo
      have hcount := (hw.p2p_isSome v host).mp (by rw [hinfo]; rfl)
      have harc : v ∈ top.neighbours ord host := by
        rwa [mem_neighbours hw hlen, linkCount_comm]
      have hseen := (hdist v).mp ((hroute v).mpr ⟨[v], Bfs.Route.nil.cons (.inl rfl) harc⟩)
      rw [hv] at hseen
      cases hseen

/-- The loop over the servers. -/
theorem buildRoutes_delay (hw : Wired top.links net) (hm : Measured top.links net)
    (hk : net.kinds = top.nodes.map (·.isSwitch)) (hosts : List Nat)
    (hhosts : ∀ host ∈ hosts, host < top.nodes.length) (hnodup : hosts.Nodup)
    (hiface : ∀ u v, ifaceOf p2p u v = ifaceOf net.p2p u v)
    (hcol : ∀ host ∈ hosts, ∀ v, p2p v host = net.p2p v host)
    (h : hosts.foldlM (net.buildRoute ord mtu) p2p = some p2p') :
    (∀ host ∉ hosts, ∀ v, p2p' v host = p2p v host) ∧
    ∀ host ∈ hosts, ∀ v info, p2p' v host = some info →
      ∃ ls, top.SearchPath ord v ls host ∧ info.delay = latency ls ∧
        info.txDelay = txDelay mtu ls := by
  induction hosts generalizing p2p with
  | nil =>
    cases h
    exact ⟨fun _ _ _ => rfl, fun _ hv => absurd hv List.not_mem_nil⟩
  | cons host hosts ih =>
    obtain ⟨p2p₁, hbuild, h⟩ := Option.bind_eq_some_iff.mp h
    obtain ⟨hnew, hnodup⟩ := List.nodup_cons.mp hnodup
    obtain ⟨hlt, hhosts⟩ := List.forall_mem_cons.mp hhosts
    obtain ⟨hcolhost, hcol⟩ := List.forall_mem_cons.mp hcol
    obtain ⟨hframe, hfound⟩ := buildRoute_delay hw hm hk hlt hiface hcolhost hbuild
    have hother : ∀ dst ≠ host, ∀ v, p2p₁ v dst = p2p v dst := fun dst hne v =>
      hframe.other v dst hne
    obtain ⟨hkeep, hrest⟩ := ih hhosts hnodup (fun u v => (hframe.iface u v).trans (hiface u v))
      (fun dst hdst v => (hother dst (fun heq => hnew (heq ▸ hdst)) v).trans (hcol dst hdst v)) h
    refine ⟨fun dst hdst v => ?_, List.forall_mem_cons.mpr ⟨fun v info hinfo => ?_, hrest⟩⟩
    · rw [List.mem_cons, not_or] at hdst
      rw [hkeep dst hdst.2, hother dst hdst.1]
    · rw [hkeep host hnew] at hinfo
      exact hfound v info hinfo

end RdmaTopology

/-! ## The largest round-trip time -/

/-- A loop that computes a maximum, where each turn sees some values. -/
theorem foldlM_maxRtt {f : P2pMaxima → α → Option P2pMaxima} {l : List α}
    (Below Value : α → Nat → Prop) (hmono : ∀ a x y, x ≤ y → Below a x → Below a y)
    (hf : ∀ m a m', f m a = some m' → m.maxRtt ≤ m'.maxRtt ∧ Below a m'.maxRtt ∧
      (m'.maxRtt = m.maxRtt ∨ Value a m'.maxRtt))
    (h : l.foldlM f m = some m') : m.maxRtt ≤ m'.maxRtt ∧ (∀ a ∈ l, Below a m'.maxRtt) ∧
      (m'.maxRtt = m.maxRtt ∨ ∃ a ∈ l, Value a m'.maxRtt) := by
  induction l generalizing m with
  | nil =>
    cases h
    exact ⟨le_rfl, fun _ ha => absurd ha List.not_mem_nil, .inl rfl⟩
  | cons a l ih =>
    obtain ⟨m₁, ha, h⟩ := Option.bind_eq_some_iff.mp h
    obtain ⟨hle, hbelow, hvalue⟩ := hf m a m₁ ha
    obtain ⟨hle', hbelow', hvalue'⟩ := ih h
    refine ⟨hle.trans hle', List.forall_mem_cons.mpr ⟨hmono _ _ _ hle' hbelow, hbelow'⟩, ?_⟩
    rcases hvalue' with heq | ⟨b, hb, hvalue'⟩
    · rw [heq]
      exact hvalue.imp id fun hvalue => ⟨a, List.mem_cons_self, hvalue⟩
    · exact .inr ⟨b, List.mem_cons_of_mem _ hb, hvalue'⟩

/-- `m_maxRtt` is the largest round-trip time of a pair of servers. -/
theorem Network.buildP2pInfo_spec {net : Network} {p2p : Nat → Nat → Option P2pInfo}
    (h : net.buildP2pInfo p2p = some m) :
    (∀ src ∈ net.servers, ∀ dst ∈ net.servers, ∃ info, p2p src dst = some info ∧
      info.rtt ≤ m.maxRtt) ∧
    (m.maxRtt = 0 ∨ ∃ src ∈ net.servers, ∃ dst ∈ net.servers, ∃ info, p2p src dst = some info ∧
      info.rtt = m.maxRtt) := by
  have hinner : ∀ m src m', net.servers.foldlM (maximize p2p src) m = some m' →
      m.maxRtt ≤ m'.maxRtt ∧
      (∀ dst ∈ net.servers, ∃ info, p2p src dst = some info ∧ info.rtt ≤ m'.maxRtt) ∧
      (m'.maxRtt = m.maxRtt ∨
        ∃ dst ∈ net.servers, ∃ info, p2p src dst = some info ∧ info.rtt = m'.maxRtt) := by
    intro m src m' hm
    refine foldlM_maxRtt (fun dst x => ∃ info, p2p src dst = some info ∧ info.rtt ≤ x)
      (fun dst x => ∃ info, p2p src dst = some info ∧ info.rtt = x)
      (fun dst x y hxy => ?_) (fun m dst m' hm => ?_) hm
    · rintro ⟨info, hinfo, hle⟩
      exact ⟨info, hinfo, hle.trans hxy⟩
    · obtain ⟨info, hinfo, hm⟩ := Option.bind_eq_some_iff.mp hm
      cases hm
      refine ⟨le_max_left .., ⟨info, hinfo, le_max_right ..⟩, ?_⟩
      exact (max_choice m.maxRtt info.rtt).imp id fun hmax => ⟨info, hinfo, hmax.symm⟩
  refine (foldlM_maxRtt
    (fun src x => ∀ dst ∈ net.servers, ∃ info, p2p src dst = some info ∧ info.rtt ≤ x)
    (fun src x => ∃ dst ∈ net.servers, ∃ info, p2p src dst = some info ∧ info.rtt = x)
    (fun src x y hxy hbelow dst hdst => ?_) hinner h).2
  obtain ⟨info, hinfo, hle⟩ := hbelow dst hdst
  exact ⟨info, hinfo, hle.trans hxy⟩

/-! ## When the wait covers the flight -/

/-- The wait that the path between two servers gives, if its round-trip time is the largest. -/
def waitFor (mtu : Nat) (ls : List Link) : Nat :=
  (11 * (latency ls + txDelay mtu ls / 2) + 5) / 10

theorem waitTime_eq {m : P2pMaxima} (h : m.maxRtt = latency ls * 2 + txDelay mtu ls) :
    AgFlowMcastPhase.waitTime m = waitFor mtu ls := by
  have hhalf : (latency ls * 2 + txDelay mtu ls) / 2 = latency ls + txDelay mtu ls / 2 := by omega
  rw [AgFlowMcastPhase.waitTime, P2pMaxima.getMaxDelay, h, hhalf, waitFor]

theorem waitFor_le {m : P2pMaxima} (h : latency ls * 2 + txDelay mtu ls ≤ m.maxRtt) :
    waitFor mtu ls ≤ AgFlowMcastPhase.waitTime m := by
  rw [AgFlowMcastPhase.waitTime, P2pMaxima.getMaxDelay, waitFor]
  omega

namespace RdmaTopology

variable {top : RdmaTopology} {ord : PtrOrder}

theorem SearchPath.unique (h : top.SearchPath ord s ls d) (h' : top.SearchPath ord s ls' d) :
    ls = ls' := by
  obtain ⟨p, hp, rfl⟩ := h
  obtain ⟨q, hq, rfl⟩ := h'
  rw [hp.unique (fun u v => Nat.lt_asymm) hq]

/-- The servers and the round-trip times of a network that was built. -/
theorem initMaxima_spec (h : top.initMaxima ord mtu = some m) :
    (∀ s d, top.IsServer s → top.IsServer d → ∃ ls, top.SearchPath ord s ls d ∧
      latency ls * 2 + txDelay mtu ls ≤ m.maxRtt) ∧
    (m.maxRtt = 0 ∨ ∃ s d ls, top.IsServer s ∧ top.IsServer d ∧ top.SearchPath ord s ls d ∧
      m.maxRtt = latency ls * 2 + txDelay mtu ls) := by
  obtain ⟨net, hnet, h⟩ := Option.bind_eq_some_iff.mp h
  split at h
  swap
  · cases h
  obtain ⟨p2p, hroutes, h⟩ := Option.bind_eq_some_iff.mp h
  obtain ⟨hw, -, hk⟩ := createNetwork_wired hnet
  have hm := createNetwork_measured hnet
  have hservers : ∀ v, v ∈ net.servers ↔ top.IsServer v := by
    intro v
    rw [Network.servers, List.mem_filter, List.mem_range, hk, List.length_map, IsServer,
      Network.isSwitchNode, isSwitch, hk]
    simp
  obtain ⟨-, hfound⟩ := buildRoutes_delay hw hm hk net.servers (fun v hv => ((hservers v).mp hv).1)
    (List.nodup_range.filter _) (fun _ _ => rfl) (fun _ _ _ => rfl) hroutes
  obtain ⟨hbelow, hvalue⟩ := Network.buildP2pInfo_spec h
  constructor
  · intro s d hs hd
    obtain ⟨info, hinfo, hle⟩ := hbelow s ((hservers s).mpr hs) d ((hservers d).mpr hd)
    obtain ⟨ls, hls, hdelay, htx⟩ := hfound d ((hservers d).mpr hd) s info hinfo
    refine ⟨ls, hls, ?_⟩
    rwa [P2pInfo.rtt, hdelay, htx] at hle
  · refine hvalue.imp id ?_
    rintro ⟨s, hs, d, hd, info, hinfo, hrtt⟩
    obtain ⟨ls, hls, hdelay, htx⟩ := hfound d hd s info hinfo
    rw [P2pInfo.rtt, hdelay, htx] at hrtt
    exact ⟨s, d, ls, (hservers s).mp hs, (hservers d).mp hd, hls, hrtt.symm⟩

/-- **The wait covers the flight of the last packet** if and only if each shortest path is covered
by the path that the search takes between some servers: its latency and half its transmission delay,
and a tenth more. -/
theorem wait_covers_iff (h : top.initMaxima ord mtu = some m) :
    (∀ s d ls, top.IsServer s → top.IsServer d → top.ShortestPath s ls d →
      flight mtu ls ≤ AgFlowMcastPhase.waitTime m) ↔
    ∀ s d ls, top.IsServer s → top.IsServer d → top.ShortestPath s ls d →
      ∃ s' d' ls', top.IsServer s' ∧ top.IsServer d' ∧ top.SearchPath ord s' ls' d' ∧
        flight mtu ls ≤ waitFor mtu ls' := by
  obtain ⟨hbelow, hvalue⟩ := initMaxima_spec h
  constructor
  · intro hcovers s d ls hs hd hls
    have hflight := hcovers s d ls hs hd hls
    rcases hvalue with hzero | ⟨s', d', ls', hs', hd', hls', hrtt⟩
    · obtain ⟨ls', hls', hle⟩ := hbelow s d hs hd
      rw [waitTime_eq (Nat.le_antisymm (hzero.trans_le (Nat.zero_le _)) hle)] at hflight
      exact ⟨s, d, ls', hs, hd, hls', hflight⟩
    · rw [waitTime_eq hrtt] at hflight
      exact ⟨s', d', ls', hs', hd', hls', hflight⟩
  · intro hcond s d ls hs hd hls
    obtain ⟨s', d', ls', hs', hd', hls', hflight⟩ := hcond s d ls hs hd hls
    obtain ⟨ls'', hls'', hle⟩ := hbelow s' d' hs' hd'
    rw [← hls'.unique hls''] at hle
    exact hflight.trans (Nat.cast_le.mpr (waitFor_le hle))

/-- Two servers on a switch, with the links that a topology file has by default. -/
def rack : RdmaTopology where
  nodes := [{ id := 0 }, { id := 1 }, ⟨2, true⟩]
  links := [{ src := 0, dst := 2 }, { src := 2, dst := 1 }]

theorem wait_covers_iff_rack :
    (∀ s d ls, rack.IsServer s → rack.IsServer d → rack.ShortestPath s ls d →
      flight 4096 ls ≤ AgFlowMcastPhase.waitTime ⟨4654, 58175⟩) ↔
    ∀ s d ls, rack.IsServer s → rack.IsServer d → rack.ShortestPath s ls d →
      ∃ s' d' ls', rack.IsServer s' ∧ rack.IsServer d' ∧
        rack.SearchPath ⟨List.range, fun _ => .rfl⟩ s' ls' d' ∧
        flight 4096 ls ≤ waitFor 4096 ls' :=
  wait_covers_iff (by decide +kernel)

/-- The servers of the rack are two hops apart. -/
theorem shortestPath_rack : rack.ShortestPath 0 rack.links 1 := by
  constructor
  · exact .cons (v := 2) (by decide) (by decide) (by decide) <|
      .cons (v := 1) (by decide) (by decide) (by decide) .nil
  · intro ls h
    cases h with
    | @cons l _ v ls _ hl hjoins _ hrest =>
      have hv : v = 2 := by
        have hjoin : ∀ l ∈ rack.links, ∀ v, l.Joins 0 v → v = 2 := by
          intro l hl v hj
          simp only [rack, List.mem_cons, List.not_mem_nil, or_false] at hl
          rcases hl with rfl | rfl <;> rcases hj with ⟨h, h'⟩ | ⟨h, h'⟩ <;> simp_all
        exact hjoin l hl v hjoins
      subst hv
      cases hrest with
      | cons => simp [rack]

theorem not_wait_covers : ¬∀ (top : RdmaTopology) (ord : PtrOrder) (mtu : Nat) (m : P2pMaxima),
    top.initMaxima ord mtu = some m →
    ∀ s d ls, top.IsServer s → top.IsServer d → top.ShortestPath s ls d →
      flight mtu ls ≤ AgFlowMcastPhase.waitTime m := by
  intro h
  have hrack := h rack ⟨List.range, fun _ => .rfl⟩ 4096 ⟨4654, 58175⟩ (by decide +kernel) 0 1 _
    ⟨by decide, by decide⟩ ⟨by decide, by decide⟩ shortestPath_rack
  have hflight : flight 4096 rack.links = 265536 / 100 := by
    simp only [flight, rack, List.map_cons, List.map_nil, List.sum_cons, List.sum_nil]
    norm_num
  have hwait : AgFlowMcastPhase.waitTime ⟨4654, 58175⟩ = 2560 := by decide
  rw [hflight, hwait] at hrack
  norm_num at hrack

end RdmaTopology
end Roce
