import Roce.Lib.Bfs
import Roce.Network.Uplink
import Mathlib.Combinatorics.SimpleGraph.Metric

/-! # Routes

`BuildRoute`: a search from each server that notes at every node the neighbours on the shortest
paths to the server. Maps with pointers to nodes as keys are iterated in the order of the
pointers, which is a parameter. -/

namespace Roce

open Function

/-- An order of the pointers to the first nodes. -/
structure PtrOrder where
  order : Nat → List Nat
  perm : ∀ n, (order n).Perm (List.range n)

/-- The pointers in the order of the nodes. -/
def PtrOrder.byNode : PtrOrder := ⟨List.range, fun _ => .rfl⟩

/-- The keys of a map from nodes, in the order of iteration. -/
def PtrOrder.keys (ord : PtrOrder) (n : Nat) (row : Nat → Option P2pInfo) : List Nat :=
  (ord.order n).filter fun v => (row v).isSome

namespace Network

def ifaceOf (p2p : Nat → Nat → Option P2pInfo) (u v : Nat) : Interface := ((p2p u v).getD {}).iface

def nextHopsOf (p2p : Nat → Nat → Option P2pInfo) (u v : Nat) : List Nat :=
  ((p2p u v).getD {}).nextHops

end Network

/-- The entries of a node in `dis`, `delay`, `tx_delay` and `bw`. -/
structure PathInfo where
  dis : Nat := 0
  delay : Nat := 0
  txDelay : Nat := 0
  bw : Nat := 0
  deriving DecidableEq, Repr

/-- The variables of `BuildRoute`. Of `q` there are the nodes from the index `i` on. -/
structure RouteState where
  q : List Nat
  path : Nat → Option PathInfo
  p2p : Nat → Nat → Option P2pInfo

namespace RouteState

def start (p2p : Nat → Nat → Option P2pInfo) (host : Nat) : RouteState where
  q := [host]
  path := update (fun _ => none) host (some { bw := 0xffffffffffffffff })
  p2p := p2p

variable (net : Network) (mtu host now d : Nat)

/-- What happens to a node that has not been visited. -/
def discover (info : P2pInfo) (st : RouteState) (next : Nat) : RouteState :=
  if (st.path next).isSome then st
  else
    let here := (st.path now).getD {}
    { st with
      path := update st.path next (some {
        dis := d + 1
        delay := here.delay + info.iface.delay
        txDelay := here.txDelay + mtu * 8 * 10 ^ 9 / info.iface.bw
        bw := min here.bw info.iface.bw })
      q := if net.isSwitchNode next then st.q ++ [next] else st.q }

/-- `now` is on a shortest path from `next` to `host`. -/
def pushHop (st : RouteState) (next : Nat) : RouteState :=
  { st with p2p := Network.modifyInfo st.p2p next host fun info =>
      { info with nextHops := info.nextHops ++ [now] } }

/-- One turn of the loop over `m_p2p[now]`; down links are skipped. -/
def visit (st : RouteState) (next : Nat) : RouteState :=
  let info := (st.p2p now next).getD {}
  if info.iface.up then
    let st := st.discover net mtu now d info next
    if d + 1 = ((st.path next).getD {}).dis then st.pushHop host now next else st
  else st

/-- The loops at the end of `BuildRoute`. -/
def writePaths (st : RouteState) (u v : Nat) : Option P2pInfo :=
  match st.path u with
  | none => st.p2p u v
  | some path =>
    if v = host then
      some { (st.p2p u v).getD {} with
        delay := path.delay
        txDelay := path.txDelay
        bw := path.bw }
    else st.p2p u v

end RouteState

namespace Network

variable (net : Network) (ord : PtrOrder) (mtu : Nat)

/-- The loop over `q`. -/
def routeLoop (host : Nat) : Nat → RouteState → Option RouteState
  | 0, _ => none
  | fuel + 1, st =>
    match st.q with
    | [] => some st
    | now :: rest =>
      let d := ((st.path now).getD {}).dis
      routeLoop host fuel ((ord.keys net.kinds.length (st.p2p now)).foldl
        (RouteState.visit net mtu host now d) { st with q := rest })

/-- `BuildRoute`. A node is enqueued at most once, so the fuel is never used up. -/
def buildRoute (p2p : Nat → Nat → Option P2pInfo) (host : Nat) :
    Option (Nat → Nat → Option P2pInfo) := do
  let st ← net.routeLoop ord mtu host (net.kinds.length + 1) (.start p2p host)
  return st.writePaths host

end Network

/-! ## The graph of a topology -/

namespace RdmaTopology

open Network

def graph (top : RdmaTopology) : SimpleGraph Nat where
  Adj u v := u ≠ v ∧ 0 < linkCount top.links u v
  symm.symm u v h := ⟨h.1.symm, linkCount_comm top.links u v ▸ h.2⟩
  loopless.irrefl _ h := h.1 rfl

def Connected (top : RdmaTopology) : Prop :=
  ∀ u < top.nodes.length, ∀ v < top.nodes.length, top.graph.Reachable u v

end RdmaTopology

theorem dist_le_succ {G : SimpleGraph α} (hadj : G.Adj v u) (hr : G.Reachable u w) :
    G.dist v w ≤ G.dist u w + 1 := by
  obtain ⟨p, hp⟩ := hr.exists_walk_length_eq_dist
  rw [← hp, ← SimpleGraph.Walk.length_cons hadj]
  exact SimpleGraph.dist_le _

theorem exists_nearer {G : SimpleGraph α} (hr : G.Reachable v w) (hne : v ≠ w) :
    ∃ u, G.Adj v u ∧ G.dist v w = G.dist u w + 1 := by
  obtain ⟨p, hp⟩ := hr.exists_walk_length_eq_dist
  cases p with
  | nil => exact absurd rfl hne
  | @cons _ u _ hadj p =>
    refine ⟨u, hadj, le_antisymm (dist_le_succ hadj p.reachable) ?_⟩
    rw [← hp, SimpleGraph.Walk.length_cons]
    exact Nat.succ_le_succ (SimpleGraph.dist_le p)

namespace RdmaTopology

open Network

variable {top : RdmaTopology}

theorem Simple.adj (h : top.Simple) : top.graph.Adj u v ↔ 0 < linkCount top.links u v := by
  refine ⟨And.right, fun hl => ⟨?_, hl⟩⟩
  rintro rfl
  obtain ⟨l, hl, hloop | hloop⟩ := linkCount_pos.mp hl
  · exact h.loop l hl (hloop.1.trans hloop.2.symm)
  · exact h.loop l hl (hloop.1.trans hloop.2.symm)

theorem Simple.lt_of_adj (h : top.Simple) (hadj : top.graph.Adj u v) :
    u < top.nodes.length ∧ v < top.nodes.length := by
  obtain ⟨l, hl, ⟨rfl, rfl⟩ | ⟨rfl, rfl⟩⟩ := linkCount_pos.mp hadj.2
  · exact h.range l hl
  · exact (h.range l hl).symm

/-- The shortest paths to a node do not go through the other servers. -/
theorem Simple.inner_of_dist (h : top.Simple) (hconn : top.Connected) (hadj : top.graph.Adj u v)
    (hw : w < top.nodes.length) (hd : top.graph.dist v w = top.graph.dist u w + 1) :
    u = w ∨ top.isSwitch u = true := by
  obtain ⟨hu, hv⟩ := h.lt_of_adj hadj
  by_contra hnot
  rw [not_or, Bool.not_eq_true] at hnot
  obtain ⟨hne, hserver⟩ := hnot
  obtain ⟨x, hx, hnear⟩ := exists_nearer (hconn u hu w hw) hne
  obtain ⟨y, -, honly⟩ := h.server u hu hserver
  -- the only neighbour of the server is the way to `w`
  have hxv : x = v := (honly x hx.2).trans (honly v hadj.2).symm
  rw [hxv] at hnear
  omega

/-- What a correct `BuildRoute` finds. -/
theorem Simple.isDist (h : top.Simple) (hconn : top.Connected) (hhost : host < top.nodes.length)
    (nbrs : Nat → List Nat) (hnodup : ∀ u, (nbrs u).Nodup)
    (hnbrs : ∀ u v, v ∈ nbrs u ↔ top.graph.Adj u v) :
    Bfs.IsDist nbrs host top.isSwitch (List.range top.nodes.length)
      fun v => top.graph.dist v host := by
  constructor
  case root_mem => exact List.mem_range.mpr hhost
  case mem => exact fun u _ v hv => List.mem_range.mpr (h.lt_of_adj ((hnbrs u v).mp hv)).2
  case nodup => exact fun u _ => hnodup u
  case zero => exact SimpleGraph.dist_self
  case step =>
    intro u hu _ v hv
    exact dist_le_succ ((hnbrs u v).mp hv).symm (hconn u (List.mem_range.mp hu) host hhost)
  case pred =>
    intro v hv hne
    obtain ⟨u, hadj, hd⟩ := exists_nearer (hconn v (List.mem_range.mp hv) host hhost) hne
    have hu := (h.lt_of_adj hadj).2
    exact ⟨u, List.mem_range.mpr hu, h.inner_of_dist hconn hadj.symm hhost hd,
      (hnbrs u v).mpr hadj.symm, hd⟩

end RdmaTopology

/-! ## `BuildRoute` is a breadth-first search -/

namespace Network

variable {p2p p2p' p2p'' : Nat → Nat → Option P2pInfo}

/-- What the search from a host leaves as it is in `m_p2p`. -/
structure Frame (host : Nat) (p2p p2p' : Nat → Nat → Option P2pInfo) : Prop where
  iface : ∀ u v, ifaceOf p2p' u v = ifaceOf p2p u v
  other : ∀ u v, v ≠ host → p2p' u v = p2p u v

theorem Frame.refl : Frame host p2p p2p := ⟨fun _ _ => rfl, fun _ _ _ => rfl⟩

theorem Frame.trans (h : Frame host p2p p2p') (h' : Frame host p2p' p2p'') : Frame host p2p p2p'' :=
  ⟨fun u v => (h'.iface u v).trans (h.iface u v),
    fun u v hv => (h'.other u v hv).trans (h.other u v hv)⟩

theorem Frame.modifyInfo (hf : ∀ info : P2pInfo, (f info).iface = info.iface) :
    Frame host p2p (modifyInfo p2p u host f) := by
  constructor
  · intro v w
    by_cases hvw : v = u ∧ w = host
    · obtain ⟨rfl, rfl⟩ := hvw
      rw [ifaceOf, modifyInfo_self]
      exact hf _
    · rw [ifaceOf, modifyInfo_of_ne hvw]
      rfl
  · intro v w hw
    exact modifyInfo_of_ne fun h => hw h.2

end Network

namespace RouteState

variable {net : Network} {mtu host now d : Nat} {st : RouteState}

/-- The search that a state of `BuildRoute` is in. -/
def bfs (st : RouteState) (host : Nat) : Bfs Nat where
  queue := st.q
  dist v := (st.path v).map (·.dis)
  preds v := Network.nextHopsOf st.p2p v host

theorem start_bfs {base : Nat → Nat → Option P2pInfo}
    (hfresh : ∀ v, Network.nextHopsOf base v host = []) :
    (RouteState.start base host).bfs host = Bfs.start host := by
  simp only [RouteState.bfs, RouteState.start, Bfs.start, Bfs.mk.injEq, true_and]
  refine ⟨funext fun v => ?_, funext hfresh⟩
  by_cases hv : v = host
  · simp [hv]
  · simp [hv]

theorem bfs_discover (mtu now : Nat) (info : P2pInfo) (next : Nat) :
    (st.discover net mtu now d info next).bfs host =
      (st.bfs host).discover net.isSwitchNode d next := by
  unfold discover Bfs.discover
  cases hp : st.path next with
  | some path => simp [bfs, hp]
  | none =>
    have hdist : ∀ path : PathInfo, path.dis = d + 1 →
        (fun v => (update st.path next (some path) v).map (·.dis)) =
          update (fun v => (st.path v).map (·.dis)) next (some (d + 1)) := by
      intro path hpath
      funext v
      by_cases hv : v = next
      · simp [hv, hpath]
      · simp [hv]
    simp [bfs, hp, hdist]

theorem bfs_pushHop (next : Nat) : (st.pushHop host now next).bfs host =
    { st.bfs host with
      preds := update (st.bfs host).preds next ((st.bfs host).preds next ++ [now]) } := by
  simp only [bfs, pushHop, Bfs.mk.injEq, true_and]
  funext v
  by_cases hv : v = next
  · rw [hv, update_self, Network.nextHopsOf, Network.modifyInfo_self]
    rfl
  · rw [update_of_ne hv, Network.nextHopsOf, Network.modifyInfo_of_ne fun h => hv h.1]
    rfl

theorem bfs_dist_eq (next : Nat) : (st.bfs host).dist next = some (d + 1) ↔
    d + 1 = ((st.path next).getD {}).dis := by
  cases hp : st.path next with
  | none => simp [bfs, hp]
  | some path => simp [bfs, hp, eq_comm]

theorem bfs_visit (next : Nat) : (st.visit net mtu host now d next).bfs host =
    if (Network.ifaceOf st.p2p now next).up then (st.bfs host).visit net.isSwitchNode now d next
    else st.bfs host := by
  rw [Bfs.visit, ← bfs_discover mtu now ((st.p2p now next).getD {}), Bfs.record, visit,
    Network.ifaceOf]
  simp only [bfs_dist_eq]
  split
  · split
    · exact bfs_pushHop next
    · rfl
  · rfl

theorem frame_visit (next : Nat) :
    Network.Frame host st.p2p (st.visit net mtu host now d next).p2p := by
  have hdiscover : ∀ info, (st.discover net mtu now d info next).p2p = st.p2p := fun info => by
    unfold discover
    split <;> rfl
  unfold visit
  dsimp only
  split
  · split
    · simp only [pushHop, hdiscover]
      refine .modifyInfo ?_
      exact fun _ => rfl
    · rw [hdiscover]
      exact .refl
  · exact .refl

/-- The loop over the neighbours of `now`. -/
theorem bfs_visits (net : Network) (mtu host now d : Nat) (nexts : List Nat) (st : RouteState) :
    (nexts.foldl (visit net mtu host now d) st).bfs host =
      (nexts.filter fun v => (Network.ifaceOf st.p2p now v).up).foldl
        (Bfs.visit net.isSwitchNode now d) (st.bfs host) ∧
    Network.Frame host st.p2p (nexts.foldl (visit net mtu host now d) st).p2p := by
  induction nexts generalizing st with
  | nil => exact ⟨rfl, .refl⟩
  | cons next nexts ih =>
    have hframe : Network.Frame host st.p2p (st.visit net mtu host now d next).p2p :=
      frame_visit next
    obtain ⟨hbfs, hrest⟩ := ih (st.visit net mtu host now d next)
    refine ⟨?_, hframe.trans hrest⟩
    simp only [hframe.iface, bfs_visit] at hbfs
    rw [List.foldl_cons, hbfs, List.filter_cons]
    split
    · rfl
    · rfl

theorem frame_writePaths : Network.Frame host st.p2p (st.writePaths host) := by
  constructor
  · intro u v
    rw [Network.ifaceOf, writePaths]
    split
    · rfl
    · split <;> rfl
  · intro u v hv
    rw [writePaths]
    split
    · rfl
    · exact if_neg hv

theorem nextHopsOf_writePaths (v : Nat) :
    Network.nextHopsOf (st.writePaths host) v host = (st.bfs host).preds v := by
  rw [Network.nextHopsOf, writePaths]
  split
  · rfl
  · rw [if_pos rfl]
    rfl

end RouteState

namespace Network

variable {net : Network} {ord : PtrOrder} {mtu host : Nat} {p2p : Nat → Nat → Option P2pInfo}

/-- The neighbours over links that are up. -/
def upNeighbours (net : Network) (ord : PtrOrder) (p2p : Nat → Nat → Option P2pInfo) (u : Nat) :
    List Nat :=
  (ord.order net.kinds.length).filter fun v => (ifaceOf p2p u v).up

theorem routeLoop_eq (mtu fuel : Nat) {st : RouteState} {b : Bfs Nat}
    (hframe : Frame host p2p st.p2p)
    (hrun : Bfs.run (net.upNeighbours ord p2p) net.isSwitchNode fuel (st.bfs host) = some b) :
    ∃ st', net.routeLoop ord mtu host fuel st = some st' ∧ st'.bfs host = b ∧
      Frame host p2p st'.p2p := by
  induction fuel generalizing st with
  | zero => cases hrun
  | succ fuel ih =>
    cases hq : st.q with
    | nil =>
      rw [Bfs.run, RouteState.bfs, hq, Option.some.injEq] at hrun
      refine ⟨st, ?_, ?_, hframe⟩
      · rw [routeLoop, hq]
      · rw [← hrun, RouteState.bfs, hq]
    | cons now rest =>
      have hd : ((st.bfs host).dist now).getD 0 = ((st.path now).getD {}).dis := by
        show ((st.path now).map (·.dis)).getD 0 = _
        cases st.path now <;> rfl
      have hkeys : (ord.keys net.kinds.length (st.p2p now)).filter
          (fun v => (ifaceOf st.p2p now v).up) = net.upNeighbours ord p2p now := by
        rw [PtrOrder.keys, List.filter_filter, upNeighbours]
        refine List.filter_congr fun v _ => ?_
        rw [← hframe.iface now v, ifaceOf]
        cases st.p2p now v <;> simp
      obtain ⟨hbfs, hvisits⟩ := RouteState.bfs_visits net mtu host now
        ((st.path now).getD {}).dis (ord.keys net.kinds.length (st.p2p now)) { st with q := rest }
      rw [hkeys, ← hd] at hbfs
      have hqueue : (st.bfs host).queue = now :: rest := hq
      rw [Bfs.run, hqueue] at hrun
      rw [routeLoop, hq]
      refine ih (hframe.trans hvisits) ?_
      rw [← hd, hbfs]
      exact hrun

theorem Wired.ifaceOf_up {links : List Link} (h : Wired links net) :
    (ifaceOf net.p2p u v).up = true ↔ 0 < linkCount links u v := by
  rw [← h.p2p_isSome, ifaceOf]
  cases hp : net.p2p u v with
  | none => simp
  | some info => simp [(h.p2p hp).1]

theorem nodup_order (ord : PtrOrder) (n : Nat) : (ord.order n).Nodup :=
  (ord.perm n).nodup_iff.mpr List.nodup_range

theorem mem_order {ord : PtrOrder} {n : Nat} : v ∈ ord.order n ↔ v < n :=
  (ord.perm n).mem_iff.trans List.mem_range

theorem nodup_keys (ord : PtrOrder) (n : Nat) (row : Nat → Option P2pInfo) :
    (ord.keys n row).Nodup :=
  (nodup_order ord n).filter _

theorem mem_keys {ord : PtrOrder} {n : Nat} {row : Nat → Option P2pInfo} :
    v ∈ ord.keys n row ↔ v < n ∧ (row v).isSome := by
  rw [PtrOrder.keys, List.mem_filter, mem_order]

variable {top : RdmaTopology}

/-- **`BuildRoute`** notes at each node its neighbours that are one hop closer to the host. -/
theorem buildRoute_spec (ord : PtrOrder) (mtu : Nat) (hs : top.Simple) (hconn : top.Connected)
    (hw : Wired top.links net) (hk : net.kinds = top.nodes.map (·.isSwitch))
    (hhost : host < top.nodes.length)
    (hiface : ∀ u v, ifaceOf p2p u v = ifaceOf net.p2p u v)
    (hfresh : ∀ v, nextHopsOf p2p v host = []) :
    ∃ p2p', net.buildRoute ord mtu p2p host = some p2p' ∧ Frame host p2p p2p' ∧
      ∀ v < top.nodes.length, (nextHopsOf p2p' v host).Nodup ∧ ∀ u, u ∈ nextHopsOf p2p' v host ↔
        top.graph.Adj v u ∧ top.graph.dist v host = top.graph.dist u host + 1 := by
  have hlen := RdmaTopology.length_kinds hk
  have hkind := RdmaTopology.isSwitchNode_eq hk
  have hnbrs : ∀ u v, v ∈ net.upNeighbours ord p2p u ↔ top.graph.Adj u v := by
    intro u v
    rw [upNeighbours, List.mem_filter, mem_order, hiface, hw.ifaceOf_up, hs.adj, hlen,
      and_iff_right_iff_imp]
    exact fun hl => (hs.lt_of_adj (hs.adj.mpr hl)).2
  obtain ⟨b, hrun, hb⟩ := Bfs.run_spec
    (hs.isDist hconn hhost (net.upNeighbours ord p2p) (fun u => (nodup_order ord _).filter _) hnbrs)
    (List.length_range.trans_lt (Nat.lt_succ_self _))
  rw [← RouteState.start_bfs hfresh, ← hkind, ← hlen] at hrun
  have hrefl : Frame host p2p (RouteState.start p2p host).p2p := .refl
  obtain ⟨st, hloop, rfl, hframe⟩ := routeLoop_eq mtu _ hrefl hrun
  refine ⟨st.writePaths host, by rw [buildRoute, hloop]; rfl, hframe.trans st.frame_writePaths,
    fun v hv => ?_⟩
  obtain ⟨-, hnodup, hmem⟩ := hb v (List.mem_range.mpr hv)
  rw [RouteState.nextHopsOf_writePaths]
  refine ⟨hnodup, fun u => (hmem u).trans ?_⟩
  rw [List.mem_range]
  constructor
  · rintro ⟨-, -, harc, hd⟩
    exact ⟨((hnbrs u v).mp harc).symm, hd⟩
  · rintro ⟨hadj, hd⟩
    exact ⟨(hs.lt_of_adj hadj).2, hs.inner_of_dist hconn hadj.symm hhost hd,
      (hnbrs u v).mpr hadj.symm, hd⟩

/-- `m_p2p` when the servers of `done` have been searched from. -/
structure Routed (top : RdmaTopology) (net : Network) (done : List Nat)
    (p2p : Nat → Nat → Option P2pInfo) : Prop where
  iface : ∀ u v, ifaceOf p2p u v = ifaceOf net.p2p u v
  isSome : ∀ u v, (p2p u v).isSome → v ∈ done ∨ (net.p2p u v).isSome
  fresh : ∀ u, ∀ v ∉ done, nextHopsOf p2p u v = []
  nextHops : ∀ host ∈ done, ∀ v < top.nodes.length, (nextHopsOf p2p v host).Nodup ∧
    ∀ u, u ∈ nextHopsOf p2p v host ↔
      top.graph.Adj v u ∧ top.graph.dist v host = top.graph.dist u host + 1

theorem Routed.buildRoutes (ord : PtrOrder) (mtu : Nat) (hs : top.Simple) (hconn : top.Connected)
    (hw : Wired top.links net)
    (hk : net.kinds = top.nodes.map (·.isSwitch)) (h : Routed top net done p2p) (hosts : List Nat)
    (hhosts : ∀ host ∈ hosts, host < top.nodes.length) (hnodup : (done ++ hosts).Nodup) :
    ∃ p2p', hosts.foldlM (net.buildRoute ord mtu) p2p = some p2p' ∧
      Routed top net (done ++ hosts) p2p' := by
  induction hosts generalizing done p2p with
  | nil => exact ⟨p2p, rfl, by rwa [List.append_nil]⟩
  | cons host hosts ih =>
    have hnew : host ∉ done := fun hmem =>
      (List.nodup_append.mp hnodup).2.2 host hmem host List.mem_cons_self rfl
    obtain ⟨p2p₁, hroute, hframe, hnext⟩ := buildRoute_spec ord mtu hs hconn hw hk
      (hhosts host List.mem_cons_self) h.iface fun v => h.fresh v host hnew
    have hother : ∀ u v, v ≠ host → nextHopsOf p2p₁ u v = nextHopsOf p2p u v := fun u v hv => by
      rw [nextHopsOf, hframe.other u v hv, nextHopsOf]
    have h₁ : Routed top net (done ++ [host]) p2p₁ := by
      constructor
      case iface => exact fun u v => (hframe.iface u v).trans (h.iface u v)
      case isSome =>
        intro u v hv
        rw [List.mem_append, List.mem_singleton]
        by_cases hvh : v = host
        · exact .inl (.inr hvh)
        · rw [hframe.other u v hvh] at hv
          exact (h.isSome u v hv).imp .inl id
      case fresh =>
        intro u v hv
        rw [List.mem_append, List.mem_singleton, not_or] at hv
        rw [hother u v hv.2, h.fresh u v hv.1]
      case nextHops =>
        intro v hv u hu
        rcases List.mem_append.mp hv with hv | hv
        · have hne : v ≠ host := fun heq => hnew (heq ▸ hv)
          rw [hother u v hne]
          exact h.nextHops v hv u hu
        · rw [List.mem_singleton.mp hv]
          exact hnext u hu
    rw [List.append_cons] at hnodup ⊢
    obtain ⟨p2p', hfold, h'⟩ := ih h₁ (fun v hv => hhosts v (List.mem_cons_of_mem _ hv)) hnodup
    refine ⟨p2p', ?_, h'⟩
    rw [List.foldlM_cons, hroute]
    exact hfold

end Network
end Roce
