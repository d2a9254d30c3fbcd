import Roce.Network.Routing

/-! # Depths

When `SwitchNode::Rebuild` completes: exactly if each link joins two nodes whose distances from the
nearest server differ by one. -/

namespace Roce

open Function

namespace Network

variable {net : Network} {level : Nat → Nat} {st st' : Visit}

/-- A distance from the servers: a link changes it by one at most, and each node but the servers has
a neighbour that is nearer. -/
structure Depths (net : Network) (level : Nat → Nat) : Prop where
  server : ∀ v < net.kinds.length, level v = 0 ↔ net.isSwitchNode v = false
  link : ∀ v, ∀ dev ∈ net.devices v,
    dev.peer.node < net.kinds.length ∧ level dev.peer.node ≤ level v + 1
  back : ∀ v, ∀ dev ∈ net.devices v, ∃ dev' ∈ net.devices dev.peer.node, dev'.peer.node = v
  nearer : ∀ v < net.kinds.length, 0 < level v → ∃ u < net.kinds.length,
    (∃ dev ∈ net.devices u, dev.peer.node = v) ∧ level v = level u + 1

/-- Where no link is flat, each changes the distance by one. -/
theorem Depths.levels (h : Depths net level)
    (hflat : ∀ v, ∀ dev ∈ net.devices v, level dev.peer.node ≠ level v) : Levels net level where
  server := h.server
  link v dev hdev := by
    obtain ⟨hlt, hle⟩ := h.link v dev hdev
    obtain ⟨dev', hdev', hback⟩ := h.back v dev hdev
    have hge := (h.link _ dev' hdev').2
    rw [hback] at hge
    have hne := hflat v dev hdev
    exact ⟨hlt, by omega⟩
  nearer := h.nearer

/-! ## The rounds that do not abort -/

/-- What the loop over `visiting` did, when it did not abort. -/
structure Visits (net : Network) (k : Nat) (st : Visit) (todo : List Nat) (st' : Visit) : Prop where
  fresh : ∀ v ∈ todo, v ∉ st.visited
  visited : ∀ v, v ∈ st'.visited ↔ v ∈ st.visited ∨ v ∈ todo
  dist : ∀ v, st'.dist v = if net.isSwitchNode v ∧ v ∈ todo then some k else st.dist v
  mono : ∀ w ∈ st.tovisit, w ∈ st'.tovisit
  peer : ∀ w ∈ st'.tovisit, w ∈ st.tovisit ∨ ∃ v ∈ todo, ∃ dev ∈ net.devices v, dev.peer.node = w
  next : ∀ v ∈ todo, ∀ dev ∈ net.devices v,
    dev.peer.node ∈ st'.visited ∨ dev.peer.node ∈ st'.tovisit
  clash : ∀ v ∈ todo, ∀ dev ∈ net.devices v, dev.peer.node ∈ todo → dev.peer.node ≠ v →
    (∃ dev' ∈ net.devices dev.peer.node, dev'.peer.node = v) →
    v ∈ st'.tovisit ∨ dev.peer.node ∈ st'.tovisit

theorem Visits.nil : Visits net k st [] st where
  fresh _ h := absurd h List.not_mem_nil
  visited v := by simp
  dist v := by simp
  mono _ h := h
  peer _ h := .inl h
  next _ h := absurd h List.not_mem_nil
  clash _ h := absurd h List.not_mem_nil

theorem Visits.cons {st₁ : Visit} (hst₁ : net.visitNode k st v = some st₁)
    (h : Visits net k st₁ todo st') : Visits net k st (v :: todo) st' := by
  unfold visitNode at hst₁
  split at hst₁
  next => cases hst₁
  next hnot =>
    have hnot : v ∉ st.visited := by simpa using hnot
    cases hst₁
    have hmem : ∀ {w}, w ∈ (net.devices v).foldl (visitPeer (v :: st.visited)) st.tovisit ↔
        w ∈ st.tovisit ∨ (w ∉ v :: st.visited ∧ ∃ dev ∈ net.devices v, dev.peer.node = w) :=
      mem_foldl_visitPeer
    have hvtodo : v ∉ todo := fun hv => h.fresh v hv List.mem_cons_self
    constructor
    case fresh =>
      intro w hw
      rcases List.mem_cons.mp hw with rfl | hw
      · exact hnot
      · exact fun hmem => h.fresh w hw (List.mem_cons_of_mem _ hmem)
    case visited =>
      intro w
      rw [h.visited, List.mem_cons, List.mem_cons, or_assoc]
      exact or_left_comm
    case dist =>
      intro w
      rw [h.dist]
      by_cases hw : w = v
      · subst hw
        cases net.isSwitchNode w <;> simp [hvtodo]
      · cases hsw : net.isSwitchNode v <;> simp [hw]
    case mono => exact fun w hw => h.mono w (hmem.mpr (.inl hw))
    case peer =>
      intro w hw
      rcases h.peer w hw with hw | ⟨u, hu, hdev⟩
      · rcases hmem.mp hw with hw | ⟨-, hdev⟩
        · exact .inl hw
        · exact .inr ⟨v, List.mem_cons_self, hdev⟩
      · exact .inr ⟨u, List.mem_cons_of_mem _ hu, hdev⟩
    case next =>
      intro u hu dev hdev
      rcases List.mem_cons.mp hu with rfl | hu
      · by_cases hvis : dev.peer.node ∈ u :: st.visited
        · exact .inl ((h.visited _).mpr (.inl hvis))
        · exact .inr (h.mono _ (hmem.mpr (.inr ⟨hvis, dev, hdev, rfl⟩)))
      · exact h.next u hu dev hdev
    case clash =>
      -- whichever of the two is visited first finds the other unvisited
      have hfirst : ∀ w ∈ todo, (∃ dev ∈ net.devices v, dev.peer.node = w) → w ∈ st'.tovisit :=
        fun w hw hdev => h.mono _ (hmem.mpr (.inr ⟨h.fresh w hw, hdev⟩))
      intro u hu dev hdev hpeer hne hback
      rcases List.mem_cons.mp hu with rfl | hu
      · exact .inr (hfirst _ ((List.mem_cons.mp hpeer).resolve_left hne) ⟨dev, hdev, rfl⟩)
      · rcases List.mem_cons.mp hpeer with heq | hpeer
        · rw [heq] at hback
          exact .inl (hfirst u hu hback)
        · exact h.clash u hu dev hdev hpeer hne hback

theorem visits_of_foldlM (h : todo.foldlM (net.visitNode k) st = some st') :
    Visits net k st todo st' := by
  induction todo generalizing st with
  | nil =>
    cases h
    exact .nil
  | cons v todo ih =>
    rw [List.foldlM_cons] at h
    obtain ⟨st₁, hst₁, h⟩ := Option.bind_eq_some_iff.mp h
    exact .cons hst₁ (ih h)

/-- Between two rounds, when none aborted: the nodes below the level `k` are visited, those of the
level are next, and a flat link leaves a visited node to visit again. -/
structure Searched (net : Network) (level : Nat → Nat) (k : Nat) (st : Visit) : Prop where
  visited : ∀ v, v ∈ st.visited ↔ v < net.kinds.length ∧ level v < k
  next : ∀ v < net.kinds.length, level v = k → v ∈ st.tovisit
  near : ∀ v ∈ st.tovisit, v < net.kinds.length ∧ level v ≤ k
  dist : ∀ v, st.dist v = if net.isSwitchNode v ∧ v ∈ st.visited then some (level v) else none
  flat : ∀ v, ∀ dev ∈ net.devices v, dev.peer.node ≠ v → level dev.peer.node = level v →
    level v < k → level v + 1 = k ∧ (v ∈ st.tovisit ∨ dev.peer.node ∈ st.tovisit)

theorem Searched.round (hd : Depths net level) (h : Searched net level k st)
    (hperm : todo.Perm st.tovisit) (hvisits : Visits net k { st with tovisit := [] } todo st') :
    Searched net level (k + 1) st' := by
  -- none of the nodes of the round was visited before
  have htodo : ∀ v, v ∈ todo ↔ v < net.kinds.length ∧ level v = k := by
    intro v
    rw [hperm.mem_iff]
    refine ⟨fun hv => ?_, fun hv => h.next v hv.1 hv.2⟩
    obtain ⟨hlt, hle⟩ := h.near v hv
    have hnot : ¬(v < net.kinds.length ∧ level v < k) := fun hlow =>
      hvisits.fresh v (hperm.mem_iff.mpr hv) ((h.visited v).mpr hlow)
    exact ⟨hlt, by omega⟩
  have hvisited : ∀ v, v ∈ st'.visited ↔ v < net.kinds.length ∧ level v < k + 1 := by
    intro v
    rw [hvisits.visited, htodo]
    refine (or_congr_left (h.visited v)).trans ?_
    rw [← and_or_left, Nat.lt_succ_iff_lt_or_eq]
  constructor
  case visited => exact hvisited
  case next =>
    intro v hv hlevel
    obtain ⟨u, hu, ⟨dev, hdev, rfl⟩, hstep⟩ := hd.nearer v hv (by omega)
    refine (hvisits.next u ((htodo u).mpr ⟨hu, by omega⟩) dev hdev).resolve_left fun hmem => ?_
    have hlow := ((hvisited _).mp hmem).2
    omega
  case near =>
    intro w hw
    obtain ⟨v, hv, dev, hdev, rfl⟩ := (hvisits.peer w hw).resolve_left List.not_mem_nil
    obtain ⟨hlt, hle⟩ := hd.link v dev hdev
    have hlevel := ((htodo v).mp hv).2
    exact ⟨hlt, by omega⟩
  case dist =>
    intro v
    have hold : st.dist v = _ := h.dist v
    rw [hvisits.dist, hold]
    by_cases hv : v ∈ todo
    · have hlevel := ((htodo v).mp hv).2
      have hnot : v ∉ st.visited := fun hmem => by
        have hlow := ((h.visited v).mp hmem).2
        omega
      simp [hvisits.visited, hv, hlevel, hnot]
    · simp [hvisits.visited, hv]
  case flat =>
    intro v dev hdev hne hlevel hlow
    obtain ⟨hlt, -⟩ := hd.link v dev hdev
    obtain ⟨dev', hdev', hback⟩ := hd.back v dev hdev
    have hv : v < net.kinds.length := hback ▸ (hd.link _ dev' hdev').1
    rcases Nat.lt_succ_iff_lt_or_eq.mp hlow with hlow | hk
    · -- the round would have aborted
      obtain ⟨-, hmem⟩ := h.flat v dev hdev hne hlevel hlow
      have hround : level v = k := by
        rcases hmem with hmem | hmem
        · exact ((htodo _).mp (hperm.mem_iff.mpr hmem)).2
        · exact hlevel.symm.trans ((htodo _).mp (hperm.mem_iff.mpr hmem)).2
      exact absurd hround hlow.ne
    · exact ⟨congrArg (· + 1) hk, hvisits.clash v ((htodo v).mpr ⟨hv, hk⟩) dev hdev
        ((htodo _).mpr ⟨hlt, hlevel.trans hk⟩) hne ⟨dev', hdev', hback⟩⟩

/-- The rounds that do not abort visit all nodes, and there are no flat links between two nodes. -/
theorem Searched.visitRounds {ord : SetOrder} (hd : Depths net level)
    (h : Searched net level k st) (hrun : net.visitRounds ord fuel k st = some (top, st')) :
    Searched net level top st' ∧ st'.tovisit = [] := by
  induction fuel generalizing k st with
  | zero => cases hrun
  | succ fuel ih =>
    unfold Network.visitRounds at hrun
    split at hrun
    next hempty =>
      cases hrun
      exact ⟨h, List.isEmpty_iff.mp hempty⟩
    next =>
      obtain ⟨st₁, hst₁, hrun⟩ := Option.bind_eq_some_iff.mp hrun
      exact ih (h.round hd (ord.perm k st.tovisit) (visits_of_foldlM hst₁)) hrun

theorem Searched.start (hd : Depths net level) :
    Searched net level 0 { tovisit := net.servers } where
  visited v := by simp
  next v hv hlevel := mem_servers.mpr ⟨hv, (hd.server v hv).mp hlevel⟩
  near v hv := by
    obtain ⟨hlt, hsw⟩ := mem_servers.mp hv
    exact ⟨hlt, ((hd.server v hlt).mpr hsw).le⟩
  dist v := by simp
  flat _ _ _ _ _ h := absurd h (Nat.not_lt_zero _)

/-! ## The ports that do not abort -/

theorem isSome_of_mapM {f : α → Option β} {l : List α} (h : l.mapM f = some l') :
    ∀ x ∈ l, (f x).isSome := by
  induction l generalizing l' with
  | nil => exact fun _ hx => absurd hx List.not_mem_nil
  | cons x l ih =>
    rw [List.mapM_cons] at h
    obtain ⟨y, hy, h⟩ := Option.bind_eq_some_iff.mp h
    obtain ⟨ys, hys, -⟩ := Option.bind_eq_some_iff.mp h
    intro z hz
    rcases List.mem_cons.mp hz with rfl | hz
    · exact Option.isSome_of_eq_some hy
    · exact ih hys z hz

theorem forall_of_foldlM {f : σ → α → Option σ} {l : List α} {p : α → Prop}
    (hp : ∀ s, ∀ x ∈ l, (f s x).isSome → p x) (h : l.foldlM f s = some s') : ∀ x ∈ l, p x := by
  induction l generalizing s with
  | nil => exact fun _ hx => absurd hx List.not_mem_nil
  | cons x l ih =>
    rw [List.foldlM_cons] at h
    obtain ⟨s₁, hs₁, h⟩ := Option.bind_eq_some_iff.mp h
    intro y hy
    rcases List.mem_cons.mp hy with rfl | hy
    · exact hp s y List.mem_cons_self (Option.isSome_of_eq_some hs₁)
    · exact ih (fun s z hz => hp s z (List.mem_cons_of_mem _ hz)) h y hy

/-- A link from a switch to itself aborts. -/
theorem portUplink_self {depth : Nat → Int} {dev : QbbNetDevice} (hsw : net.isSwitchNode sw = true)
    (hself : dev.peer.node = sw) : net.portUplink depth maxdepth sw dev = none := by
  simp only [portUplink, hself, hsw, if_true]
  rw [if_neg (by omega), if_neg (by omega)]

/-- **`Rebuild` completes** only if each link changes the distance by one, but for the links of a
server to itself. -/
theorem Depths.of_rebuild (hd : Depths net level) {ord : SetOrder}
    (h : net.rebuild ord = some uplink)
    (hself : ∀ v, net.isSwitchNode v = false → ∀ dev ∈ net.devices v, dev.peer.node ≠ v) :
    Levels net level := by
  obtain ⟨⟨top, st⟩, hrun, h⟩ := Option.bind_eq_some_iff.mp h
  obtain ⟨hsearched, hempty⟩ := (Searched.start hd).visitRounds hd hrun
  have hlt : ∀ v < net.kinds.length, level v < top := by
    refine lt_of_no_level hd.nearer fun w hw hlevel => ?_
    have hmem := hsearched.next w hw hlevel
    rw [hempty] at hmem
    cases hmem
  refine hd.levels fun v dev hdev hlevel => ?_
  by_cases hv : dev.peer.node = v
  · simp only at h
    split at h
    next => cases h
    next =>
      cases hsw : net.isSwitchNode v
      · exact hself v hsw dev hdev hv
      · refine forall_of_foldlM (p := fun sw => ∀ dev ∈ net.devices sw, dev.peer.node ≠ sw) ?_ h v
          (mem_switches.mpr hsw) dev hdev hv
        intro _ sw hsw hsome dev hdev hself
        obtain ⟨_, hports⟩ := Option.isSome_iff_exists.mp hsome
        obtain ⟨ports, hports, -⟩ := Option.bind_eq_some_iff.mp hports
        have hport := isSome_of_mapM hports dev hdev
        rw [portUplink_self (mem_switches.mp hsw) hself] at hport
        cases hport
  · obtain ⟨dev', hdev', hback⟩ := hd.back v dev hdev
    have hvlt : v < net.kinds.length := hback ▸ (hd.link _ dev' hdev').1
    have hmem := (hsearched.flat v dev hdev hv hlevel (hlt v hvlt)).2
    rw [hempty] at hmem
    rcases hmem with hmem | hmem
    · cases hmem
    · cases hmem

end Network

/-! ## The distance from the nearest server -/

namespace RdmaTopology

open Network

variable {top : RdmaTopology} {net : Network}

/-- The lengths of the paths from a node to the servers. -/
def serverPaths (top : RdmaTopology) (v : Nat) : Set Nat :=
  {n | ∃ s < top.nodes.length, top.isSwitch s = false ∧ ∃ p : top.graph.Walk v s, p.length = n}

noncomputable def serverDist (top : RdmaTopology) (v : Nat) : Nat := sInf (top.serverPaths v)

/-- Each switch is reachable from a server. -/
def Served (top : RdmaTopology) : Prop :=
  ∀ sw < top.nodes.length, top.isSwitch sw = true →
    ∃ s < top.nodes.length, top.isSwitch s = false ∧ top.graph.Reachable s sw

theorem Served.nonempty (h : top.Served) (hv : v < top.nodes.length) :
    (top.serverPaths v).Nonempty := by
  cases hsw : top.isSwitch v
  · exact ⟨0, v, hv, hsw, .nil, rfl⟩
  · obtain ⟨s, hs, hserver, hreach⟩ := h v hv hsw
    obtain ⟨p⟩ := hreach.symm
    exact ⟨_, s, hs, hserver, p, rfl⟩

theorem serverDist_eq_zero (h : top.Served) (hv : v < top.nodes.length) :
    top.serverDist v = 0 ↔ top.isSwitch v = false := by
  constructor
  · intro hzero
    obtain ⟨s, -, hserver, p, hp⟩ := Nat.sInf_mem (h.nonempty hv)
    rw [SimpleGraph.Walk.eq_of_length_eq_zero (hp.trans hzero)]
    exact hserver
  · exact fun hserver => Nat.le_zero.mp (Nat.sInf_le ⟨v, hv, hserver, .nil, rfl⟩)

theorem serverDist_le_succ (h : top.Served) (hadj : top.graph.Adj u v)
    (hv : v < top.nodes.length) : top.serverDist u ≤ top.serverDist v + 1 := by
  obtain ⟨s, hs, hserver, p, hp⟩ := Nat.sInf_mem (h.nonempty hv)
  exact Nat.sInf_le ⟨s, hs, hserver, .cons hadj p, congrArg (· + 1) hp⟩

/-- The next node of a shortest path to a server. -/
theorem exists_serverDist (h : top.Served) (hv : v < top.nodes.length)
    (hpos : 0 < top.serverDist v) :
    ∃ u, top.graph.Adj v u ∧ top.serverDist u < top.serverDist v := by
  obtain ⟨s, hs, hserver, p, hp⟩ := Nat.sInf_mem (h.nonempty hv)
  have hp : p.length = top.serverDist v := hp
  cases p with
  | nil => exact absurd hp hpos.ne
  | @cons _ u _ hadj p =>
    have hle : top.serverDist u ≤ p.length := Nat.sInf_le ⟨s, hs, hserver, p, rfl⟩
    exact ⟨u, hadj, hp ▸ Nat.lt_succ_of_le hle⟩

theorem Served.depths (h : top.Served) (hw : net.Wired top.links)
    (hk : net.kinds = top.nodes.map (·.isSwitch)) : net.Depths top.serverDist := by
  have hlen := RdmaTopology.length_kinds hk
  have hkind := congrFun (RdmaTopology.isSwitchNode_eq hk)
  have hrange : ∀ {u v}, 0 < linkCount top.links u v →
      u < net.kinds.length ∧ v < net.kinds.length := by
    intro u v hpos
    obtain ⟨l, hl, ⟨rfl, rfl⟩ | ⟨rfl, rfl⟩⟩ := linkCount_pos.mp hpos
    · exact hw.range l hl
    · exact (hw.range l hl).symm
  constructor
  case server => exact fun v hv => by rw [hkind, serverDist_eq_zero h (hlen ▸ hv)]
  case link =>
    intro v dev hdev
    have hl := hw.linkCount_pos_of_mem hdev
    obtain ⟨hv, hpeer⟩ := hrange hl
    refine ⟨hpeer, ?_⟩
    by_cases hself : dev.peer.node = v
    · rw [hself]
      exact Nat.le_succ _
    · exact serverDist_le_succ h ⟨hself, linkCount_comm .. ▸ hl⟩ (hlen ▸ hv)
  case back =>
    intro v dev hdev
    obtain ⟨i, hi⟩ := List.mem_iff_getElem?.mp hdev
    have hpeer : net.getPeerNetDevice ⟨v, i + 1⟩ = some dev.peer :=
      getPeerNetDevice_eq_some.mpr ⟨Nat.succ_ne_zero i, dev, hi, rfl⟩
    obtain ⟨-, dev', hdev', heq⟩ := getPeerNetDevice_eq_some.mp (hw.peer hpeer)
    exact ⟨dev', List.mem_of_getElem? hdev', congrArg Dev.node heq⟩
  case nearer =>
    intro v hv hpos
    obtain ⟨u, hadj, hlt⟩ := exists_serverDist h (hlen ▸ hv) hpos
    obtain ⟨-, hu⟩ := hrange hadj.2
    have hle := serverDist_le_succ h hadj (hlen ▸ hu)
    obtain ⟨i, j, hpeer⟩ := hw.exists_peer (linkCount_comm top.links v u ▸ hadj.2)
    obtain ⟨-, dev, hdev, heq⟩ := getPeerNetDevice_eq_some.mp hpeer
    exact ⟨u, hu, ⟨dev, List.mem_of_getElem? hdev, congrArg Dev.node heq⟩, by omega⟩

/-! ## When `Rebuild` completes -/

/-- Each link joins two nodes whose distances from the servers differ by one. -/
def Layered (top : RdmaTopology) : Prop :=
  ∀ l ∈ top.links, top.serverDist l.src = top.serverDist l.dst + 1 ∨
    top.serverDist l.dst = top.serverDist l.src + 1

/-- `m_uplink` of the switches: a port goes up if its peer is farther from the servers; a link of
two switches goes up at one end, and a link to a server does not. -/
structure Uplinks (top : RdmaTopology) (net : Network) (uplink : Nat → List Bool) : Prop where
  port : ∀ {d e}, net.getPeerNetDevice d = some e → net.isSwitchNode d.node = true →
    (uplink d.node)[d.iface]? = some (decide (top.serverDist d.node < top.serverDist e.node))
  oneEnd : ∀ {d e}, net.getPeerNetDevice d = some e → net.isSwitchNode d.node = true →
    net.isSwitchNode e.node = true →
    ((uplink d.node)[d.iface]? = some true ↔ (uplink e.node)[e.iface]? = some false)
  server : ∀ {d e}, net.getPeerNetDevice d = some e → net.isSwitchNode d.node = true →
    net.isSwitchNode e.node = false → (uplink d.node)[d.iface]? = some false

theorem layered_iff (hw : net.Wired top.links) (hd : net.Depths top.serverDist) :
    top.Layered ↔ net.Levels top.serverDist := by
  constructor
  · intro hl
    refine hd.levels fun v dev hdev hflat => ?_
    obtain ⟨l, hmem, ⟨rfl, hdst⟩ | ⟨hsrc, rfl⟩⟩ := linkCount_pos.mp (hw.linkCount_pos_of_mem hdev)
    · have hapart := hl l hmem
      rw [hdst] at hapart
      omega
    · have hapart := hl l hmem
      rw [hsrc] at hapart
      omega
  · intro hl l hmem
    obtain ⟨i, j, hpeer⟩ := hw.exists_peer (linkCount_pos.mpr ⟨l, hmem, .inl ⟨rfl, rfl⟩⟩)
    obtain ⟨-, dev, hdev, heq⟩ := getPeerNetDevice_eq_some.mp hpeer
    have hlink := (hl.link l.src dev (List.mem_of_getElem? hdev)).2
    rw [heq] at hlink
    exact hlink.symm

theorem uplinks_of_levels (hw : net.Wired top.links) (hl : net.Levels top.serverDist) :
    Uplinks top net fun v => if net.isSwitchNode v then false :: (net.devices v).map fun dev =>
      decide (top.serverDist dev.peer.node = top.serverDist v + 1) else [] := by
  have hlink : ∀ {d e}, net.getPeerNetDevice d = some e → e.node < net.kinds.length ∧
      (top.serverDist e.node = top.serverDist d.node + 1 ∨
        top.serverDist d.node = top.serverDist e.node + 1) := by
    intro d e hpeer
    obtain ⟨-, dev, hdev, rfl⟩ := getPeerNetDevice_eq_some.mp hpeer
    exact hl.link d.node dev (List.mem_of_getElem? hdev)
  have hport : ∀ {d e}, net.getPeerNetDevice d = some e → net.isSwitchNode d.node = true →
      (if net.isSwitchNode d.node then false :: (net.devices d.node).map fun dev =>
        decide (top.serverDist dev.peer.node = top.serverDist d.node + 1) else [])[d.iface]? =
        some (decide (top.serverDist d.node < top.serverDist e.node)) := by
    intro d e hpeer hsw
    have hapart := (hlink hpeer).2
    obtain ⟨hi, dev, hdev, rfl⟩ := getPeerNetDevice_eq_some.mp hpeer
    obtain ⟨i, hsucc⟩ := Nat.exists_eq_succ_of_ne_zero hi
    rw [hsucc] at hdev ⊢
    have hdev : (net.devices d.node)[i]? = some dev := hdev
    rw [if_pos hsw, List.getElem?_cons_succ, List.getElem?_map, hdev, Option.map_some]
    exact congrArg some (decide_eq_decide.mpr (by omega))
  constructor
  case port => exact hport
  case oneEnd =>
    intro d e hpeer hd he
    have hapart := (hlink hpeer).2
    rw [hport hpeer hd, hport (hw.peer hpeer) he]
    simp only [Option.some.injEq, decide_eq_true_eq, decide_eq_false_iff_not]
    omega
  case server =>
    intro d e hpeer hd he
    have hzero := (hl.server e.node (hlink hpeer).1).mpr he
    rw [hport hpeer hd, hzero]
    rfl

/-- `Rebuild` on the network of any links, where no server is linked to itself. -/
theorem rebuild_of_wired (hw : net.Wired top.links) (hk : net.kinds = top.nodes.map (·.isSwitch))
    (hself : ∀ v, net.isSwitchNode v = false → linkCount top.links v v = 0)
    (hserver : ∃ s < top.nodes.length, top.isSwitch s = false) (hserved : top.Served)
    (ord : SetOrder) :
    ((net.rebuild ord).isSome ↔ top.Layered) ∧
    (∀ uplink, net.rebuild ord = some uplink → Uplinks top net uplink) ∧
    ∀ ord', net.rebuild ord' = net.rebuild ord := by
  have hd := hserved.depths hw hk
  have hservers : net.servers ≠ [] := by
    obtain ⟨s, hs, hsw⟩ := hserver
    refine List.ne_nil_of_mem (a := s) (mem_servers.mpr ⟨?_, ?_⟩)
    · rwa [hk, List.length_map]
    · rwa [isSwitchNode, hk]
  by_cases hl : top.Layered
  · have hlevels := (layered_iff hw hd).mp hl
    have heq := fun ord => rebuild_eq_of_levels ord hlevels hservers
    refine ⟨by simp [heq ord, hl], fun uplink hup => ?_,
      fun ord' => (heq ord').trans (heq ord).symm⟩
    rw [heq ord, Option.some.injEq] at hup
    exact hup ▸ uplinks_of_levels hw hlevels
  · have heq : ∀ ord, net.rebuild ord = none := by
      intro ord
      by_contra hne
      obtain ⟨uplink, hup⟩ := Option.ne_none_iff_exists'.mp hne
      refine hl ((layered_iff hw hd).mpr (hd.of_rebuild hup fun v hv dev hdev hpeer => ?_))
      have hpos := hw.linkCount_pos_of_mem hdev
      rw [hpeer, hself v hv] at hpos
      exact Nat.lt_irrefl 0 hpos
    refine ⟨by simp [heq ord, hl], fun uplink hup => ?_,
      fun ord' => (heq ord').trans (heq ord).symm⟩
    rw [heq ord] at hup
    cases hup

/-- **`Rebuild`** completes exactly if the topology is layered. Then the uplinks are the ports away
from the servers, and all is the same for each order of the sets. -/
theorem rebuild_spec (h : top.createNetwork = some net)
    (hserver : ∃ s < top.nodes.length, top.isSwitch s = false) (hserved : top.Served)
    (ord : SetOrder) :
    ((net.rebuild ord).isSome ↔ top.Layered) ∧
    (∀ uplink, net.rebuild ord = some uplink → Uplinks top net uplink) ∧
    ∀ ord', net.rebuild ord' = net.rebuild ord := by
  obtain ⟨hw, hone, hk⟩ := createNetwork_wired h
  exact rebuild_of_wired hw hk (fun _ => hone.linkCount_self hw) hserver hserved ord

/-- A server under two switches. -/
abbrev stack : RdmaTopology where
  nodes := [⟨0, false⟩, ⟨1, true⟩, ⟨2, true⟩]
  links := [{ src := 0, dst := 1 }, { src := 1, dst := 2 }]

theorem stack_served : stack.Served := by
  have h01 : stack.graph.Adj 0 1 := ⟨by decide, by decide⟩
  have h12 : stack.graph.Adj 1 2 := ⟨by decide, by decide⟩
  intro sw hlt hsw
  refine ⟨0, by decide, rfl, ?_⟩
  match sw, hlt with
  | 0, _ => exact .refl _
  | 1, _ => exact h01.reachable
  | 2, _ => exact h01.reachable.trans h12.reachable

theorem rebuild_spec_stack : ∃ net, stack.createNetwork = some net ∧
    ((∃ s < stack.nodes.length, stack.isSwitch s = false) ∧ stack.Served) ∧
    ((net.rebuild ⟨fun _ l => l.reverse, fun _ l => l.reverse_perm⟩).isSome ↔ stack.Layered) ∧
    (∀ uplink, net.rebuild ⟨fun _ l => l.reverse, fun _ l => l.reverse_perm⟩ = some uplink →
      Uplinks stack net uplink) ∧
    ∀ ord', net.rebuild ord' = net.rebuild ⟨fun _ l => l.reverse, fun _ l => l.reverse_perm⟩ := by
  have hserver : ∃ s < stack.nodes.length, stack.isSwitch s = false := ⟨0, by decide, rfl⟩
  exact ⟨_, rfl, ⟨hserver, stack_served⟩, rebuild_spec rfl hserver stack_served _⟩

end RdmaTopology
end Roce
