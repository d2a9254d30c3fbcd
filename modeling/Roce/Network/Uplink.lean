import Roce.Lib.Count
import Roce.Network.Groups
import Mathlib.Data.List.Nodup
import Mathlib.Data.List.Perm.Subperm

/-! # Uplinks

`SwitchNode::Rebuild`: the distance of each switch from the servers, round by round, and from the
distances of its neighbours which ports of a switch go up. The nodes of a round are in an unordered
set, so their order is a parameter. -/

namespace Roce

open Function

/-- An iteration order of the unordered sets of `Rebuild`, for each round. -/
structure SetOrder where
  order : Nat → List Nat → List Nat
  perm : ∀ k l, (order k l).Perm l

/-- `visited`, `tovisit` and `dist_from_leaf`. -/
structure Visit where
  visited : List Nat := []
  tovisit : List Nat := []
  dist : Nat → Option Nat := fun _ => none

namespace Network

variable {net : Network}

/-- What `Rebuild` does with a device of a visited node. -/
def visitPeer (visited tovisit : List Nat) (dev : QbbNetDevice) : List Nat :=
  if visited.contains dev.peer.node then tovisit else tovisit.insert dev.peer.node

/-- One turn of the loop over `visiting`. A node that was already visited aborts. -/
def visitNode (net : Network) (leafDist : Nat) (st : Visit) (v : Nat) : Option Visit :=
  if st.visited.contains v then none
  else
    let visited := v :: st.visited
    some {
      visited
      dist := if net.isSwitchNode v then update st.dist v (some leafDist) else st.dist
      tovisit := (net.devices v).foldl (visitPeer visited) st.tovisit }

/-- The loop until `tovisit` is empty. -/
def visitRounds (net : Network) (ord : SetOrder) : Nat → Nat → Visit → Option (Nat × Visit)
  | 0, _, _ => none
  | fuel + 1, leafDist, st =>
    if st.tovisit.isEmpty then some (leafDist, st)
    else do
      let st ← (ord.order leafDist st.tovisit).foldlM (net.visitNode leafDist)
        { st with tovisit := [] }
      net.visitRounds ord fuel (leafDist + 1) st

def switches (net : Network) : List Nat := (List.range net.kinds.length).filter net.isSwitchNode

def servers (net : Network) : List Nat :=
  (List.range net.kinds.length).filter fun v => !net.isSwitchNode v

/-- Whether a port goes up; a link between nodes of the same depth aborts. -/
def portUplink (net : Network) (depth : Nat → Int) (maxdepth : Int) (sw : Nat)
    (dev : QbbNetDevice) : Option Bool :=
  let peer := dev.peer.node
  let peerDepth := if net.isSwitchNode peer then depth peer else maxdepth
  if depth sw = peerDepth + 1 then some true
  else if depth sw = peerDepth - 1 then some false
  else none

/-- `SwitchNode::Rebuild`: `m_uplink` of every switch, where the loopback has the entry 0. A round
visits a node or aborts, so the fuel is never used up. -/
def rebuild (net : Network) (ord : SetOrder) : Option (Nat → List Bool) := do
  let (leafDist, st) ← net.visitRounds ord (net.kinds.length + 1) 0 { tovisit := net.servers }
  if leafDist = 0 ∨ net.switches.any fun sw => (st.dist sw).isNone then none
  else
    let maxdepth : Int := leafDist - 1
    let depth : Nat → Int := fun sw => maxdepth - (st.dist sw).getD 0
    net.switches.foldlM
      (fun uplink sw => do
        let ports ← (net.devices sw).mapM (net.portUplink depth maxdepth sw)
        return update uplink sw (false :: ports))
      fun _ => []

/-! ## The rounds -/

/-- A distance from the servers: each link changes it by one, and each node but the servers has a
neighbour that is nearer. -/
structure Levels (net : Network) (level : Nat → Nat) : Prop where
  server : ∀ v < net.kinds.length, level v = 0 ↔ net.isSwitchNode v = false
  link : ∀ v, ∀ dev ∈ net.devices v, dev.peer.node < net.kinds.length ∧
    (level dev.peer.node = level v + 1 ∨ level v = level dev.peer.node + 1)
  nearer : ∀ v < net.kinds.length, 0 < level v → ∃ u < net.kinds.length,
    (∃ dev ∈ net.devices u, dev.peer.node = v) ∧ level v = level u + 1

/-- The round `k`, when the nodes of `done` were visited in it. -/
structure MidRound (net : Network) (level : Nat → Nat) (k : Nat) (done : List Nat) (st : Visit) :
    Prop where
  level_done : ∀ v ∈ done, level v = k
  nodup : st.visited.Nodup
  visited : ∀ v, v ∈ st.visited ↔ v < net.kinds.length ∧ (level v < k ∨ v ∈ done)
  tovisit_nodup : st.tovisit.Nodup
  tovisit : ∀ v, v ∈ st.tovisit ↔
    level v = k + 1 ∧ ∃ u ∈ done, ∃ dev ∈ net.devices u, dev.peer.node = v
  dist : ∀ v, st.dist v = if net.isSwitchNode v ∧ v ∈ st.visited then some (level v) else none

theorem mem_visitPeer {dev : QbbNetDevice} {visited tovisit : List Nat} :
    v ∈ visitPeer visited tovisit dev ↔ v ∈ tovisit ∨ (v ∉ visited ∧ dev.peer.node = v) := by
  unfold visitPeer
  split
  next hmem =>
    refine ⟨.inl, fun h => h.resolve_right ?_⟩
    rintro ⟨hv, rfl⟩
    exact hv (by simpa using hmem)
  next hmem =>
    rw [List.mem_insert_iff]
    constructor
    · rintro (rfl | hv)
      · exact .inr ⟨by simpa using hmem, rfl⟩
      · exact .inl hv
    · rintro (hv | ⟨-, rfl⟩)
      · exact .inr hv
      · exact .inl rfl

theorem mem_foldl_visitPeer {devs : List QbbNetDevice} {visited tovisit : List Nat} :
    v ∈ devs.foldl (visitPeer visited) tovisit ↔
      v ∈ tovisit ∨ (v ∉ visited ∧ ∃ dev ∈ devs, dev.peer.node = v) := by
  induction devs generalizing tovisit with
  | nil => simp
  | cons dev devs ih =>
    rw [List.foldl_cons, ih, mem_visitPeer, or_assoc, ← and_or_left]
    simp only [List.mem_cons, exists_eq_or_imp]

theorem nodup_foldl_visitPeer {devs : List QbbNetDevice} {visited tovisit : List Nat}
    (h : tovisit.Nodup) : (devs.foldl (visitPeer visited) tovisit).Nodup := by
  induction devs generalizing tovisit with
  | nil => exact h
  | cons dev devs ih =>
    refine ih ?_
    unfold visitPeer
    split
    · exact h
    · exact h.insert

variable {level : Nat → Nat} {st : Visit}

theorem MidRound.visitNode (hl : Levels net level) (h : MidRound net level k done st)
    (hv : v < net.kinds.length) (hk : level v = k) (hdone : v ∉ done) :
    ∃ st', net.visitNode k st v = some st' ∧ MidRound net level k (done ++ [v]) st' := by
  have hnot : v ∉ st.visited := by
    rw [h.visited]
    rintro ⟨-, hlt | hmem⟩
    · exact absurd hk (Nat.ne_of_lt hlt)
    · exact hdone hmem
  have hvisited : ∀ w, w ∈ v :: st.visited ↔
      w < net.kinds.length ∧ (level w < k ∨ w ∈ done ++ [v]) := by
    intro w
    rw [List.mem_cons, h.visited, List.mem_append, List.mem_singleton]
    constructor
    · rintro (rfl | ⟨hw, hrest | hrest⟩)
      · exact ⟨hv, .inr (.inr rfl)⟩
      · exact ⟨hw, .inl hrest⟩
      · exact ⟨hw, .inr (.inl hrest)⟩
    · rintro ⟨hw, hrest | hrest | rfl⟩
      · exact .inr ⟨hw, .inl hrest⟩
      · exact .inr ⟨hw, .inr hrest⟩
      · exact .inl rfl
  refine ⟨_, if_neg (by simpa using hnot), ?_⟩
  constructor
  case level_done =>
    intro w hw
    rcases List.mem_append.mp hw with hw | hw
    · exact h.level_done w hw
    · exact List.mem_singleton.mp hw ▸ hk
  case nodup => exact List.nodup_cons.mpr ⟨hnot, h.nodup⟩
  case visited => exact hvisited
  case tovisit_nodup => exact nodup_foldl_visitPeer h.tovisit_nodup
  case tovisit =>
    intro w
    rw [mem_foldl_visitPeer, h.tovisit]
    constructor
    · rintro (⟨hw, u, hu, hdev⟩ | ⟨hw, dev, hdev, rfl⟩)
      · exact ⟨hw, u, List.mem_append_left _ hu, hdev⟩
      · refine ⟨?_, v, List.mem_append_right _ (List.mem_singleton_self _), dev, hdev, rfl⟩
        obtain ⟨hlt, hup | hdown⟩ := hl.link v dev hdev
        · exact hk ▸ hup
        · -- a neighbour of the round before was visited
          exact absurd ((hvisited _).mpr ⟨hlt, .inl (by omega)⟩) hw
    · rintro ⟨hw, u, hu, hdev⟩
      rcases List.mem_append.mp hu with hu | hu
      · exact .inl ⟨hw, u, hu, hdev⟩
      · rw [List.mem_singleton.mp hu] at hdev
        refine .inr ⟨fun hmem => ?_, hdev⟩
        -- the nodes visited so far are not above this round
        rcases (hvisited w).mp hmem with ⟨-, hlt | hmem⟩
        · omega
        · rcases List.mem_append.mp hmem with hmem | hmem
          · rw [h.level_done w hmem] at hw
            omega
          · rw [List.mem_singleton.mp hmem, hk] at hw
            omega
  case dist =>
    intro w
    have hold := h.dist w
    by_cases hwv : w = v
    · subst hwv
      cases hsw : net.isSwitchNode w <;> simp [hsw, hnot, hk] at hold ⊢
      exact hold
    · cases hsw : net.isSwitchNode v <;> simpa [hwv] using hold

theorem MidRound.foldlM (hl : Levels net level) (h : MidRound net level k done st) {todo : List Nat}
    (htodo : ∀ v ∈ todo, v < net.kinds.length ∧ level v = k ∧ v ∉ done) (hnodup : todo.Nodup) :
    ∃ st', todo.foldlM (net.visitNode k) st = some st' ∧
      MidRound net level k (done ++ todo) st' := by
  induction todo generalizing done st with
  | nil => exact ⟨st, rfl, by rwa [List.append_nil]⟩
  | cons v todo ih =>
    obtain ⟨hv, hk, hdone⟩ := htodo v List.mem_cons_self
    obtain ⟨hvtodo, hnodup⟩ := List.nodup_cons.mp hnodup
    obtain ⟨st₁, hst₁, h₁⟩ := h.visitNode hl hv hk hdone
    have hrest : ∀ w ∈ todo, w < net.kinds.length ∧ level w = k ∧ w ∉ done ++ [v] := by
      intro w hw
      obtain ⟨hlt, hwk, hwdone⟩ := htodo w (List.mem_cons_of_mem _ hw)
      refine ⟨hlt, hwk, fun hmem => ?_⟩
      rcases List.mem_append.mp hmem with hmem | hmem
      · exact hwdone hmem
      · exact hvtodo (List.mem_singleton.mp hmem ▸ hw)
    obtain ⟨st', hst', h'⟩ := ih h₁ hrest hnodup
    refine ⟨st', ?_, by rwa [List.append_assoc, List.singleton_append] at h'⟩
    rw [List.foldlM_cons, hst₁]
    exact hst'

/-- Between two rounds: the nodes below the level `k` are visited, and those of the level are
next. -/
structure AtRound (net : Network) (level : Nat → Nat) (k : Nat) (st : Visit) : Prop where
  nodup : st.visited.Nodup
  visited : ∀ v, v ∈ st.visited ↔ v < net.kinds.length ∧ level v < k
  tovisit_nodup : st.tovisit.Nodup
  tovisit : ∀ v, v ∈ st.tovisit ↔ v < net.kinds.length ∧ level v = k
  dist : ∀ v, st.dist v = if net.isSwitchNode v ∧ v ∈ st.visited then some (level v) else none

theorem AtRound.next (ord : SetOrder) (hl : Levels net level) (h : AtRound net level k st) :
    ∃ st', (ord.order k st.tovisit).foldlM (net.visitNode k) { st with tovisit := [] } = some st' ∧
      AtRound net level (k + 1) st' := by
  have hperm := ord.perm k st.tovisit
  have hstart : MidRound net level k [] { st with tovisit := [] } :=
    ⟨fun _ h => (nomatch h), h.nodup, fun v => by simpa using h.visited v, List.nodup_nil,
      fun v => by simp, h.dist⟩
  obtain ⟨st', hst', h'⟩ := hstart.foldlM hl
    (fun v hv => by
      obtain ⟨hlt, hk⟩ := (h.tovisit v).mp (hperm.mem_iff.mp hv)
      exact ⟨hlt, hk, List.not_mem_nil⟩)
    (hperm.nodup_iff.mpr h.tovisit_nodup)
  refine ⟨st', hst', ?_⟩
  have hround : ∀ v, v ∈ [] ++ ord.order k st.tovisit ↔ v < net.kinds.length ∧ level v = k :=
    fun v => hperm.mem_iff.trans (h.tovisit v)
  constructor
  case nodup => exact h'.nodup
  case visited =>
    intro v
    rw [h'.visited, hround]
    constructor
    · rintro ⟨hv, hlt | ⟨-, hk⟩⟩
      · exact ⟨hv, Nat.lt_succ_of_lt hlt⟩
      · exact ⟨hv, Nat.lt_succ_of_le hk.le⟩
    · rintro ⟨hv, hlt⟩
      exact ⟨hv, (Nat.lt_succ_iff_lt_or_eq.mp hlt).imp id fun hk => ⟨hv, hk⟩⟩
  case tovisit_nodup => exact h'.tovisit_nodup
  case tovisit =>
    intro v
    rw [h'.tovisit]
    constructor
    · rintro ⟨hk, u, -, dev, hdev, rfl⟩
      exact ⟨(hl.link u dev hdev).1, hk⟩
    · rintro ⟨hv, hk⟩
      obtain ⟨u, hu, hdev, hlevel⟩ := hl.nearer v hv (by omega)
      exact ⟨hk, u, (hround u).mpr ⟨hu, by omega⟩, hdev⟩
  case dist => exact h'.dist

/-- Below a node there are nodes of all levels, so a level without nodes is above all nodes. -/
theorem lt_of_no_level (hnearer : ∀ v < net.kinds.length, 0 < level v →
      ∃ u < net.kinds.length, (∃ dev ∈ net.devices u, dev.peer.node = v) ∧ level v = level u + 1)
    (hnone : ∀ v < net.kinds.length, level v ≠ top) : ∀ v < net.kinds.length, level v < top := by
  have hfar : ∀ m, ∀ v < net.kinds.length, level v ≠ top + m := by
    intro m
    induction m with
    | zero => exact hnone
    | succ m ih =>
      intro v hv hlevel
      obtain ⟨u, hu, -, hstep⟩ := hnearer v hv (by omega)
      exact ih u hu (by omega)
  intro v hv
  by_contra hge
  exact hfar (level v - top) v hv (by omega)

theorem mem_servers : v ∈ net.servers ↔ v < net.kinds.length ∧ net.isSwitchNode v = false := by
  simp only [servers, List.mem_filter, List.mem_range, Bool.not_eq_true']

/-- The rounds end above the highest level. -/
theorem AtRound.visitRounds (ord : SetOrder) (hl : Levels net level) (h : AtRound net level k st)
    (hk : k ≤ st.visited.length) (hfuel : net.kinds.length < k + fuel) :
    ∃ top st', net.visitRounds ord fuel k st = some (top, st') ∧ k ≤ top ∧
      AtRound net level top st' ∧ ∀ v < net.kinds.length, level v < top := by
  have hle : ∀ {k st}, AtRound net level k st → st.visited.length ≤ net.kinds.length := by
    intro k st h
    rw [← List.length_range (n := net.kinds.length)]
    refine (List.subperm_of_subset h.nodup fun v hv => ?_).length_le
    exact List.mem_range.mpr ((h.visited v).mp hv).1
  induction fuel generalizing k st with
  | zero => exact absurd (hk.trans (hle h)) (Nat.not_le_of_lt hfuel)
  | succ fuel ih =>
    unfold Network.visitRounds
    split
    next hempty =>
      refine ⟨k, st, rfl, le_rfl, h, lt_of_no_level hl.nearer fun v hv hlevel => ?_⟩
      have hmem := (h.tovisit v).mpr ⟨hv, hlevel⟩
      rw [List.isEmpty_iff.mp hempty] at hmem
      cases hmem
    next hne =>
      obtain ⟨st', hst', h'⟩ := h.next ord hl
      have hgrow : k + 1 ≤ st'.visited.length := by
        obtain ⟨v, hv⟩ := List.exists_mem_of_ne_nil _ (mt List.isEmpty_iff.mpr hne)
        obtain ⟨hlt, hlevel⟩ := (h.tovisit v).mp hv
        have hnot : v ∉ st.visited := fun hmem => ((h.visited v).mp hmem).2.ne hlevel
        have hsub : (v :: st.visited).Subperm st'.visited := by
          refine List.subperm_of_subset (List.nodup_cons.mpr ⟨hnot, h.nodup⟩) fun w hw => ?_
          rw [h'.visited]
          rcases List.mem_cons.mp hw with rfl | hw
          · exact ⟨hlt, Nat.lt_succ_of_le hlevel.le⟩
          · obtain ⟨hw, hwk⟩ := (h.visited w).mp hw
            exact ⟨hw, Nat.lt_succ_of_lt hwk⟩
        exact (Nat.succ_le_succ hk).trans hsub.length_le
      obtain ⟨top, st'', hrun, htop, hrest⟩ := ih h' hgrow (by omega)
      refine ⟨top, st'', ?_, (Nat.le_succ k).trans htop, hrest⟩
      rw [hst']
      exact hrun

/-! ## The ports -/

theorem mapM_eq_some {f : α → Option β} {g : α → β} {l : List α} (h : ∀ x ∈ l, f x = some (g x)) :
    l.mapM f = some (l.map g) := by
  induction l with
  | nil => rfl
  | cons x l ih =>
    rw [List.mapM_cons, h x List.mem_cons_self, ih fun y hy => h y (List.mem_cons_of_mem _ hy)]
    rfl

theorem foldlM_update {f : Nat → Option (List Bool)} {g : Nat → List Bool} {sws : List Nat}
    (h : ∀ sw ∈ sws, f sw = some (g sw)) (uplink : Nat → List Bool) :
    ∃ uplink', sws.foldlM (fun uplink sw => do
        let ports ← f sw
        return update uplink sw (false :: ports)) uplink = some uplink' ∧
      ∀ v, uplink' v = if v ∈ sws then false :: g v else uplink v := by
  induction sws generalizing uplink with
  | nil => exact ⟨uplink, rfl, fun v => by simp⟩
  | cons sw sws ih =>
    obtain ⟨uplink', hfold, hval⟩ := ih (fun x hx => h x (List.mem_cons_of_mem _ hx))
      (update uplink sw (false :: g sw))
    refine ⟨uplink', ?_, fun v => ?_⟩
    · rw [List.foldlM_cons, h sw List.mem_cons_self]
      exact hfold
    · rw [hval, update_apply]
      by_cases hv : v = sw
      · simp [hv]
      · simp [hv]

theorem mem_switches : sw ∈ net.switches ↔ net.isSwitchNode sw = true := by
  simp only [switches, List.mem_filter, List.mem_range, and_iff_right_iff_imp]
  exact isSwitchNode_lt

theorem portUplink_of_levels (hl : Levels net level) {depth : Nat → Int} {maxdepth : Int}
    (hdepth : ∀ v, net.isSwitchNode v = true → depth v = maxdepth - level v)
    (hsw : net.isSwitchNode sw = true) {dev : QbbNetDevice} (hdev : dev ∈ net.devices sw) :
    net.portUplink depth maxdepth sw dev = some (decide (level dev.peer.node = level sw + 1)) := by
  obtain ⟨hlt, hlink⟩ := hl.link sw dev hdev
  have hpeer : (if net.isSwitchNode dev.peer.node then depth dev.peer.node else maxdepth) =
      maxdepth - level dev.peer.node := by
    split
    next h => exact hdepth _ h
    next h =>
      rw [(hl.server _ hlt).mpr (Bool.eq_false_iff.mpr h)]
      exact (Int.sub_zero maxdepth).symm
  unfold portUplink
  simp only [hpeer, hdepth sw hsw]
  rcases hlink with hup | hdown
  · rw [if_pos (by omega), decide_eq_true hup]
  · rw [if_neg (by omega), if_pos (by omega), decide_eq_false (by omega)]

/-- The uplinks of a network whose links change the distance from the servers by one. -/
theorem rebuild_eq_of_levels (ord : SetOrder) (hl : Levels net level) (hserver : net.servers ≠ []) :
    net.rebuild ord = some fun v => if net.isSwitchNode v then
      false :: (net.devices v).map fun dev =>
        decide (level dev.peer.node = level v + 1) else [] := by
  have hmem : ∀ v, v ∈ net.servers ↔ v < net.kinds.length ∧ level v = 0 := fun v =>
    mem_servers.trans (and_congr_right fun hv => (hl.server v hv).symm)
  have hstart : AtRound net level 0 { tovisit := net.servers } :=
    ⟨List.nodup_nil, fun v => by simp, List.nodup_range.filter _, hmem, fun v => by simp⟩
  obtain ⟨top, st, hrun, -, hround, htop⟩ := hstart.visitRounds ord hl
    (Nat.zero_le _) (Nat.lt_of_lt_of_eq (Nat.lt_succ_self _) (Nat.zero_add _).symm)
  obtain ⟨v, hv⟩ := List.exists_mem_of_ne_nil _ hserver
  have hpos : top ≠ 0 := (Nat.zero_lt_of_lt (htop v ((hmem v).mp hv).1)).ne'
  have hdist : ∀ sw, net.isSwitchNode sw = true → st.dist sw = some (level sw) := by
    intro sw hsw
    have hlt := isSwitchNode_lt hsw
    rw [hround.dist, if_pos ⟨hsw, (hround.visited sw).mpr ⟨hlt, htop sw hlt⟩⟩]
  have hall : (net.switches.any fun sw => (st.dist sw).isNone) = false := by
    refine List.any_eq_false.mpr fun sw hsw => ?_
    rw [hdist sw (mem_switches.mp hsw)]
    exact Bool.false_ne_true
  obtain ⟨uplink, hfold, hval⟩ := foldlM_update
    (f := fun sw => (net.devices sw).mapM
      (net.portUplink (fun sw => (top : Int) - 1 - (st.dist sw).getD 0) ((top : Int) - 1) sw))
    (g := fun sw => (net.devices sw).map fun dev => decide (level dev.peer.node = level sw + 1))
    (fun sw hsw => mapM_eq_some fun dev hdev => portUplink_of_levels hl
      (fun v hv => by rw [hdist v hv]; rfl) (mem_switches.mp hsw) hdev) fun _ => []
  rw [rebuild, hrun]
  simp only [Option.bind_eq_bind, Option.bind_some, hpos, hall, false_or, Bool.false_eq_true,
    ↓reduceIte]
  refine hfold.trans (congrArg some (funext fun v => ?_))
  rw [hval]
  exact if_congr mem_switches rfl rfl

/-- **`Rebuild`** on a network whose links change the distance from the servers by one: a port goes
up where the distance grows, whatever the order of the sets. -/
theorem rebuild_of_levels (ord : SetOrder) (hl : Levels net level) (hserver : net.servers ≠ []) :
    ∃ uplink, net.rebuild ord = some uplink ∧ ∀ sw ∈ net.switches,
      uplink sw = false :: (net.devices sw).map fun dev => level dev.peer.node = level sw + 1 :=
  ⟨_, rebuild_eq_of_levels ord hl hserver, fun _ hsw => if_pos (mem_switches.mp hsw)⟩

/-- A port goes up if its peer is farther from the servers. -/
theorem uplink_getD (level : Nat → Nat) {uplink : List Bool}
    (h : uplink = false ::
      (net.devices sw).map fun dev => decide (level dev.peer.node = level sw + 1))
    {e : Dev} (he : net.getPeerNetDevice ⟨sw, i⟩ = some e) :
    uplink.getD i false = decide (level e.node = level sw + 1) := by
  obtain ⟨hi, dev, hdev, rfl⟩ := getPeerNetDevice_eq_some.mp he
  obtain ⟨i, rfl⟩ := Nat.exists_eq_succ_of_ne_zero hi
  have hdev : (net.devices sw)[i]? = some dev := hdev
  simp [h, List.getD_eq_getElem?_getD, hdev]

end Network
end Roce
