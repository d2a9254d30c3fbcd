import Roce.Lib.Count
import Roce.Lib.OrdMap
import Roce.Network.Topology
import Mathlib.Logic.Relation

/-! # Multicast groups

How a server joins a group: `QbbNetDevice::AddGroup` tells the peer of the device, and a switch
that is told remembers the port and adds the group to all its other devices. -/

namespace Roce

/-- `m_groups` of the devices and `m_ogroups` of the switches: the output ports of a switch for a
group. -/
structure GroupState where
  groups : List (Dev × Nat) := []
  ogroups : Nat → Nat → OrdMap Nat Unit := fun _ _ => .empty

namespace GroupState

/-- `m_ogroups[group].emplace(ifIndex)` at the switch of the device. -/
def emplace (s : GroupState) (e : Dev) (group : Nat) : GroupState :=
  { s with ogroups := fun sw g =>
      if sw = e.node ∧ g = group then (s.ogroups sw g).insert e.iface () else s.ogroups sw g }

end GroupState

namespace Network

variable {net : Network}

/-- The devices of a node but the loopback. -/
def devs (net : Network) (v : Nat) : List Dev :=
  (List.range (net.devices v).length).map fun i => ⟨v, i + 1⟩

/-- The devices of all nodes. -/
def getAllQbbNetDevices (net : Network) : List Dev :=
  (List.range net.kinds.length).flatMap net.devs

/-- The other devices of the node of a device. -/
def otherDevs (net : Network) (e : Dev) : List Dev := (net.devs e.node).filter (· ≠ e)

/-- `SwitchNode::OnPeerJoinGroup`. -/
def switchOnPeerJoinGroup (net : Network) (addGroup : Dev → GroupState → Option GroupState)
    (e : Dev) (group : Nat) (s : GroupState) : Option GroupState :=
  (net.otherDevs e).foldlM (fun s d => addGroup d s) (s.emplace e group)

/-- `QbbNetDevice::OnPeerJoinGroup`. -/
def onPeerJoinGroup (net : Network) (addGroup : Dev → GroupState → Option GroupState) (e : Dev)
    (group : Nat) (s : GroupState) : Option GroupState :=
  if net.isSwitchNode e.node then net.switchOnPeerJoinGroup addGroup e group s else some s

/-- `QbbNetDevice::AddGroup`. -/
def addGroup (net : Network) (group : Nat) : Nat → Dev → GroupState → Option GroupState
  | 0, _, _ => none
  | fuel + 1, d, s =>
    if s.groups.contains (d, group) then some s
    else
      let s := { s with groups := s.groups ++ [(d, group)] }
      match net.getPeerNetDevice d with
      | none => some s
      | some e => net.onPeerJoinGroup (net.addGroup group fuel) e group s

/-- A sequence of calls of `AddGroup`. -/
def addGroups (net : Network) (fuel : Nat) (calls : List (Dev × Nat)) (s : GroupState) :
    Option GroupState :=
  calls.foldlM (fun s call => net.addGroup call.2 fuel call.1 s) s

/-- The loop of `BuildGroups`: each server adds the group to its only device. -/
def buildGroups (net : Network) (joins : List (Nat × Nat)) (s : GroupState) : Option GroupState :=
  joins.foldlM
    (fun s join => net.addGroup join.2 (net.getAllQbbNetDevices.length + 1) ⟨join.1, 1⟩ s) s

/-! ## What a join reaches -/

theorem mem_devs {d : Dev} : d ∈ net.devs v ↔ d.node = v ∧ (net.getPeerNetDevice d).isSome := by
  obtain ⟨w, i⟩ := d
  simp only [devs, List.mem_map, List.mem_range, Dev.mk.injEq, getPeerNetDevice]
  constructor
  · rintro ⟨k, hk, rfl, rfl⟩
    simpa using hk
  · rintro ⟨rfl, h⟩
    split at h
    next => cases h
    next hi =>
      simp only [Option.isSome_map, isSome_getElem?] at h
      exact ⟨i - 1, h, rfl, by omega⟩

theorem mem_getAllQbbNetDevices {d : Dev} : d ∈ net.getAllQbbNetDevices ↔
    d.node < net.kinds.length ∧ (net.getPeerNetDevice d).isSome := by
  simp only [getAllQbbNetDevices, List.mem_flatMap, List.mem_range, mem_devs]
  constructor
  · rintro ⟨v, hv, rfl, h⟩
    exact ⟨hv, h⟩
  · rintro ⟨hv, h⟩
    exact ⟨_, hv, rfl, h⟩

theorem mem_otherDevs {d e : Dev} : d ∈ net.otherDevs e ↔
    d.node = e.node ∧ d ≠ e ∧ (net.getPeerNetDevice d).isSome := by
  simp only [otherDevs, List.mem_filter, mem_devs, decide_eq_true_eq]
  exact ⟨fun h => ⟨h.1.1, h.2, h.1.2⟩, fun h => ⟨⟨h.1, h.2.2⟩, h.2.1⟩⟩

theorem isSwitchNode_lt (h : net.isSwitchNode v = true) : v < net.kinds.length := by
  by_contra hv
  rw [isSwitchNode, List.getD_eq_getElem?_getD, List.getElem?_eq_none (Nat.le_of_not_lt hv)] at h
  cases h

/-- A group on the device `d` goes to the other devices of the switch at the other end. -/
def Spread (net : Network) (d x : Dev) : Prop :=
  ∃ e, net.getPeerNetDevice d = some e ∧ net.isSwitchNode e.node = true ∧ x ∈ net.otherDevs e

/-- `AddGroup` goes from `s` to `s'`: the new devices come from `start`, all that they spread to is
there, and the switches remember their peers. -/
structure Grows (net : Network) (group : Nat) (start : Dev → Prop) (s s' : GroupState) : Prop where
  mono : ∀ p ∈ s.groups, p ∈ s'.groups
  new : ∀ p ∈ s'.groups, p ∈ s.groups ∨
    (p.2 = group ∧ ∃ d, start d ∧ Relation.ReflTransGen net.Spread d p.1)
  closed : ∀ x, (x, group) ∈ s'.groups → (x, group) ∉ s.groups → ∀ y, net.Spread x y →
    (y, group) ∈ s'.groups
  ports : ∀ sw g p, p ∈ (s'.ogroups sw g).keys ↔ p ∈ (s.ogroups sw g).keys ∨
    ∃ d, (d, g) ∈ s'.groups ∧ (d, g) ∉ s.groups ∧ net.getPeerNetDevice d = some ⟨sw, p⟩ ∧
      net.isSwitchNode sw = true

theorem Grows.refl {start : Dev → Prop} {s : GroupState} : Grows net group start s s where
  mono _ h := h
  new _ h := .inl h
  closed _ h hnot := absurd h hnot
  ports sw g p := by
    refine ⟨.inl, fun h => h.resolve_right ?_⟩
    rintro ⟨d, h, hnot, -⟩
    exact hnot h

theorem Grows.trans {start start' : Dev → Prop} {s s' s'' : GroupState}
    (h : Grows net group start s s') (h' : Grows net group start' s' s'') :
    Grows net group (fun d => start d ∨ start' d) s s'' where
  mono p hp := h'.mono p (h.mono p hp)
  new p hp := by
    rcases h'.new p hp with hp | ⟨hg, d, hd, hreach⟩
    · rcases h.new p hp with hp | ⟨hg, d, hd, hreach⟩
      · exact .inl hp
      · exact .inr ⟨hg, d, .inl hd, hreach⟩
    · exact .inr ⟨hg, d, .inr hd, hreach⟩
  closed x hx hnot y hy := by
    by_cases hmid : (x, group) ∈ s'.groups
    · exact h'.mono _ (h.closed x hmid hnot y hy)
    · exact h'.closed x hx hmid y hy
  ports sw g p := by
    rw [h'.ports, h.ports]
    constructor
    · rintro ((hp | ⟨d, hd, hnot, hrest⟩) | ⟨d, hd, hnot, hrest⟩)
      · exact .inl hp
      · exact .inr ⟨d, h'.mono _ hd, hnot, hrest⟩
      · exact .inr ⟨d, hd, fun hmem => hnot (h.mono _ hmem), hrest⟩
    · rintro (hp | ⟨d, hd, hnot, hrest⟩)
      · exact .inl (.inl hp)
      · by_cases hmid : (d, g) ∈ s'.groups
        · exact .inl (.inr ⟨d, hmid, hnot, hrest⟩)
        · exact .inr ⟨d, hd, hmid, hrest⟩

theorem Grows.weaken {start start' : Dev → Prop} {s s' : GroupState}
    (h : Grows net group start s s') (hstart : ∀ d, start d → start' d) :
    Grows net group start' s s' where
  mono := h.mono
  new p hp := (h.new p hp).imp id fun ⟨hg, d, hd, hreach⟩ => ⟨hg, d, hstart d hd, hreach⟩
  closed := h.closed
  ports := h.ports

/-- The devices that are not yet in the group. -/
def remaining (net : Network) (group : Nat) (s : GroupState) : Nat :=
  net.getAllQbbNetDevices.countP fun d => (d, group) ∉ s.groups

theorem remaining_le {s s' : GroupState} (h : ∀ p ∈ s.groups, p ∈ s'.groups) :
    net.remaining group s' ≤ net.remaining group s := by
  refine List.countP_mono_left fun d _ hd => ?_
  simp only [decide_eq_true_eq] at hd ⊢
  exact fun hmem => hd (h _ hmem)

theorem remaining_lt {s : GroupState} {d : Dev} (hd : d ∈ net.getAllQbbNetDevices)
    (hnot : (d, group) ∉ s.groups) :
    net.remaining group { s with groups := s.groups ++ [(d, group)] } <
      net.remaining group s := by
  refine countP_lt (fun x _ hx => ?_) hd (by simp) (by simpa using hnot)
  simp only [decide_eq_true_eq] at hx ⊢
  exact fun hmem => hx (List.mem_append_left _ hmem)

/-- The loop over the other devices of a switch. -/
theorem foldlM_grows {add : Dev → GroupState → Option GroupState} {ds : List Dev} {s : GroupState}
    (hadd : ∀ d ∈ ds, ∀ s, net.remaining group s < fuel →
      ∃ s', add d s = some s' ∧ Grows net group (· = d) s s' ∧ (d, group) ∈ s'.groups)
    (hs : net.remaining group s < fuel) :
    ∃ s', ds.foldlM (fun s d => add d s) s = some s' ∧ Grows net group (· ∈ ds) s s' ∧
      ∀ d ∈ ds, (d, group) ∈ s'.groups := by
  induction ds generalizing s with
  | nil => exact ⟨s, rfl, .refl, fun _ h => nomatch h⟩
  | cons d ds ih =>
    obtain ⟨s₁, hs₁, hgrows, hmem⟩ := hadd d List.mem_cons_self s hs
    obtain ⟨s₂, hs₂, hgrows', hmems⟩ := ih (fun d hd => hadd d (List.mem_cons_of_mem _ hd))
      ((remaining_le hgrows.mono).trans_lt hs)
    refine ⟨s₂, by rw [List.foldlM_cons, hs₁]; exact hs₂, ?_, fun x hx => ?_⟩
    · exact (hgrows.trans hgrows').weaken fun x hx => List.mem_cons.mpr hx
    · rcases List.mem_cons.mp hx with rfl | hx
      · exact hgrows'.mono _ hmem
      · exact hmems x hx

theorem mem_emplace {s : GroupState} {e : Dev} :
    p ∈ ((s.emplace e group).ogroups sw g).keys ↔
      p ∈ (s.ogroups sw g).keys ∨ (e = ⟨sw, p⟩ ∧ g = group) := by
  obtain ⟨v, i⟩ := e
  simp only [GroupState.emplace, Dev.mk.injEq]
  split
  next h =>
    obtain ⟨rfl, rfl⟩ := h
    rw [OrdMap.mem_keys_insert, or_comm]
    simp [eq_comm]
  next h =>
    refine ⟨.inl, fun hp => hp.resolve_right ?_⟩
    rintro ⟨⟨rfl, -⟩, rfl⟩
    exact h ⟨rfl, rfl⟩

/-- A device joins the group: what follows is what the switch at the other end does, if there is
one. -/
theorem Grows.cons {d e : Dev} {s s₁ s' : GroupState} (hnot : (d, group) ∉ s.groups)
    (he : net.getPeerNetDevice d = some e) (hgroups : s₁.groups = s.groups ++ [(d, group)])
    (hports : ∀ sw g p, p ∈ (s₁.ogroups sw g).keys ↔ p ∈ (s.ogroups sw g).keys ∨
      (net.isSwitchNode sw = true ∧ e = ⟨sw, p⟩ ∧ g = group))
    (h : Grows net group (fun x => net.isSwitchNode e.node = true ∧ x ∈ net.otherDevs e) s₁ s')
    (hall : net.isSwitchNode e.node = true → ∀ x ∈ net.otherDevs e, (x, group) ∈ s'.groups) :
    Grows net group (· = d) s s' ∧ (d, group) ∈ s'.groups := by
  have hmem_iff : ∀ p, p ∈ s₁.groups ↔ p ∈ s.groups ∨ p = (d, group) := fun p => by
    rw [hgroups, List.mem_append, List.mem_singleton]
  have hmem : (d, group) ∈ s'.groups := h.mono _ ((hmem_iff _).mpr (.inr rfl))
  refine ⟨?_, hmem⟩
  constructor
  case mono => exact fun p hp => h.mono p ((hmem_iff p).mpr (.inl hp))
  case new =>
    intro p hp
    rcases h.new p hp with hp | ⟨hg, x, ⟨hsw, hx⟩, hreach⟩
    · rcases (hmem_iff p).mp hp with hp | rfl
      · exact .inl hp
      · exact .inr ⟨rfl, d, rfl, .refl⟩
    · exact .inr ⟨hg, d, rfl, .head ⟨e, he, hsw, hx⟩ hreach⟩
  case closed =>
    intro x hx hxs y hy
    by_cases hxd : x = d
    · obtain ⟨e', he', hsw, hy⟩ := hy
      rw [hxd, he, Option.some.injEq] at he'
      rw [← he'] at hsw hy
      exact hall hsw y hy
    · refine h.closed x hx (fun hx₁ => ?_) y hy
      rcases (hmem_iff _).mp hx₁ with hx₁ | hx₁
      · exact hxs hx₁
      · exact hxd (congrArg Prod.fst hx₁)
  case ports =>
    intro sw g p
    rw [h.ports, hports]
    constructor
    · rintro ((hp | ⟨hsw, rfl, rfl⟩) | ⟨x, hx, hx₁, hrest⟩)
      · exact .inl hp
      · exact .inr ⟨d, hmem, hnot, he, hsw⟩
      · exact .inr ⟨x, hx, fun h => hx₁ ((hmem_iff _).mpr (.inl h)), hrest⟩
    · rintro (hp | ⟨x, hx, hxs, hpeer, hsw⟩)
      · exact .inl (.inl hp)
      · by_cases hx₁ : (x, g) ∈ s₁.groups
        · obtain ⟨rfl, rfl⟩ := Prod.mk.inj (((hmem_iff _).mp hx₁).resolve_left hxs)
          rw [he, Option.some.injEq] at hpeer
          exact .inl (.inr ⟨hsw, hpeer, rfl⟩)
        · exact .inr ⟨x, hx, hx₁, hpeer, hsw⟩

/-- **`AddGroup`** terminates, whatever cycles the network has, and reaches all it spreads to. -/
theorem addGroup_grows {d : Dev} {s : GroupState} (hd : d ∈ net.getAllQbbNetDevices)
    (hs : net.remaining group s < fuel) :
    ∃ s', net.addGroup group fuel d s = some s' ∧ Grows net group (· = d) s s' ∧
      (d, group) ∈ s'.groups := by
  induction fuel generalizing d s with
  | zero => exact absurd hs (Nat.not_lt_zero _)
  | succ fuel ih =>
    unfold addGroup
    split
    next hmem => exact ⟨s, rfl, .refl, by simpa using hmem⟩
    next hnot =>
      have hnot : (d, group) ∉ s.groups := by simpa using hnot
      obtain ⟨e, he⟩ := Option.isSome_iff_exists.mp (mem_getAllQbbNetDevices.mp hd).2
      simp only [he, onPeerJoinGroup]
      split
      next hsw =>
        have hin : ∀ x ∈ net.otherDevs e, x ∈ net.getAllQbbNetDevices := by
          intro x hx
          obtain ⟨hnode, -, hpeer⟩ := mem_otherDevs.mp hx
          exact mem_getAllQbbNetDevices.mpr ⟨hnode ▸ isSwitchNode_lt hsw, hpeer⟩
        obtain ⟨s', hs', hgrows, hmems⟩ := foldlM_grows
          (s := { s with groups := s.groups ++ [(d, group)] }.emplace e group)
          (fun x hx s hs => ih (hin x hx) hs)
          (Nat.lt_of_lt_of_le (remaining_lt hd hnot) (Nat.le_of_lt_succ hs))
        refine ⟨s', hs', Grows.cons hnot he rfl (fun sw g p => ?_)
          (hgrows.weaken fun x hx => ⟨hsw, hx⟩) fun _ => hmems⟩
        rw [mem_emplace]
        refine or_congr_right ⟨fun h => ?_, And.right⟩
        have hnode : e.node = sw := congrArg Dev.node h.1
        exact ⟨hnode ▸ hsw, h⟩
      next hsw =>
        refine ⟨_, rfl, Grows.cons hnot he rfl (fun sw g p => ?_) .refl fun h => absurd h hsw⟩
        refine ⟨.inl, fun h => h.resolve_right ?_⟩
        rintro ⟨hsw', rfl, -⟩
        exact hsw hsw'

/-- What a sequence of calls of `AddGroup` leaves: the devices that the calls reach, and at every
switch the ports whose peer is in the group. -/
structure Joined (net : Network) (calls : List (Dev × Nat)) (s : GroupState) : Prop where
  groups : ∀ x g, (x, g) ∈ s.groups ↔
    ∃ d, (d, g) ∈ calls ∧ Relation.ReflTransGen net.Spread d x
  ogroups : ∀ sw g p, p ∈ (s.ogroups sw g).keys ↔ ∃ d, (d, g) ∈ s.groups ∧
    net.getPeerNetDevice d = some ⟨sw, p⟩ ∧ net.isSwitchNode sw = true

theorem Joined.init : Joined net [] {} where
  groups x g := by simp
  ogroups sw g p := by simp

/-- The group of a call spreads over what is there already. -/
theorem Joined.addGroup {calls : List (Dev × Nat)} {s : GroupState} (h : Joined net calls s)
    (hd : d ∈ net.getAllQbbNetDevices) (hfuel : net.getAllQbbNetDevices.length < fuel) :
    ∃ s', net.addGroup g fuel d s = some s' ∧ Joined net (calls ++ [(d, g)]) s' := by
  obtain ⟨s', hs', hgrows, hmem⟩ := addGroup_grows hd
    (Nat.lt_of_le_of_lt (List.countP_le_length : net.remaining g s ≤ _) hfuel)
  refine ⟨s', hs', fun x g' => ?_, fun sw g' p => ?_⟩
  · constructor
    · intro hx
      rcases hgrows.new _ hx with hx | ⟨rfl, _, rfl, hreach⟩
      · obtain ⟨w, hw, hreach⟩ := (h.groups x g').mp hx
        exact ⟨w, List.mem_append_left _ hw, hreach⟩
      · exact ⟨_, List.mem_append_right _ (List.mem_singleton_self _), hreach⟩
    · rintro ⟨w, hw, hreach⟩
      rcases List.mem_append.mp hw with hw | hw
      · exact hgrows.mono _ ((h.groups x g').mpr ⟨w, hw, hreach⟩)
      · obtain ⟨rfl, rfl⟩ := Prod.mk.inj (List.mem_singleton.mp hw)
        -- what the new device spreads to, it finds in the group or adds to it
        induction hreach with
        | refl => exact hmem
        | @tail y z hreach hz ih =>
          by_cases hy : (y, g') ∈ s.groups
          · obtain ⟨w', hw', hreach'⟩ := (h.groups y g').mp hy
            exact hgrows.mono _ ((h.groups z g').mpr ⟨w', hw', hreach'.tail hz⟩)
          · exact hgrows.closed y ih hy z hz
  · rw [hgrows.ports, h.ogroups]
    constructor
    · rintro (⟨d, hd, hrest⟩ | ⟨d, hd, -, hrest⟩)
      · exact ⟨d, hgrows.mono _ hd, hrest⟩
      · exact ⟨d, hd, hrest⟩
    · rintro ⟨d, hd, hrest⟩
      by_cases hds : (d, g') ∈ s.groups
      · exact .inl ⟨d, hds, hrest⟩
      · exact .inr ⟨d, hd, hds, hrest⟩

/-- **Any calls, in any order**, terminate, and what they leave is closed under the flooding. -/
theorem addGroups_joined {calls : List (Dev × Nat)}
    (h : ∀ call ∈ calls, call.1 ∈ net.getAllQbbNetDevices)
    (hfuel : net.getAllQbbNetDevices.length < fuel) :
    ∃ s, net.addGroups fuel calls {} = some s ∧ Joined net calls s := by
  have hrun : ∀ (done todo : List (Dev × Nat)) (s : GroupState), Joined net done s →
      (∀ call ∈ todo, call.1 ∈ net.getAllQbbNetDevices) →
      ∃ s', net.addGroups fuel todo s = some s' ∧ Joined net (done ++ todo) s' := by
    intro done todo
    induction todo generalizing done with
    | nil => exact fun s hs _ => ⟨s, rfl, by rwa [List.append_nil]⟩
    | cons call todo ih =>
      intro s hs hin
      obtain ⟨s₁, hs₁, hjoined⟩ := hs.addGroup (g := call.2) (hin call List.mem_cons_self) hfuel
      obtain ⟨s', hs', hrest⟩ := ih (done ++ [call]) s₁ hjoined
        fun call hcall => hin call (List.mem_cons_of_mem _ hcall)
      refine ⟨s', ?_, by rwa [List.append_assoc, List.singleton_append] at hrest⟩
      rw [addGroups, List.foldlM_cons, hs₁]
      exact hs'
  exact hrun [] calls {} .init h

/-- What the calls leave is a set that only the set of the calls determines. -/
theorem Joined.unique {calls calls' : List (Dev × Nat)} {s s' : GroupState}
    (h : Joined net calls s) (h' : Joined net calls' s')
    (hsame : ∀ call, call ∈ calls ↔ call ∈ calls') :
    (∀ p, p ∈ s.groups ↔ p ∈ s'.groups) ∧ s.ogroups = s'.ogroups := by
  have hgroups : ∀ p, p ∈ s.groups ↔ p ∈ s'.groups := by
    rintro ⟨x, g⟩
    rw [h.groups, h'.groups]
    exact exists_congr fun d => and_congr_left fun _ => hsame (d, g)
  refine ⟨hgroups, ?_⟩
  funext sw g
  refine OrdMap.ext_keys fun p => ?_
  rw [h.ogroups, h'.ogroups]
  exact exists_congr fun d => and_congr_left fun _ => hgroups (d, g)

/-- **The flooding of groups** terminates on any network, and what is left of any calls depends on
the set of the calls only. -/
theorem addGroups_order_free {calls calls' : List (Dev × Nat)}
    (h : ∀ call ∈ calls, call.1 ∈ net.getAllQbbNetDevices)
    (hsame : ∀ call, call ∈ calls ↔ call ∈ calls')
    (hfuel : net.getAllQbbNetDevices.length < fuel) :
    ∃ s s', net.addGroups fuel calls {} = some s ∧ net.addGroups fuel calls' {} = some s' ∧
      (∀ p, p ∈ s.groups ↔ p ∈ s'.groups) ∧ s.ogroups = s'.ogroups := by
  obtain ⟨s, hs, hjoined⟩ := addGroups_joined h hfuel
  obtain ⟨s', hs', hjoined'⟩ := addGroups_joined
    (fun call hcall => h call ((hsame call).mpr hcall)) hfuel
  exact ⟨s, s', hs, hs', hjoined.unique hjoined' hsame⟩

/-- A cycle of three switches, and two servers. -/
abbrev triangle : Network where
  kinds := [true, true, true, false, false]
  devices
    | 0 => [⟨⟨1, 1⟩, 100, 1⟩, ⟨⟨2, 1⟩, 100, 1⟩, ⟨⟨3, 1⟩, 100, 1⟩]
    | 1 => [⟨⟨0, 1⟩, 100, 1⟩, ⟨⟨2, 2⟩, 100, 1⟩, ⟨⟨4, 1⟩, 100, 1⟩]
    | 2 => [⟨⟨0, 2⟩, 100, 1⟩, ⟨⟨1, 2⟩, 100, 1⟩]
    | 3 => [⟨⟨0, 3⟩, 100, 1⟩]
    | 4 => [⟨⟨1, 3⟩, 100, 1⟩]
    | _ => []

/-- Two servers join in one order or the other. -/
theorem addGroups_triangle :
    ((∀ call ∈ [((⟨3, 1⟩ : Dev), 7), (⟨4, 1⟩, 7)], call.1 ∈ triangle.getAllQbbNetDevices) ∧
      triangle.getAllQbbNetDevices.length < 11) ∧
    ∃ s s', triangle.addGroups 11 [(⟨3, 1⟩, 7), (⟨4, 1⟩, 7)] {} = some s ∧
      triangle.addGroups 11 [(⟨4, 1⟩, 7), (⟨3, 1⟩, 7)] {} = some s' ∧
      (∀ p, p ∈ s.groups ↔ p ∈ s'.groups) ∧ s.ogroups = s'.ogroups := by
  have hcalls : ∀ call ∈ [((⟨3, 1⟩ : Dev), 7), (⟨4, 1⟩, 7)],
      call.1 ∈ triangle.getAllQbbNetDevices := by decide
  refine ⟨⟨hcalls, by decide⟩, addGroups_order_free hcalls (fun call => ?_) (by decide)⟩
  simp only [List.mem_cons, List.not_mem_nil, or_false]
  exact or_comm

/-! ## The joins of the servers -/

/-- What a sequence of joins leaves: the devices that the joins reach, and at every switch the
ports whose peer is in the group. -/
structure Grouped (net : Network) (joins : List (Nat × Nat)) (s : GroupState) : Prop where
  groups : ∀ x g, (x, g) ∈ s.groups ↔
    ∃ v, (v, g) ∈ joins ∧ Relation.ReflTransGen net.Spread ⟨v, 1⟩ x
  ogroups : ∀ sw g p, p ∈ (s.ogroups sw g).keys ↔ ∃ d, (d, g) ∈ s.groups ∧
    net.getPeerNetDevice d = some ⟨sw, p⟩ ∧ net.isSwitchNode sw = true

/-- The joins of any servers, in any order. -/
theorem buildGroups_grouped {joins : List (Nat × Nat)}
    (h : ∀ join ∈ joins, (⟨join.1, 1⟩ : Dev) ∈ net.getAllQbbNetDevices) :
    ∃ s, net.buildGroups joins {} = some s ∧ Grouped net joins s := by
  have hcalls : ∀ call ∈ joins.map fun join => ((⟨join.1, 1⟩ : Dev), join.2),
      call.1 ∈ net.getAllQbbNetDevices := List.forall_mem_map.mpr h
  obtain ⟨s, hs, hjoined⟩ := addGroups_joined hcalls (Nat.lt_succ_self _)
  refine ⟨s, by rwa [addGroups, List.foldlM_map] at hs, fun x g => ?_, hjoined.ogroups⟩
  rw [hjoined.groups]
  constructor
  · rintro ⟨_, hd, hreach⟩
    obtain ⟨⟨v, _⟩, hj, heq⟩ := List.mem_map.mp hd
    obtain ⟨rfl, rfl⟩ := Prod.mk.inj heq
    exact ⟨v, hj, hreach⟩
  · rintro ⟨v, hv, hreach⟩
    exact ⟨_, List.mem_map_of_mem hv, hreach⟩

end Network
end Roce
