import Roce.Network.InOrder
import Roce.Switch.WorkConserving

/-! # When PFC cannot deadlock

A packet that waits at a port that is neither busy nor free to send is held back by PFC: the switch
at the other end has paused the port, because of a packet that came by this link and waits there in
turn. If the devices have a rank that falls on the way of every packet, then this cannot go on. -/

namespace Roce

open Function

namespace NetworkRun

/-- No transmission is on its way, and no port of a switch transmits. -/
structure AtRest (net : Network) (x : NetworkRun α) : Prop where
  links : ∀ d, x.left d = (x.outgoing net d).length
  ports : ∀ v, net.isSwitchNode v = true → ∀ port, ((x.switches v).devices port).currentPkt = none

/-- No PFC frame is lost, and the switches have room for what arrives. Hosts send no PFC frames. -/
def Orderly (net : Network) (x : NetworkRun α) : NetworkEvent α → Prop
  | .send _ p => p.ch.l3Prot ≠ 0xFE
  | .arrive d corrupt junk => ∀ tr, x.next net d = some tr →
      (corrupt = true → tr.packet?.isSome = true) ∧
      (corrupt = false → ∀ e port, net.getPeerNetDevice d = some e →
        net.isSwitchNode e.node = true → SwitchNode.toPort e.iface = some port →
        (x.switches e.node).Unhindered (.receive port (tr.arrival junk)))
  | .transmitComplete v port => (x.switches v).Unhindered (.transmitComplete port)

/-- The lanes that the tables of the switches lead a packet to. -/
def packetTargets (x : NetworkRun α) (v : Nat) (p : NetPacket α) (junk : UInt32) (port : Port) :
    List Slot :=
  (x.switches v).targets p.ch junk p.multicast port

/-- A rank of the devices that falls on the way of every packet. The hosts may send any packet, and
a switch only those that `Uses` allows. -/
structure Ranked (net : Network) (tg : Nat → NetPacket α → UInt32 → Port → List Slot) where
  rank : Dev → Nat
  Uses : Dev → NetPacket α → Prop
  host : ∀ d p, net.isSwitchNode d.node = false → Uses d p
  onward : ∀ {d e p port slot junk i}, Uses d p → net.getPeerNetDevice d = some e →
    net.isSwitchNode e.node = true → SwitchNode.toPort e.iface = some port →
    slot ∈ tg e.node p junk port → SwitchNode.toPort i = some slot.1 →
    Uses ⟨e.node, i⟩ p ∧ rank ⟨e.node, i⟩ < rank d

variable {α : Type u} {net : Network} {x y : NetworkRun α} {d e : Dev} {tr : Transmission α}
  {tg : Nat → NetPacket α → UInt32 → Port → List Slot}

/-! ## What is paused -/

/-- The PFC frames among the transmissions. -/
def frames (l : List (Transmission α)) : List PauseHeader :=
  l.filterMap fun
    | .packet _ => none
    | .pfc frame => some frame

theorem frames_map_carry (x : NetworkRun α) (v : Nat) (l : List SwitchPacket) :
    frames (l.map (x.carry v)) = l.filterMap (·.pfc) := by
  rw [frames, List.filterMap_map]
  refine List.filterMap_congr fun p _ => ?_
  simp only [Function.comp_apply, carry]
  cases p.pfc <;> rfl

/-- `m_paused` of the device of a switch. -/
def pausedAt (x : NetworkRun α) (v : Nat) (port : Port) : Priority → Bool :=
  ((x.switches v).devices port).paused

/-- A device of a switch has paused what the frames say that have left its link. -/
structure PauseAgrees (net : Network) (x : NetworkRun α) : Prop where
  left_le : ∀ d, x.left d ≤ (x.outgoing net d).length
  frames : ∀ {d e port}, net.getPeerNetDevice d = some e → net.isSwitchNode e.node = true →
    SwitchNode.toPort e.iface = some port →
    (frames ((x.outgoing net d).take (x.left d))).foldlM PauseHeader.receive (fun _ => false) =
      some (x.pausedAt e.node port)
  linked : ∀ {v port q}, net.isSwitchNode v = true → x.pausedAt v port q = true →
    ∃ d e, net.getPeerNetDevice d = some e ∧ e.node = v ∧ SwitchNode.toPort e.iface = some port

theorem PauseAgrees.grow (h : PauseAgrees net x)
    (hout : ∀ d, x.outgoing net d <+: y.outgoing net d) (hleft : y.left = x.left)
    (hpaused : ∀ v, net.isSwitchNode v = true → y.pausedAt v = x.pausedAt v) :
      PauseAgrees net y := by
  constructor
  case left_le =>
    intro d
    rw [hleft]
    exact (h.left_le d).trans (hout d).length_le
  case frames =>
    intro d e port he hsw hport
    obtain ⟨l, hl⟩ := hout d
    rw [hleft, ← hl, List.take_append_of_le_length (h.left_le d), hpaused _ hsw]
    exact h.frames he hsw hport
  case linked =>
    intro v port q hsw hq
    rw [hpaused v hsw] at hq
    exact h.linked hsw hq

/-- A transmission leaves its link. It changes at most the device at the other end. -/
theorem PauseAgrees.leave (hpeer : ∀ {d e}, net.getPeerNetDevice d = some e →
      net.getPeerNetDevice e = some d) (h : PauseAgrees net x)
    (hnext : x.next net d = some tr) (hout : ∀ d, x.outgoing net d <+: y.outgoing net d)
    (hleft : y.left = update x.left d (x.left d + 1))
    (hself : ∀ e port, net.getPeerNetDevice d = some e → net.isSwitchNode e.node = true →
      SwitchNode.toPort e.iface = some port →
      (NetworkRun.frames [tr]).foldlM PauseHeader.receive (x.pausedAt e.node port) =
        some (y.pausedAt e.node port))
    (hother : ∀ v port, net.isSwitchNode v = true → (∀ e, net.getPeerNetDevice d = some e →
      e.node = v → SwitchNode.toPort e.iface ≠ some port) → y.pausedAt v port = x.pausedAt v port) :
    PauseAgrees net y := by
  constructor
  case left_le =>
    intro d'
    rw [hleft]
    refine Nat.le_trans ?_ (hout d').length_le
    by_cases hd : d' = d
    · subst hd
      rw [update_self]
      exact left_lt hnext
    · rw [update_of_ne hd]
      exact h.left_le d'
  case frames =>
    intro d' e port he hsw hport
    obtain ⟨l, hl⟩ := hout d'
    by_cases hd : d' = d
    · subst hd
      rw [hleft, update_self, ← hl, List.take_append_of_le_length (left_lt hnext), take_next hnext,
        NetworkRun.frames, List.filterMap_append, List.foldlM_append]
      exact (congrArg (· >>= _) (h.frames he hsw hport)).trans (hself e port he hsw hport)
    · rw [hleft, update_of_ne hd, ← hl, List.take_append_of_le_length (h.left_le d'),
        hother e.node port hsw fun e' he' hnode hport' => hd ?_]
      · exact h.frames he hsw hport
      · -- each device has its own link
        have heq : e' = e := by
          have hiface := SwitchNode.toPort_inj hport' hport
          cases e'
          cases e
          cases hnode
          cases hiface
          rfl
        have hback := hpeer he'
        rw [heq, hpeer he, Option.some.injEq] at hback
        exact hback
  case linked =>
    intro v port q hsw hq
    by_cases hd : ∃ e, net.getPeerNetDevice d = some e ∧ e.node = v ∧
        SwitchNode.toPort e.iface = some port
    · obtain ⟨e, he, hnode, hport⟩ := hd
      exact ⟨d, e, he, hnode, hport⟩
    · rw [hother v port hsw fun e he hnode hport => hd ⟨e, he, hnode, hport⟩] at hq
      exact h.linked hsw hq

/-! ## Where the packets come from -/

/-- A packet that a switch has taken came by a device that it uses, and is in a lane that the tables
lead to. -/
def CameBy (net : Network) (ranked : Ranked net tg) (x : NetworkRun α) (v : Nat) (slot : Slot)
    (q : SwitchPacket) : Prop :=
  ∃ d e port junk, q.flowId = some port ∧ net.getPeerNetDevice d = some e ∧ e.node = v ∧
    SwitchNode.toPort e.iface = some port ∧ ranked.Uses d (x.contents v q.ptr) ∧
    (x.contents v q.ptr).ch.l3Prot ≠ 0xFE ∧ slot ∈ tg v (x.contents v q.ptr) junk port

/-- What holds in every run. -/
structure Traffic (net : Network) (ranked : Ranked net tg) (x : NetworkRun α) : Prop where
  targets : ∀ v p junk port, x.packetTargets v p junk port = tg v p junk port
  inOrder : ∀ v, (x.switches v).InOrder
  healthy : ∀ v, net.isSwitchNode v = true → (x.switches v).Healthy
  pauses : PauseAgrees net x
  sent : ∀ {v p}, p ∈ x.sent v → p.ch.l3Prot ≠ 0xFE
  came : ∀ {v slot q}, net.isSwitchNode v = true → q ∈ (x.switches v).lane slot →
    CameBy net ranked x v slot q

variable {ranked : Ranked net tg}

/-- A packet that a device has put out uses this device. -/
theorem Traffic.uses (h : Traffic net ranked x) (hp : .packet p ∈ x.outgoing net d) :
    ranked.Uses d p ∧ p.ch.l3Prot ≠ 0xFE := by
  cases hsw : net.isSwitchNode d.node with
  | true =>
    cases hport : SwitchNode.toPort d.iface with
    | none =>
      rw [NetworkRun.outgoing, if_pos hsw, hport] at hp
      exact absurd hp List.not_mem_nil
    | some port =>
      rw [outgoing_switch hsw hport] at hp
      obtain ⟨q, hq, hcarry⟩ := List.mem_map.mp hp
      unfold carry at hcarry
      split at hcarry
      next => cases hcarry
      next hpfc =>
        cases hcarry
        obtain ⟨qIndex, hlane⟩ := SwitchNode.mem_lane_of_transmitted hq hpfc
        obtain ⟨d₀, e, port₀, junk, -, he, hnode, hport₀, huses, hprot, hslot⟩ := h.came hsw hlane
        have hslot : (port, qIndex) ∈ tg e.node (x.contents d.node q.ptr) junk port₀ :=
          hnode ▸ hslot
        have honward := (ranked.onward huses he (hnode ▸ hsw) hport₀ hslot hport).1
        rw [hnode] at honward
        exact ⟨honward, hprot⟩
  | false =>
    rw [NetworkRun.outgoing, hsw, if_neg Bool.false_ne_true] at hp
    split at hp
    · obtain ⟨p', hp', heq⟩ := List.mem_map.mp hp
      cases heq
      exact ⟨ranked.host d p hsw, h.sent hp'⟩
    · exact absurd hp List.not_mem_nil

/-- A switch handles an event: its lanes take the packets of `new`. -/
theorem Traffic.event {s : SwitchNode} {new : Slot → List SwitchPacket} (h : Traffic net ranked x)
    (hsw : net.isSwitchNode v = true) (henters : (x.switches v).Enters s new) (hhealthy : s.Healthy)
    (hpauses : PauseAgrees net y) (hswitches : y.switches = Function.update x.switches v s)
    (hcontents : ∀ w ptr, (w = v → ptr < (x.switches v).nextPtr) →
      y.contents w ptr = x.contents w ptr)
    (hsent : y.sent = x.sent) (hnew : ∀ slot, ∀ q ∈ new slot, CameBy net ranked y v slot q) :
    Traffic net ranked y := by
  have hself : y.switches v = s := by rw [hswitches, update_self]
  have hne : ∀ w, w ≠ v → y.switches w = x.switches w := fun w hw => by
    rw [hswitches, update_of_ne hw]
  have hold : ∀ {w slot q}, net.isSwitchNode w = true → q ∈ (x.switches w).lane slot →
      CameBy net ranked y w slot q := by
    intro w slot q hw hq
    have hsame : y.contents w q.ptr = x.contents w q.ptr := by
      refine hcontents w q.ptr fun heq => ?_
      subst heq
      exact (h.inOrder _).fresh slot q hq
    rw [CameBy, hsame]
    exact h.came hw hq
  constructor
  case targets =>
    intro w p junk port
    rw [← h.targets w p junk port, packetTargets, packetTargets]
    by_cases hw : w = v
    · subst hw
      rw [hself, henters.tables.targets]
    · rw [hne w hw]
  case inOrder =>
    intro w
    by_cases hw : w = v
    · subst hw
      rw [hself]
      exact (h.inOrder w).enters henters
    · rw [hne w hw]
      exact h.inOrder w
  case healthy =>
    intro w hw
    by_cases heq : w = v
    · subst heq
      rwa [hself]
    · rw [hne w heq]
      exact h.healthy w hw
  case pauses => exact hpauses
  case sent => exact hsent ▸ h.sent
  case came =>
    intro w slot q hw hq
    by_cases heq : w = v
    · subst heq
      rw [hself, henters.lane] at hq
      rcases List.mem_append.mp hq with hq | hq
      · exact hold hw hq
      · exact hnew slot q hq
    · rw [hne w heq] at hq
      exact hold hw hq

/-- Nothing happens to the switches. -/
theorem Traffic.same (h : Traffic net ranked x) (hpauses : PauseAgrees net y)
    (hswitches : y.switches = x.switches) (hcontents : y.contents = x.contents)
    (hsent : ∀ {v p}, p ∈ y.sent v → p.ch.l3Prot ≠ 0xFE) : Traffic net ranked y := by
  constructor
  case targets =>
    intro v p junk port
    rw [packetTargets, hswitches]
    exact h.targets v p junk port
  case inOrder => exact hswitches ▸ h.inOrder
  case healthy => exact hswitches ▸ h.healthy
  case pauses => exact hpauses
  case sent => exact hsent
  case came =>
    intro v slot q hsw hq
    rw [hswitches] at hq
    rw [CameBy, hcontents]
    exact h.came hsw hq

/-- The network before the first packet. -/
theorem Traffic.start {f : Fabric} {t : RoutingTables} {ranked : Ranked f.net (packetTargets x)}
    (h : Initial f t x) (hequipped : ∀ v, (x.switches v).Equipped) : Traffic f.net ranked x := by
  constructor
  case targets => exact fun _ _ _ _ => rfl
  case inOrder => exact fun v => (h.idle v).inOrder
  case healthy => exact fun v _ => (hequipped v).healthy
  case pauses =>
    refine ⟨fun d => ?_, fun {d e port} _ _ _ => ?_, fun {v port q} _ hq => ?_⟩
    · rw [h.left]
      exact Nat.zero_le _
    · rw [h.outgoing, List.take_nil]
      exact congrArg some (funext fun q => ((h.idle e.node).paused port q).symm)
    · rw [pausedAt, (h.idle v).paused] at hq
      cases hq
  case sent =>
    intro v p hp
    rw [h.sent] at hp
    exact absurd hp List.not_mem_nil
  case came =>
    intro v slot q _ hq
    rw [(h.idle v).lane] at hq
    exact absurd hq List.not_mem_nil

section
variable (hpeer : ∀ {d e}, net.getPeerNetDevice d = some e → net.getPeerNetDevice e = some d)
include hpeer

/-- A switch receives what has left a link. -/
theorem Traffic.forward {s : SwitchNode} (h : Traffic net ranked x)
    (hnext : x.next net d = some tr) (he : net.getPeerNetDevice d = some e)
    (hsw : net.isSwitchNode e.node = true) (hport : SwitchNode.toPort e.iface = some port)
    (hs : SwitchNode.receive (SwitchNode.dequeueAndTransmit fuel) port (tr.arrival junk)
      (x.switches e.node) = some s)
    (hunhindered : (x.switches e.node).Unhindered (.receive port (tr.arrival junk))) :
    Traffic net ranked { x.receiveAt d e.node tr with
      switches := update x.switches e.node s
      contents := x.learn e.node tr } := by
  have ht : SwitchNode.KeepsWorking (SwitchNode.dequeueAndTransmit fuel) :=
    SwitchNode.keepsWorking_dequeueAndTransmit fuel
  have hhealthy := h.healthy e.node hsw
  obtain ⟨new, henters, hpfc, hflow, hcount⟩ :=
    SwitchNode.Enters.receive (SwitchNode.keepsLanes_dequeueAndTransmit fuel) hs
  have happ : (x.switches e.node).Appends s := SwitchNode.onEvent_appends (e := .receive _ _) hs
  have hold : ∀ w ptr, (w = e.node → ptr < (x.switches e.node).nextPtr) →
      x.learn e.node tr w ptr = x.contents w ptr := fun _ _ => learn_old
  have hadvances : Advances x { x.receiveAt d e.node tr with
      switches := update x.switches e.node s
      contents := x.learn e.node tr } := Advances.update happ rfl hold rfl
  -- what the device at the end of the link does with the transmission
  have hpaused : ∃ paused,
      (frames [tr]).foldlM PauseHeader.receive (x.pausedAt e.node port) = some paused ∧
      ((x.switches e.node).setDevice port
        { (x.switches e.node).devices port with paused }).SameDevices s := by
    cases tr with
    | pfc frame =>
      obtain ⟨paused, hreceive, hsame⟩ :=
        hhealthy.working.frame ht (hhealthy.up port).1 rfl (hhealthy.up port).2 rfl hs
      refine ⟨paused, ?_, hsame⟩
      exact (congrArg (· >>= fun paused => some paused) hreceive)
    | packet p =>
      have hprot : p.ch.l3Prot ≠ 0xFE := (h.uses (List.mem_of_getElem? hnext)).2
      refine ⟨_, rfl, ?_⟩
      have hsame := hhealthy.working.receive ht hunhindered.room hprot hs
      refine SwitchNode.SameDevices.trans (SwitchNode.SameDevices.of_eq ?_) hsame
      funext port'
      dsimp only [SwitchNode.setDevice, pausedAt]
      rw [update_eq_self]
  obtain ⟨paused, hreceive, hsame⟩ := hpaused
  have hat : ∀ port', (s.devices port').paused =
      if port' = port then paused else x.pausedAt e.node port' := by
    intro port'
    rw [hsame.paused]
    dsimp only [SwitchNode.setDevice]
    rw [update_apply]
    split <;> rfl
  refine h.event hsw henters (hhealthy.onEvent hunhindered hs) ?_ rfl hold rfl ?_
  · refine h.pauses.leave hpeer hnext (hadvances.outgoing h.inOrder) rfl ?_ ?_
    · intro e' port' he' _ hport'
      obtain rfl := Option.some.inj (he.symm.trans he')
      obtain rfl := Option.some.inj (hport.symm.trans hport')
      rw [hreceive, pausedAt]
      dsimp only
      rw [update_self, hat, if_pos rfl]
    · intro v port' _ hne
      rw [pausedAt, pausedAt]
      dsimp only
      by_cases hv : v = e.node
      · subst hv
        have hport' : port' ≠ port := fun heq => hne e he rfl (heq.symm ▸ hport)
        rw [update_self, hat, if_neg hport']
        rfl
      · rw [update_of_ne hv]
  · intro slot q hq
    cases tr with
    | pfc frame =>
      rw [hpfc rfl] at hq
      exact absurd hq List.not_mem_nil
    | packet p =>
      obtain ⟨huses, hprot⟩ := h.uses (List.mem_of_getElem? hnext)
      have hcontents : x.learn e.node (.packet p) e.node q.ptr = p :=
        learn_new (henters.fresh slot q hq).1
      have hslot : slot ∈ tg e.node p junk port := by
        rw [← h.targets]
        refine List.count_pos_iff.mp (Nat.lt_of_lt_of_le ?_ (hcount slot))
        exact List.length_pos_iff.mpr (List.ne_nil_of_mem hq)
      refine ⟨d, e, port, junk, hflow slot q hq, he, rfl, hport, ?_⟩
      dsimp only
      rw [hcontents]
      exact ⟨huses, hprot, hslot⟩

/-- Each event keeps what holds. -/
theorem Traffic.step (h : Traffic net ranked x) (horderly : Orderly net x ev)
    (hs : Step net x ev y) : Traffic net ranked y := by
  cases hs with
  | @send host p _ hhost hsw hsip =>
    refine h.same (h.pauses.grow (fun d => ?_) rfl fun _ _ => rfl) rfl rfl ?_
    · unfold NetworkRun.outgoing
      split
      · exact List.prefix_rfl
      · dsimp only
        by_cases hd : d.node = host
        · rw [hd, update_self, List.map_append]
          split
          · exact List.prefix_append ..
          · exact List.prefix_rfl
        · rw [update_of_ne hd]
    · intro v p' hp
      dsimp only at hp
      by_cases hv : v = host
      · subst hv
        rw [update_self] at hp
        rcases List.mem_append.mp hp with hp | hp
        · exact h.sent hp
        · rw [List.mem_singleton.mp hp]
          exact horderly
      · rw [update_of_ne hv] at hp
        exact h.sent hp
  | @lose tr _ _ _ hnext =>
    refine h.same (h.pauses.leave hpeer hnext (fun _ => List.prefix_rfl) rfl
      (fun e port _ _ _ => ?_)
      fun _ _ _ _ => rfl) rfl rfl h.sent
    cases tr with
    | pfc frame => exact absurd ((horderly _ hnext).1 rfl) Bool.false_ne_true
    | packet p => rfl
  | @deliver tr d e junk _ hnext he hsw =>
    have hpauses : PauseAgrees net (x.receiveAt d e.node tr) := by
      refine h.pauses.leave hpeer hnext (fun _ => List.prefix_rfl) rfl
        (fun e' port he' hsw' _ => ?_)
        fun _ _ _ _ => rfl
      obtain rfl := Option.some.inj (he.symm.trans he')
      rw [hsw] at hsw'
      cases hsw'
    exact h.same hpauses rfl rfl h.sent
  | @forward tr d e port fuel s junk _ hnext he hsw hport hs =>
    exact h.forward hpeer hnext he hsw hport hs ((horderly _ hnext).2 rfl e port he hsw hport)
  | @transmitComplete v fuel port s _ hsw hs =>
    have henters := (SwitchNode.SameLanes.transmitComplete hs).enters
    have happ : (x.switches v).Appends s :=
      SwitchNode.onEvent_appends (e := .transmitComplete _) hs
    have hhealthy := h.healthy v hsw
    have hsame := hhealthy.working.transmitComplete
      (SwitchNode.keepsWorking_dequeueAndTransmit fuel) hs
    have hadvances : Advances x { x with switches := update x.switches v s } :=
      Advances.update happ rfl (fun _ _ _ => rfl) rfl
    refine h.event hsw henters (hhealthy.onEvent horderly hs) ?_ rfl (fun _ _ _ => rfl) rfl
      fun slot q hq => absurd hq List.not_mem_nil
    refine h.pauses.grow (hadvances.outgoing h.inOrder) rfl fun w _ => ?_
    funext port'
    rw [pausedAt, pausedAt]
    dsimp only
    by_cases hw : w = v
    · subst hw
      rw [update_self]
      exact hsame.paused port'
    · rw [update_of_ne hw]

end

/-! ## No deadlock -/

/-- **Nothing waits at rest.** By induction on the rank: the packet that keeps a port paused waits
behind a port of a lower rank. -/
theorem Traffic.nothing_waits (hpeer : ∀ {d e}, net.getPeerNetDevice d = some e →
      net.getPeerNetDevice e = some d) (h : Traffic net ranked x) (hrest : AtRest net x)
    (hsw : net.isSwitchNode v = true) (slot : Slot) : (x.switches v).queueAt slot = [] := by
  induction hk : ranked.rank ⟨v, slot.1⟩ using Nat.strongRecOn generalizing v slot with
  | _ k ih =>
    obtain ⟨port, qIndex⟩ := slot
    by_contra hwaits
    have hhealthy := h.healthy v hsw
    have hpaused := hhealthy.paused (hrest.ports v hsw port) hwaits
    have hq : qIndex ≠ 0 := fun heq => hwaits (heq ▸ hhealthy.urgent (hrest.ports v hsw port))
    obtain ⟨d, e, he, rfl, hport⟩ := h.pauses.linked (q := qIndex) hsw hpaused
    -- all frames of the other end have arrived
    have hframes := h.pauses.frames he hsw hport
    rw [hrest.links d, List.take_length] at hframes
    have hnone : frames (x.outgoing net d) = [] → False := by
      intro hnil
      rw [hnil] at hframes
      have hfalse := congrFun (Option.some.inj hframes) qIndex
      rw [pausedAt, hpaused] at hfalse
      cases hfalse
    cases hdsw : net.isSwitchNode d.node with
    | false =>
      refine hnone ?_
      rw [NetworkRun.outgoing, hdsw, if_neg Bool.false_ne_true]
      split
      · rw [NetworkRun.frames, List.filterMap_map]
        exact List.filterMap_eq_nil_iff.mpr fun _ _ => rfl
      · rfl
    | true =>
      cases hdport : SwitchNode.toPort d.iface with
      | none =>
        refine hnone ?_
        rw [NetworkRun.outgoing, if_pos hdsw, hdport]
        rfl
      | some port' =>
        have hother := h.healthy d.node hdsw
        have hagrees := hother.agrees.frames port'
        rw [SwitchNode.outgoing, hother.urgent (hrest.ports _ hdsw port'), List.append_nil,
          receiveFrames, ← frames_map_carry x d.node, ← outgoing_switch hdsw hdport,
          hframes] at hagrees
        have hmmu : (x.switches d.node).mmu.paused (port', qIndex) = true := by
          rw [← hpaused]
          exact (congrFun (Option.some.inj hagrees) qIndex).symm
        have hlifted := (hother.covers (port', qIndex) hmmu).resolve_left id
        obtain ⟨outDev, p, hp, hflow⟩ := hlifted.buffered hother.refused
        have hlane : p ∈ (x.switches d.node).lane (outDev, qIndex) := by
          have hpfc := hother.agrees.plain.queues outDev qIndex hq p hp
          exact List.mem_filter.mpr ⟨List.mem_append_right _ hp, by rw [hpfc]; rfl⟩
        -- the packet came by the link of the port that is paused
        obtain ⟨d₀, e₀, port₀, junk, hflow₀, he₀, hnode, hport₀, huses, -, hslot⟩ :=
          h.came hdsw hlane
        obtain rfl : port₀ = port' := Option.some.inj (hflow₀.symm.trans hflow)
        have hd : e₀ = d := by
          have hiface := SwitchNode.toPort_inj hport₀ hdport
          cases e₀
          cases d
          cases hnode
          cases hiface
          rfl
        subst hd
        have hback : d₀ = e := by
          have hsymm := hpeer he₀
          rw [he, Option.some.injEq] at hsymm
          exact hsymm.symm
        subst hback
        have hout : SwitchNode.toPort outDev.val = some outDev := dif_pos outDev.isLt
        have hrank := (ranked.onward huses he₀ hdsw hport₀ hslot hout).2
        have hdev : d₀ = ⟨d₀.node, port.val⟩ := by
          obtain ⟨_, hval⟩ := Option.dite_none_right_eq_some.mp hport
          rw [← Option.some.inj hval]
        rw [hdev, hk] at hrank
        exact List.ne_nil_of_mem hp (ih _ hrank hdsw (outDev, qIndex) rfl)

/-- The runs of a network whose switches have PFC on all ports. -/
def pfcMachine (f : Fabric) (t : RoutingTables) : Machine (NetworkRun α) (NetworkEvent α) where
  init x := Initial f t x ∧ ∀ v, (x.switches v).Equipped
  step := Step f.net

/-- `Orderly` of a step, computed; it leaves out the multicast packets that make a switch pause. -/
def orderly (net : Network) (x y : NetworkRun α) : NetworkEvent α → Bool
  | .send _ p => p.ch.l3Prot ≠ 0xFE
  | .arrive d corrupt junk => (x.next net d).all fun tr =>
    if corrupt then tr.packet?.isSome
    else (net.getPeerNetDevice d).all fun e => !net.isSwitchNode e.node ||
      (SwitchNode.toPort e.iface).all fun port =>
        let s := x.switches e.node
        s.Fits (.receive port (tr.arrival junk)) && s.calm (.receive port (tr.arrival junk)) &&
          s.Room (.receive port (tr.arrival junk)) && (y.switches e.node).refused.isEmpty
  | .transmitComplete v _ => (y.switches v).refused.isEmpty

theorem orderly_of_step (h : Step net x ev y) (ho : orderly net x y ev = true) :
    Orderly net x ev := by
  cases h with
  | send =>
    rw [orderly, decide_eq_true_eq] at ho
    exact ho
  | lose hnext =>
    intro tr hnext'
    cases hnext.symm.trans hnext'
    rw [orderly, hnext] at ho
    exact ⟨fun _ => ho, Bool.noConfusion⟩
  | deliver hnext he hsw =>
    intro tr hnext'
    refine ⟨Bool.noConfusion, fun _ e port he' hsw' => ?_⟩
    cases he.symm.trans he'
    cases hsw.symm.trans hsw'
  | forward hnext he hsw hport hs =>
    intro tr hnext'
    refine ⟨Bool.noConfusion, fun _ e port he' _ hport' => ?_⟩
    cases hnext.symm.trans hnext'
    cases he.symm.trans he'
    cases hport.symm.trans hport'
    rw [orderly, hnext, Option.all_some, if_neg Bool.false_ne_true, he, Option.all_some, hsw,
      Bool.not_true, Bool.false_or, hport, Option.all_some] at ho
    simp only [Bool.and_eq_true, decide_eq_true_eq, update_self] at ho
    obtain ⟨⟨⟨hfits, hcalm⟩, hroom⟩, hnone⟩ := ho
    exact SwitchNode.unhindered_of_step hfits hcalm hroom hs (List.isEmpty_iff.mp hnone)
  | transmitComplete hsw hs =>
    rw [orderly] at ho
    dsimp only at ho
    rw [update_self] at ho
    exact SwitchNode.unhindered_of_step trivial rfl trivial hs (List.isEmpty_iff.mp ho)

/-- An orderly step, computed. -/
def handleOrderly (net : Network) (fuel : Nat) (x : NetworkRun α) (e : NetworkEvent α) :
    Option (NetworkRun α) :=
  (handle net fuel x e).filter (orderly net x · e)

theorem step_of_handleOrderly (h : handleOrderly net fuel x ev = some y) :
    Orderly net x ev ∧ Step net x ev y := by
  obtain ⟨hs, ho⟩ := Option.filter_eq_some_iff.mp h
  exact ⟨orderly_of_step (step_of_handle hs) ho, step_of_handle hs⟩

/-- The start with PFC on all ports, and the given buffers. -/
def startPfc (f : Fabric) (t : RoutingTables) (cfg : MmuConfig) (p : NetPacket α) : NetworkRun α :=
  { start f t p with
    switches := fun v =>
      { (start f t p).switches v with
        mmu := { toMmuConfig := cfg }
        devices := fun _ => { qbbEnabled := true } } }

theorem equipped_startPfc (f : Fabric) (t : RoutingTables) (cfg : MmuConfig) (p : NetPacket α)
    (v : Nat) : ((startPfc f t cfg p).switches v).Equipped where
  toIdle := ⟨⟨_, rfl⟩, fun _ _ => rfl, fun _ => rfl, fun _ _ => rfl, fun _ => rfl, rfl, rfl,
    rfl, rfl⟩
  up _ := ⟨rfl, rfl⟩
  timed port := by
    change 0 < u32 (5000 / 1000)
    decide
  queue _ := ⟨_, rfl, by decide, by decide⟩

theorem initial_startPfc (f : Fabric) (t : RoutingTables) (cfg : MmuConfig) (p : NetPacket α) :
    Initial f t (startPfc f t cfg p) where
  idle v := (equipped_startPfc f t cfg p v).toIdle
  rtTable _ := rfl
  ogroups _ _ := rfl
  uplink _ := rfl
  ecmpSeed _ := rfl
  sent _ := rfl
  left _ := rfl
  received _ := rfl

end NetworkRun
end Roce
