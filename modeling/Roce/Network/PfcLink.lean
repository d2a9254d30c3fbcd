import Roce.Host.Calls
import Roce.Switch.PfcFrames

/-! # The two ends of a link agree on PFC

The links of a switch deliver what its ports transmit in this order, except for what the error model
takes away. The neighbour at the other end keeps its own `m_paused`, that changes when a PFC frame
arrives. -/

namespace Roce

open Function

/-- A switch at the other end of a link receives a frame. -/
theorem SwitchNode.receiveCalls_pfc {s : SwitchNode} (hup : (s.devices port).linkUp = true)
    (hqbb : (s.devices port).qbbEnabled = true) (hcorrupt : a.corrupt = false)
    (hprot : a.ch.l3Prot = 0xFE) :
    s.receiveCalls port a = (a.pfc.receive (s.devices port).paused).map fun paused =>
      (s.setDevice port { s.devices port with paused },
        if a.pfc.time > 0 then [] else [.dequeueAndTransmit port]) := by
  rw [SwitchNode.receiveCalls, hup, hcorrupt, hqbb, if_neg (by decide), if_pos hprot,
    if_neg (by decide),
    PauseHeader.receive]
  by_cases htime : a.pfc.time > 0
  · simp only [if_pos htime]
    rfl
  · simp only [if_neg htime]
    split <;> rfl

/-- A host at the other end of a link receives a frame. -/
theorem Hosts.step_pfc {x : Hosts} (hframes : x.frames = []) (hnow : x.now ≤ time)
    (hup : (x.nics host).linkUp = true) (hqbb : (x.nics host).qbbEnabled = true) {pfc : PauseHeader}
    (hpfc : pfc.receive (x.nics host).paused = some paused) :
    ∃ event y, Hosts.Step x event y ∧ (y.nics host).paused = paused := by
  rw [PauseHeader.receive] at hpfc
  split at hpfc
  next =>
    refine ⟨.pause host pfc.qIndex time, _, .pause hframes hnow hup hqbb, ?_⟩
    rw [← Option.some.inj hpfc]
    simp [Hosts.setNic, Nic.setPaused]
  next =>
    split at hpfc
    next hpaused =>
      refine ⟨.resume host pfc.qIndex time, _, .resume hframes hnow hup hqbb hpaused, ?_⟩
      rw [← Option.some.inj hpfc]
      simp [Hosts.setNic, Nic.setPaused]
    next => cases hpfc

/-- A switch and its links. `received` counts the packets that left each link so far, and
`peerPaused` is `m_paused` of the device at the other end. -/
structure PfcLinks where
  switch : SwitchNode
  received : Port → Nat := fun _ => 0
  peerPaused : Port → Priority → Bool := fun _ _ => false

/-- An event of the switch, or the next packet leaves the link of a port. `corrupt` is what the
error model of the neighbour says. -/
inductive PfcLinkEvent where
  | switch (e : SwitchEvent)
  | arrive (port : Port) (corrupt : Bool)

namespace PfcLinks

open SwitchNode

/-- The packet that leaves a link next. -/
def nextPacket (x : PfcLinks) (port : Port) : Option SwitchPacket :=
  (x.switch.transmitted port)[x.received port]?

/-- `Receive`, as far as it matters for PFC. Nothing if the assertion of `Resume` fails. -/
def arrive (port : Port) (corrupt : Bool) (x : PfcLinks) : Option PfcLinks := do
  let p ← x.nextPacket port
  let paused ← (if corrupt then some (x.peerPaused port) else receiveFrames (x.peerPaused port) [p])
  return { x with
    received := update x.received port (x.received port + 1)
    peerPaused := update x.peerPaused port paused }

inductive Step : PfcLinks → PfcLinkEvent → PfcLinks → Prop
  | switch {x : PfcLinks} : onEvent (dequeueAndTransmit fuel) e x.switch = some s →
    Step x (.switch e) { x with switch := s }
  | arrive {x y : PfcLinks} : x.arrive port corrupt = some y → Step x (.arrive port corrupt) y

variable {x y : PfcLinks}

/-- A switch that has not started, of which every device has a `PauseTime`. -/
structure Initial (x : PfcLinks) : Prop where
  idle : x.switch.Idle
  pausetime : ∀ port, 0 < (x.switch.devices port).pausetime
  received : ∀ port, x.received port = 0
  peerPaused : ∀ port qIndex, x.peerPaused port qIndex = false

def machine : Machine PfcLinks PfcLinkEvent where
  init := Initial
  step := Step

/-- What is queued at a port or in flight. -/
def underway (x : PfcLinks) (port : Port) : List SwitchPacket :=
  (x.switch.transmitted port).drop (x.received port) ++
    (List.finRange 8).flatMap fun qIndex => x.switch.queueAt (port, qIndex)

/-- The neighbours never resume a queue that is not paused, and have paused what the MMU has paused
unless a frame is on its way. -/
structure Synchronized (x : PfcLinks) : Prop where
  resume : ∀ port p, x.nextPacket port = some p → (receiveFrames (x.peerPaused port) [p]).isSome
  paused : ∀ port qIndex, (∀ p ∈ x.underway port, ∀ pfc ∈ p.pfc, pfc.qIndex ≠ qIndex) →
    x.peerPaused port qIndex = x.switch.mmu.paused (port, qIndex)

/-- No PFC frame is lost, neither by a queue that has no room nor by the error model, and none to
pause has the time 0. -/
def LosesNothing (x : PfcLinks) : PfcLinkEvent → Prop
  | .switch e =>
    (∀ port, 0 < (x.switch.devices port).pauseMicroSeconds) ∧
      ∀ fuel s, onEvent (dequeueAndTransmit fuel) e x.switch = some s → s.NoneRefused
  | .arrive port corrupt => corrupt = true → ∀ p ∈ x.nextPacket port, p.pfc = none

/-- The neighbours have received the first frames. -/
structure InOrder (x : PfcLinks) : Prop where
  agrees : Agrees x.switch x.switch.mmu.paused
  received : ∀ port, x.received port ≤ (x.switch.transmitted port).length
  peer : ∀ port, receiveFrames (fun _ => false)
    ((x.switch.transmitted port).take (x.received port)) =
    some (x.peerPaused port)

theorem Initial.inOrder (h : Initial x)
    (htime : ∀ port, 0 < (x.switch.devices port).pauseMicroSeconds) :
    InOrder x where
  agrees := h.idle.agrees htime
  received port := by
    rw [h.received]
    exact Nat.zero_le _
  peer port := by
    have hpeer : x.peerPaused port = fun _ => false := funext (h.peerPaused port)
    rw [h.received, hpeer]
    rfl

theorem nextPacket_initial (h : Initial x) (port : Port) : x.nextPacket port = none := by
  rw [nextPacket, transmitted, h.idle.dequeued]
  rfl

/-- A port transmits after what it has transmitted. -/
theorem transmitted_prefix {s s' : SwitchNode} (h : Appends s s') (port : Port) :
    s.transmitted port <+: s'.transmitted port := by
  obtain ⟨l, hl⟩ := h.dequeued
  refine ⟨(l.filter (·.port = port)).map (·.packet), ?_⟩
  rw [transmitted, transmitted, ← hl, List.filter_append, List.map_append]

theorem InOrder.switch {s : SwitchNode} (h : InOrder x)
    (hs : onEvent (dequeueAndTransmit fuel) e x.switch = some s) (hnone : s.NoneRefused) :
    InOrder { x with switch := s } := by
  have hgrow := transmitted_prefix (onEvent_appends hs)
  constructor
  case agrees => exact h.agrees.onEvent hs hnone
  case received => exact fun port => (h.received port).trans (hgrow port).length_le
  case peer =>
    intro port
    obtain ⟨l, hl⟩ := hgrow port
    dsimp only
    rw [← hl, List.take_append_of_le_length (h.received port)]
    exact h.peer port

theorem take_received (hp : x.nextPacket port = some p) :
    (x.switch.transmitted port).take (x.received port + 1) =
      (x.switch.transmitted port).take (x.received port) ++ [p] := by
  rw [List.take_add_one, ← nextPacket, hp]
  rfl

theorem InOrder.arrive (h : InOrder x) (hs : x.arrive port corrupt = some y)
    (hlost : LosesNothing x (.arrive port corrupt)) : InOrder y := by
  obtain ⟨p, hp, hs⟩ := Option.bind_eq_some_iff.mp hs
  obtain ⟨paused, hpaused, hs⟩ := Option.bind_eq_some_iff.mp hs
  cases hs
  have hframe : receiveFrames (x.peerPaused port) [p] = some paused := by
    split at hpaused
    next hcorrupt =>
      -- a packet that is lost is not a frame
      rw [← Option.some.inj hpaused]
      refine receiveFrames_plain (fun p' hmem => ?_) _
      rw [List.mem_singleton.mp hmem]
      exact hlost hcorrupt p hp
    next => exact hpaused
  have hlt : x.received port < (x.switch.transmitted port).length :=
    (List.getElem?_eq_some_iff.mp hp).1
  constructor
  case agrees => exact h.agrees
  case received =>
    intro e
    dsimp only
    by_cases he : e = port
    · subst he
      rw [update_self]
      exact hlt
    · rw [update_of_ne he]
      exact h.received e
  case peer =>
    intro e
    dsimp only
    by_cases he : e = port
    · subst he
      rw [update_self, update_self, take_received hp, receiveFrames_append, h.peer,
        Option.bind_some, hframe]
    · rw [update_of_ne he, update_of_ne he]
      exact h.peer e

/-- What was received, and then the rest, makes what the MMU has. -/
theorem InOrder.rest (h : InOrder x) (port : Port) :
    receiveFrames (x.peerPaused port)
        ((x.switch.transmitted port).drop (x.received port) ++ x.switch.queueAt (port, 0)) =
      some fun qIndex => x.switch.mmu.paused (port, qIndex) := by
  have hframes := h.agrees.frames port
  rw [outgoing, ← List.take_append_drop (x.received port) (x.switch.transmitted port),
    List.append_assoc, receiveFrames_append, h.peer, Option.bind_some] at hframes
  exact hframes

theorem InOrder.synchronized (h : InOrder x) : Synchronized x := by
  constructor
  case resume =>
    intro port p hp
    have hrest := h.rest port
    have hdrop : (x.switch.transmitted port).drop (x.received port) =
        p :: (x.switch.transmitted port).drop (x.received port + 1) := by
      obtain ⟨hlt, heq⟩ := List.getElem?_eq_some_iff.mp hp
      rw [← heq]
      exact List.drop_eq_getElem_cons hlt
    rw [hdrop, List.cons_append, ← List.singleton_append, receiveFrames_append] at hrest
    obtain ⟨paused, hpaused, -⟩ := Option.bind_eq_some_iff.mp hrest
    rw [hpaused]
    rfl
  case paused =>
    intro port qIndex hnone
    refine (receiveFrames_other (h.rest port) fun p hp => hnone p ?_).symm
    rcases List.mem_append.mp hp with hp | hp
    · exact List.mem_append_left _ hp
    · exact List.mem_append_right _ (List.mem_flatMap.mpr ⟨0, List.mem_finRange 0, hp⟩)

theorem Initial.synchronized (h : Initial x) : Synchronized x := by
  constructor
  case resume =>
    intro port p hp
    rw [nextPacket_initial h] at hp
    cases hp
  case paused =>
    intro port qIndex _
    obtain ⟨cfg, hmmu⟩ := h.idle.mmu
    rw [h.peerPaused, hmmu]

/-- **The two ends of every link agree**, in a run that loses no PFC frame. -/
theorem pfc_agreement (h : (machine.restrict LosesNothing).Reachable x) : Synchronized x := by
  have hinv : Initial x ∨ InOrder x := by
    refine h.invariant (I := fun x => Initial x ∨ InOrder x) .inl fun {x e y} _ ih hst => ?_
    obtain ⟨hlost, hst⟩ := hst
    right
    cases hst with
    | switch hs =>
      have horder : InOrder x := ih.elim (fun h0 => h0.inOrder hlost.1) id
      exact horder.switch hs (hlost.2 _ _ hs)
    | arrive hs =>
      rcases ih with h0 | horder
      · obtain ⟨p, hp, -⟩ := Option.bind_eq_some_iff.mp hs
        rw [nextPacket_initial h0] at hp
        cases hp
      · exact horder.arrive hs hlost
  exact hinv.elim Initial.synchronized InOrder.synchronized

/-! ## Frames that are lost -/

theorem initial_noPool : Initial ⟨noPool 0, fun _ => 0, fun _ _ => false⟩ :=
  ⟨idle_noPool 0, fun _ => show 0 < 5000 by decide, fun _ => rfl, fun _ _ => rfl⟩

/-- A packet that pauses the priority 3 of the port 1. -/
def pausing : SwitchEvent :=
  .receive 1 { ch := { dip := 5, pg := 3 }, size := 1000, multicast := true }

theorem onEvent_pausing (fuel : Nat) : ∃ s,
    onEvent (dequeueAndTransmit (fuel + 1)) pausing (noPool 0) = some s ∧
    s.NoneRefused ∧ s.mmu.paused (1, 3) = true ∧
    s.transmitted 1 = [{ ptr := 2, size := 31, pfc := some ⟨5, 3⟩ }] ∧
    ∀ qIndex, s.queueAt (1, qIndex) = [] := by
  refine ⟨_, rfl, fun h hmem => absurd hmem List.not_mem_nil, rfl, rfl, ?_⟩
  exact fun
    | 0 | 1 | 2 | 3 | 4 | 5 | 6 | 7 => rfl

/-- The error model takes a frame to pause away. -/
theorem pause_lost : ∃ x : PfcLinks, machine.Reachable x ∧ ¬Synchronized x := by
  obtain ⟨s, hs, -, hpaused, htransmitted, hqueues⟩ := onEvent_pausing 0
  have h₁ := (Machine.Reachable.init (M := machine) initial_noPool).step (Step.switch hs)
  have harrive : arrive 1 true ⟨s, fun _ => 0, fun _ _ => false⟩ =
      some ⟨s, update (fun _ => 0) 1 1, update (fun _ _ => false) 1 fun _ => false⟩ := by
    rw [arrive, nextPacket, htransmitted]
    rfl
  refine ⟨_, h₁.step (.arrive harrive), fun h => ?_⟩
  have hagree := h.paused 1 3 fun p hp => ?_
  · rw [hpaused] at hagree
    exact Bool.false_ne_true hagree
  · -- nothing is on its way
    simp [underway, htransmitted, hqueues] at hp

/-- The same frame arrives. -/
theorem synchronized_pausing : ∃ x : PfcLinks, x.peerPaused 1 3 = true ∧ Synchronized x := by
  obtain ⟨s, hs, -, -, htransmitted, -⟩ := onEvent_pausing 0
  have hlossless : LosesNothing ⟨noPool 0, fun _ => 0, fun _ _ => false⟩ (.switch pausing) := by
    refine ⟨fun _ => show 0 < u32 (5000 / 1000) by decide, fun fuel s' hs' => ?_⟩
    cases fuel with
    | zero => cases hs'
    | succ fuel =>
      obtain ⟨s₁, hs₁, hnone, -⟩ := onEvent_pausing fuel
      cases hs₁.symm.trans hs'
      exact hnone
  have h₁ := (Machine.Reachable.init (M := machine.restrict LosesNothing) initial_noPool).step
    (show (machine.restrict LosesNothing).step _ (.switch pausing) _ from ⟨hlossless, .switch hs⟩)
  have harrive : arrive 1 false ⟨s, fun _ => 0, fun _ _ => false⟩ =
      some ⟨s, update (fun _ => 0) 1 1,
        update (fun _ _ => false) 1 (update (fun _ => false) 3 true)⟩ := by
    rw [arrive, nextPacket, htransmitted]
    rfl
  have h₂ := h₁.step (show (machine.restrict LosesNothing).step _ (.arrive 1 false) _ from
    ⟨fun hcorrupt => absurd hcorrupt Bool.false_ne_true, .arrive harrive⟩)
  exact ⟨_, rfl, pfc_agreement h₂⟩

end PfcLinks
end Roce
