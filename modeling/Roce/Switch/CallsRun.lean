import Roce.Switch.TransmitReady

/-! # The calls of a switch do what its functions do

Every step of a switch is a run of the calls, so that what holds in all runs of the calls holds of
the switch between its events too. -/

namespace Roce

open Function

namespace SwitchCalls

open SwitchNode

variable {x y z : SwitchCalls} {s s' : SwitchNode} {rest : List SwitchFrame}

/-- A switch that transmits its current packets. -/
def ofNode (s : SwitchNode) (frames : List SwitchFrame) : SwitchCalls :=
  ⟨s, frames, fun port => (s.current port).toList⟩

/-- Calls lead from a state to another. -/
def Leads (x y : SwitchCalls) : Prop := ∃ es, machine.Run x es y

theorem Leads.refl (x : SwitchCalls) : Leads x x := ⟨[], .nil⟩

theorem Leads.trans (h : Leads x y) (h' : Leads y z) : Leads x z := by
  obtain ⟨es, hes⟩ := h
  obtain ⟨es', hes'⟩ := h'
  exact ⟨es ++ es', hes.append hes'⟩

theorem Leads.next (h : x.next = some y) : Leads x y := by
  have hstep : machine.step x .next y := .next h
  exact ⟨_, .single hstep⟩

/-- The same current packets are transmitted. -/
theorem ofNode_eq (h : s'.current = s.current) (frames : List SwitchFrame) :
    (⟨s', frames, fun port => (s.current port).toList⟩ : SwitchCalls) = ofNode s' frames := by
  rw [ofNode, h]

/-- A packet is enqueued. -/
theorem leads_enqueue
    (h : x.next = some ⟨s.enqueue port qIndex p, rest, fun e => (s.current e).toList⟩) :
    Leads x (ofNode (s.enqueue port qIndex p) rest) :=
  .next (h.trans (congrArg some (ofNode_eq (current_enqueue ..) rest)))

/-- A function that calls lead through, whatever comes after it. -/
def RunsCalls (transmit : Port → SwitchNode → Option SwitchNode) : Prop :=
  ∀ {port s s'} rest, transmit port s = some s' →
    Leads (ofNode s (.dequeueAndTransmit port :: rest)) (ofNode s' rest)

section
variable {transmit : Port → SwitchNode → Option SwitchNode} (ht : RunsCalls transmit)
include ht

theorem leads_checkAndSendPfc (rest : List SwitchFrame)
    (h : checkAndSendPfc transmit inDev qIndex s = some s') :
    Leads (ofNode (s.pauseCalls inDev qIndex).1 ((s.pauseCalls inDev qIndex).2 ++ rest))
      (ofNode s' rest) := by
  unfold checkAndSendPfc at h
  unfold pauseCalls
  split at h
  next hcheck =>
    obtain ⟨s₁, hs₁, h⟩ := Option.bind_eq_some_iff.mp h
    cases h
    rw [if_pos hcheck]
    exact (ht (.setPause (inDev, qIndex) :: rest) hs₁).trans (.next rfl)
  next hcheck =>
    cases h
    rw [if_neg hcheck]
    exact .refl _

theorem leads_checkAndSendResume (rest : List SwitchFrame)
    (h : checkAndSendResume transmit inDev qIndex s = some s') :
    Leads (ofNode (s.resumeCalls inDev qIndex).1 ((s.resumeCalls inDev qIndex).2 ++ rest))
      (ofNode s' rest) := by
  unfold checkAndSendResume at h
  unfold resumeCalls
  split at h
  next hcheck =>
    obtain ⟨s₁, hs₁, h⟩ := Option.bind_eq_some_iff.mp h
    cases h
    rw [if_pos hcheck]
    exact (ht (.setResume (inDev, qIndex) :: rest) hs₁).trans (.next rfl)
  next hcheck =>
    cases h
    rw [if_neg hcheck]
    exact .refl _

theorem leads_switchNotifyDequeue (rest : List SwitchFrame)
    (h : switchNotifyDequeue transmit held s = some s') :
    ∃ calls, s.notifyCalls held = some calls ∧
      Leads (ofNode calls.1 (calls.2 ++ rest)) (ofNode s' rest) := by
  unfold switchNotifyDequeue at h
  unfold notifyCalls
  split at h
  next hq =>
    cases h
    rw [if_pos hq]
    exact ⟨_, rfl, .refl _⟩
  next hq =>
    obtain ⟨inDev, hin, h⟩ := Option.bind_eq_some_iff.mp h
    obtain ⟨s₁, hs₁, h⟩ := Option.bind_eq_some_iff.mp h
    refine ⟨s₁.resumeCalls inDev held.qIndex, ?_, leads_checkAndSendResume ht rest h⟩
    rw [if_neg hq, hin, Option.bind_eq_bind, Option.bind_some, hs₁]
    rfl

end

theorem leads_transmitStart (h : s.transmitStart port p = some s') :
    Leads (ofNode s (.transmitStart port p :: rest)) (ofNode s' rest) := by
  unfold SwitchNode.transmitStart at h
  split at h
  next => cases h
  next hready =>
    cases h
    rw [Bool.not_eq_true, Option.isSome_eq_false_iff, Option.isNone_iff_eq_none] at hready
    have hcurrent := current_setCurrentPkt s port (some p)
    refine .next ?_
    rw [SwitchCalls.next, ofNode, ofNode]
    refine congrArg some (congrArg (SwitchCalls.mk _ rest) (funext fun e => ?_))
    have he := congrFun hcurrent e
    rw [setCurrentPkt] at he
    rw [he]
    rcases eq_or_ne e port with rfl | hne
    · simp [SwitchNode.current, hready]
    · simp [hne]

theorem runsCalls_dequeueAndTransmit (fuel : Nat) : RunsCalls (dequeueAndTransmit fuel) := by
  induction fuel with
  | zero => exact fun _ h => by cases h
  | succ fuel ih =>
    intro port s s' rest h
    unfold dequeueAndTransmit at h
    split at h
    next hskip =>
      cases h
      refine .next ?_
      simp only [SwitchCalls.next, ofNode]
      exact if_pos hskip
    next hgo =>
      split at h
      next hd =>
        cases h
        refine .next ?_
        simp only [SwitchCalls.next, ofNode, if_neg hgo, hd]
      next held s₁ hd =>
        obtain ⟨s₂, hs₂, h⟩ := Option.bind_eq_some_iff.mp h
        obtain ⟨calls, hcalls, hleads⟩ := leads_switchNotifyDequeue ih
          (.transmitStart port { held.packet with flowId := none } :: rest) hs₂
        have hcurrent : calls.1.current = s.current :=
          (Quiet.notifyCalls hcalls).current.trans (current_dequeue hd)
        have hnext : (ofNode s (.dequeueAndTransmit port :: rest)).next = some (ofNode calls.1
            (calls.2 ++ .transmitStart port { held.packet with flowId := none } :: rest)) := by
          simp only [SwitchCalls.next, ofNode, if_neg hgo, hd, hcalls, Option.bind_eq_bind,
            Option.bind_some, hcurrent, Option.pure_def]
        exact ((Leads.next hnext).trans hleads).trans (leads_transmitStart h)

/-! ## Events -/

section
variable {transmit : Port → SwitchNode → Option SwitchNode} (ht : RunsCalls transmit)
include ht

theorem leads_sendToDev (h : sendToDev transmit ch junk p s = some s') :
    ∃ calls, s.sendToDevCalls ch junk p = some calls ∧
      Leads (ofNode calls.1 calls.2) (ofNode s' []) := by
  unfold SwitchNode.sendToDev at h
  split at h
  next hout =>
    cases h
    rw [SwitchNode.sendToDevCalls, hout]
    exact ⟨_, rfl, .refl _⟩
  next idx hout =>
    rw [SwitchNode.sendToDevCalls, hout]
    obtain ⟨port, hport, h⟩ := Option.bind_eq_some_iff.mp h
    obtain ⟨qIndex, hqIndex, h⟩ := Option.bind_eq_some_iff.mp h
    obtain ⟨inDev, hinDev, h⟩ := Option.bind_eq_some_iff.mp h
    simp only [hport, hqIndex, hinDev, Option.bind_eq_bind, Option.bind_some]
    dsimp only at h
    split at h
    next => cases h
    next hlink =>
      rw [if_neg hlink]
      split at h
      next hq =>
        rw [if_pos hq]
        exact ⟨_, rfl, (leads_enqueue rfl).trans (ht [] h)⟩
      next hq =>
        rw [if_neg hq]
        split at h
        next hcheck =>
          cases h
          rw [if_pos hcheck]
          exact ⟨_, rfl, .refl _⟩
        next hcheck =>
          obtain ⟨s₁, hs₁, h⟩ := Option.bind_eq_some_iff.mp h
          rw [if_neg hcheck]
          have hpfc := leads_checkAndSendPfc ht [.sendToDev inDev ⟨port, qIndex, p⟩] hs₁
          exact ⟨_, rfl, (hpfc.trans (leads_enqueue rfl)).trans (ht [] h)⟩

theorem leads_sendAll (rest : List SwitchFrame)
    (h : tosend.foldlM (fun s h => switchSend transmit h.port h.qIndex h.packet s) s = some s') :
    Leads (ofNode s (.sendMultiToDevs tosend :: rest)) (ofNode s' rest) := by
  induction tosend generalizing s with
  | nil =>
    cases h
    exact .next rfl
  | cons held tosend ih =>
    rw [List.foldlM_cons] at h
    obtain ⟨s₁, hs₁, h⟩ := Option.bind_eq_some_iff.mp h
    exact ((leads_enqueue rfl).trans (ht (.sendMultiToDevs tosend :: rest) hs₁)).trans (ih h)

theorem leads_sendMultiToDevs (h : sendMultiToDevs transmit ch junk p inIface s = some s') :
    ∃ calls, s.sendMultiToDevsCalls ch junk p inIface = some calls ∧
      Leads (ofNode calls.1 calls.2) (ofNode s' []) := by
  unfold SwitchNode.sendMultiToDevs at h
  split at h
  next hgroup =>
    cases h
    rw [SwitchNode.sendMultiToDevsCalls, hgroup]
    exact ⟨_, rfl, .refl _⟩
  next group hgroup =>
    rw [SwitchNode.sendMultiToDevsCalls, hgroup]
    obtain ⟨qIndex, hqIndex, h⟩ := Option.bind_eq_some_iff.mp h
    obtain ⟨inDev, hinDev, h⟩ := Option.bind_eq_some_iff.mp h
    obtain ⟨⟨s₁, tosend⟩, hs₁, h⟩ := Option.bind_eq_some_iff.mp h
    obtain ⟨s₂, hs₂, h⟩ := Option.bind_eq_some_iff.mp h
    simp only [hqIndex, hinDev, hs₁, Option.bind_eq_bind, Option.bind_some]
    refine ⟨_, rfl, Leads.trans ?_ (leads_sendAll ht [] h)⟩
    split at hs₂
    next hq =>
      cases hs₂
      rw [if_pos hq]
      exact .refl _
    next hq =>
      rw [if_neg hq]
      exact leads_checkAndSendPfc ht _ hs₂

theorem leads_receive (h : receive transmit port a s = some s') :
    ∃ calls, s.receiveCalls port a = some calls ∧
      Leads (ofNode calls.1 calls.2) (ofNode s' []) := by
  unfold SwitchNode.receive at h
  unfold SwitchNode.receiveCalls
  split at h
  next hskip =>
    cases h
    rw [if_pos hskip]
    exact ⟨_, rfl, .refl _⟩
  next hskip =>
    rw [if_neg hskip]
    split at h
    next hpfc =>
      rw [if_pos hpfc]
      split at h
      next hqbb =>
        cases h
        rw [if_pos hqbb]
        exact ⟨_, rfl, .refl _⟩
      next hqbb =>
        rw [if_neg hqbb]
        split at h
        next htime =>
          cases h
          rw [if_pos htime]
          exact ⟨_, rfl, .refl _⟩
        next htime =>
          rw [if_neg htime]
          unfold resume at h
          split at h
          next hpaused =>
            rw [if_pos hpaused]
            exact ⟨_, rfl, ht [] h⟩
          next => cases h
    next hpfc =>
      rw [if_neg hpfc]
      unfold switchReceiveFromDevice at h
      dsimp only at h ⊢
      split at h
      next hmulti =>
        rw [if_pos hmulti]
        exact leads_sendMultiToDevs ht h
      next hmulti =>
        rw [if_neg hmulti]
        exact leads_sendToDev ht h

/-- An event, with all that follows from it. -/
theorem leads_onEvent (h : onEvent transmit e s = some s') :
    Leads (ofNode s []) (ofNode s' []) := by
  suffices hsuff : ∃ y, enter e (ofNode s []) = some y ∧ Leads y (ofNode s' []) by
    obtain ⟨y, hy, hleads⟩ := hsuff
    have hstep : machine.step (ofNode s []) (.event e) y := .event rfl hy
    exact Leads.trans ⟨_, .single hstep⟩ hleads
  cases e with
  | receive port a =>
    obtain ⟨calls, hcalls, hleads⟩ := leads_receive ht h
    refine ⟨ofNode calls.1 calls.2, ?_, hleads⟩
    simp only [enter, ofNode, hcalls, Option.bind_eq_bind, Option.bind_some, Option.pure_def,
      (Quiet.receiveCalls hcalls).current]
  | transmitComplete port =>
    rw [onEvent, SwitchNode.transmitComplete] at h
    split at h
    next hbusy =>
      obtain ⟨p, hp⟩ := Option.isSome_iff_exists.mp hbusy
      refine ⟨ofNode (s.setCurrentPkt port none) [.dequeueAndTransmit port], ?_, ht [] h⟩
      have hcurrent : s.current port = some p := hp
      rw [enter, if_neg (by simp [ofNode, hcurrent, hp])]
      refine congrArg some (congrArg (SwitchCalls.mk _ _) (funext fun e => ?_))
      rw [current_setCurrentPkt]
      rcases eq_or_ne e port with rfl | hne
      · simp [ofNode, hcurrent]
      · simp [ofNode, hne]
    next => cases h

end

/-- A switch between its events is a state of the calls. -/
theorem reachable_ofNode (h : SwitchNode.machine.Reachable s) :
    machine.Reachable (ofNode s []) := by
  have hinit : ∀ {s}, SwitchNode.machine.init s → ∃ x, machine.init x ∧ x = ofNode s [] := by
    intro s hidle
    have hidle : Idle s := hidle
    refine ⟨_, ⟨hidle, rfl, funext fun port => ?_⟩, rfl⟩
    exact congrArg Option.toList (hidle.currentPkt port)
  have hstep : ∀ {s e s' x}, x = ofNode s [] → SwitchNode.machine.step s e s' →
      ∃ es x', machine.Run x es x' ∧ x' = ofNode s' [] := by
    rintro s e s' x rfl ⟨fuel, hs⟩
    obtain ⟨es, hes⟩ := leads_onEvent (runsCalls_dequeueAndTransmit fuel) hs
    exact ⟨es, _, hes, rfl⟩
  obtain ⟨x, hx, rfl⟩ := h.simulation hinit hstep
  exact hx

end SwitchCalls
end Roce
