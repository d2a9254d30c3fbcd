import Roce.Host.Calls

/-! # When a host enters `TransmitStart`

Between the choice of a packet and `TransmitStart` a callback may enter `DequeueAndTransmit` of the
same network card, which is still `READY` and may start the transmission of another packet. -/

namespace Roce

open Function

/-- The host that has chosen a packet and not transmitted it. -/
def HostFrame.pending : HostFrame → Option Nat
  | .getNextPacket host .. | .transmitStart host .. => some host
  | _ => none

namespace Hosts

variable {s s' : Hosts} {host : Nat} {stack rest : List HostFrame}

def pending (s : Hosts) : List Nat := s.frames.filterMap HostFrame.pending

/-- A host that enters `DequeueAndTransmit` again, before it has transmitted the packet that it has
chosen, finds nothing to send. -/
def Undisturbed (s : Hosts) : HostCall → Prop
  | .dequeueAndTransmit host => host ∈ s.pending →
    (s.nics host).linkUp = false ∨ (s.nics host).getNextQindex s.ackQIdx s.now = none
  | _ => True

/-- `TransmitStart` is entered in the state `READY`, and one packet at most is transmitted. -/
structure TransmitsWhenReady (s : Hosts) : Prop where
  ready : ∀ host p lastQp rest, s.frames = .transmitStart host p lastQp :: rest →
    (s.nics host).currentPkt = none
  single : ∀ host, (s.nics host).transmitting.length ≤ 1

def current (s : Hosts) (host : Nat) : Option NicPacket := (s.nics host).currentPkt

def transmitting (s : Hosts) (host : Nat) : List NicPacket := (s.nics host).transmitting

/-- The hosts that have chosen a packet are `READY`, each has chosen one, and what is transmitted is
the current packet. -/
def Inv (s : Hosts) : Prop := Exclusive s.current s.transmitting s.pending

theorem current_setNic (s : Hosts) (host : Nat) (nic : Nic) :
    (s.setNic host nic).current = update s.current host nic.currentPkt := by
  funext e
  simp only [current, setNic, update_apply]
  split <;> rfl

theorem transmitting_setNic (s : Hosts) (host : Nat) (nic : Nic) :
    (s.setNic host nic).transmitting = update s.transmitting host nic.transmitting := by
  funext e
  simp only [transmitting, setNic, update_apply]
  split <;> rfl

theorem pending_cons (hf : s.frames = frame :: rest) :
    s.pending = [frame].filterMap HostFrame.pending ++ rest.filterMap HostFrame.pending := by
  rw [pending, hf, ← List.filterMap_append, List.singleton_append]

/-- The network card of a host changes, except for what it transmits. -/
theorem Inv.setNic (h : Inv s) {nic : Nic} (hcurrent : nic.currentPkt = s.current host)
    (htransmitting : nic.transmitting = s.transmitting host) : Inv (s.setNic host nic) := by
  rw [Inv, current_setNic, transmitting_setNic, hcurrent, htransmitting, update_eq_self,
    update_eq_self]
  exact h

/-- Frames come and go that have chosen no packet. -/
theorem Inv.call (h : Inv s) (hf : stack.filterMap HostFrame.pending = s.pending) :
    Inv (s.call stack) := by
  rw [Inv, pending, Hosts.call, hf]
  exact h

/-- An event. -/
theorem Inv.enter (h : Inv s) (hf : s.frames = []) (time : Nat) (hframe : frame.pending = none) :
    Inv { s with now := time, frames := [frame] } := by
  have hpending : s.pending = [frame].filterMap HostFrame.pending := by
    rw [pending, hf, List.filterMap_cons_none hframe]
  rw [Inv, hpending] at h
  exact h

theorem not_pending (ho : s.Undisturbed (.dequeueAndTransmit host)) (hready : (s.nics host).Ready)
    (hnext : (s.nics host).getNextQindex s.ackQIdx s.now = some q) : host ∉ s.pending := by
  intro hmem
  rcases ho hmem with hdown | hnone
  · rw [hready.1] at hdown
    cases hdown
  · rw [hnext] at hnone
    cases hnone

/-- A packet is chosen. -/
theorem Inv.choose (h : Inv s) (hready : (s.nics host).Ready) (hnew : host ∉ s.pending)
    (hf : stack.filterMap HostFrame.pending = host :: s.pending) : Inv (s.call stack) := by
  rw [Inv, pending, Hosts.call, hf]
  exact h.decide hnew hready.2

/-- `TransmitStart`. -/
theorem Inv.transmitStart (h : Inv s) (hf : s.frames = .transmitStart host p lastQp :: rest) :
    Inv ((s.call rest).setNic host (((s.nics host).transmitStart p).pktSent lastQp nextAvail)) := by
  rw [Inv, pending_cons hf] at h
  have hsent : ∀ nic : Nic, (nic.pktSent lastQp nextAvail).currentPkt = nic.currentPkt ∧
      (nic.pktSent lastQp nextAvail).transmitting = nic.transmitting := fun nic => by
    cases lastQp <;> exact ⟨rfl, rfl⟩
  rw [Inv, current_setNic, transmitting_setNic, (hsent _).1, (hsent _).2]
  exact h.start p

/-- `TransmitComplete`. -/
theorem Inv.transmitComplete (h : Inv s) (hf : s.frames = []) :
    Inv ({ s with now := time, frames := [.dequeueAndTransmit host] }.setNic host
      (s.nics host).transmitComplete) := by
  rw [Inv, pending, hf] at h
  rw [Inv, current_setNic, transmitting_setNic]
  exact h.complete host

theorem Inv.step (h : Inv s) (ho : s.Undisturbed c) (hs : Step s c s') : Inv s' := by
  cases hs with
  | event hf | trigger hf => exact h.enter hf _ rfl
  | transmitComplete hf => exact h.transmitComplete hf
  | @pause time _ _ hf =>
    have hadvance : Inv { s with now := time } := h
    exact hadvance.setNic rfl rfl
  | @resume time host _ _ hf =>
    have hframe : (HostFrame.dequeueAndTransmit host).pending = none := rfl
    exact (h.enter hf time hframe).setNic rfl rfl
  | registerQp hf =>
    refine (h.call ?_).setNic rfl rfl
    rw [pending_cons hf]
    rfl
  | changeQp hf | enqueueHighPrioQ hf => exact h.setNic rfl rfl
  | leave hf | busy hf | nothing hf =>
    refine h.call ?_
    rw [pending_cons hf]
    rfl
  | highPrio hf hready hnext | reliable hf hready hnext | unreliable hf hready hnext
  | onSend hf hready hnext =>
    have hnew := not_pending ho hready hnext
    refine (h.choose hready hnew ?_).setNic rfl rfl
    rw [pending_cons hf]
    rfl
  | afterOnSend hf =>
    refine (h.call ?_).setNic rfl rfl
    rw [pending_cons hf]
    rfl
  | transmitStart hf => exact h.transmitStart hf

theorem Inv.transmitsWhenReady (h : Inv s) : TransmitsWhenReady s := by
  refine ⟨fun host p lastQp rest hf => ?_, h.single⟩
  rw [Inv, pending_cons hf] at h
  exact h.ready

theorem Idle.inv (h : Idle s) : Inv s := by
  rw [Inv, pending, h.frames]
  refine .init (fun host => ?_) fun host => ?_
  · rw [current, h.nics host]
  · rw [transmitting, h.nics host]

theorem inv_of_reachable (h : (machine.restrict Undisturbed).Reachable s) : Inv s :=
  Machine.Reachable.invariant (M := machine.restrict Undisturbed) (fun hidle => Idle.inv hidle)
    (fun _ hi hs => hi.step hs.1 hs.2) h

end Hosts
end Roce
