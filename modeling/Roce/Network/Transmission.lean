import Roce.Host.TransmitReady
import Roce.Switch.CallsRun

/-! # `TransmitStart` of the hosts and of the switches -/

namespace Roce
namespace QbbNetDevice

open Function Hosts

/-- No assertion of `TransmitStart` fails, if nothing is sent from within `DequeueAndTransmit` on
the same device. -/
theorem transmits_when_ready {s : Hosts} {x : SwitchCalls}
    (hs : (Hosts.machine.restrict Hosts.Undisturbed).Reachable s)
    (hx : (SwitchCalls.machine.restrict SwitchCalls.Undisturbed).Reachable x) :
    s.TransmitsWhenReady ∧ x.TransmitsWhenReady :=
  ⟨(Hosts.inv_of_reachable hs).transmitsWhenReady,
    (SwitchCalls.inv_of_reachable hx).transmitsWhenReady⟩

/-- A queue pair, as `RegisterQP` gets it. -/
def newQp (sport : Nat) : RdmaUnreliableSQ := { mtu := 1000, sport, pg := 3 }

/-- A flow of three packets. -/
def longFlow : RdmaUnreliableSQ := (newQp 1).postSendDefault { payloadSize := 3000 }

/-- A flow of one packet. -/
def shortFlow : RdmaUnreliableSQ := (newQp 2).postSendDefault { payloadSize := 1000 }

/-- The queue pair after a packet, and after the pacing of the next one. -/
def sendOnce (nextAvail : Nat) (sq : RdmaUnreliableSQ) : RdmaUnreliableSQ :=
  { ((sq.getNextPacket fun _ => []).map (·.2)).getD sq with nextAvail := nextAvail }

/-- The callback of a request starts a flow on the same host, on which another flow is running. -/
theorem transmits_busy : ∃ s, Hosts.machine.Reachable s ∧ ¬s.TransmitsWhenReady := by
  obtain ⟨p₁, hp₁⟩ : ∃ p, longFlow.getNextPacket (fun _ => []) =
    some (p, { sendOnce 1 longFlow with nextAvail := 0 }) := ⟨_, rfl⟩
  obtain ⟨p₂, hp₂⟩ : ∃ p, (sendOnce 1 longFlow).getNextPacket (fun _ => []) =
    some (p, sendOnce 1 (sendOnce 1 longFlow)) := ⟨_, rfl⟩
  have go : ∀ {s s' t} (call : HostCall), Hosts.machine.Reachable s → Step s call s' → s' = t →
      Hosts.machine.Reachable t := fun _ h hs ht => ht ▸ h.step hs
  have h₁ : Hosts.machine.Reachable (oneHost 3 {} [.code] 0) :=
    go (.event 0) (.init (oneHost_idle 3 true false)) (.event rfl (by decide)) rfl
  have h₂ : Hosts.machine.Reachable (oneHost 3 { qpGrp := [.unreliable (newQp 1)] }
      [.dequeueAndTransmit 0, .code] 0) :=
    go (.registerQp 0 (.unreliable (newQp 1))) h₁ (.registerQp rfl (by decide)) (setNic_oneHost ..)
  have h₃ : Hosts.machine.Reachable (oneHost 3 { qpGrp := [.unreliable (newQp 1)] } [.code] 0) :=
    go (.dequeueAndTransmit 0) h₂ (.nothing rfl (by decide) rfl) rfl
  have h₄ : Hosts.machine.Reachable (oneHost 3 { qpGrp := [.unreliable longFlow] } [.code] 0) :=
    go (.changeQp 0 0 (.unreliable longFlow)) h₃ (.changeQp rfl rfl) (setNic_oneHost ..)
  have h₅ : Hosts.machine.Reachable (oneHost 3
      { qpGrp := [.unreliable longFlow, .unreliable (newQp 2)] }
      [.dequeueAndTransmit 0, .code] 0) :=
    go (.registerQp 0 (.unreliable (newQp 2))) h₄ (.registerQp rfl (by decide)) (setNic_oneHost ..)
  have h₆ : Hosts.machine.Reachable (oneHost 3
      { qpGrp := [.unreliable { sendOnce 1 longFlow with nextAvail := 0 }, .unreliable (newQp 2)] }
      [.transmitStart 0 (.data p₁) (some 0), .code] 0) :=
    go (.dequeueAndTransmit 0) h₅ (.unreliable rfl (by decide)
      (show _ = some (QIndex.qp 0) from rfl) rfl rfl hp₁) (setNic_oneHost ..)
  have h₇ : Hosts.machine.Reachable (oneHost 3
      { qpGrp := [.unreliable (sendOnce 1 longFlow), .unreliable (newQp 2)]
        currentPkt := some (.data p₁), transmitting := [.data p₁] } [.code] 0) :=
    go (.transmitStart 1) h₆ (.transmitStart rfl) (setNic_oneHost ..)
  have h₈ : Hosts.machine.Reachable (oneHost 3
      { qpGrp := [.unreliable (sendOnce 1 longFlow), .unreliable shortFlow]
        currentPkt := some (.data p₁), transmitting := [.data p₁] } [] 0) :=
    go .leave (go (.changeQp 0 1 (.unreliable shortFlow)) h₇ (.changeQp rfl rfl)
      (setNic_oneHost ..)) (.leave rfl) rfl
  have h₉ : Hosts.machine.Reachable (oneHost 3
      { qpGrp := [.unreliable (sendOnce 1 longFlow), .unreliable shortFlow] }
      [.dequeueAndTransmit 0] 1) :=
    go (.transmitComplete 0 1) h₈ (.transmitComplete rfl (Nat.zero_le 1) (List.cons_ne_nil _ _) rfl)
      (setNic_oneHost ..)
  obtain ⟨sr, imm, hshort⟩ : ∃ sr imm,
    shortFlow.completing = some (sr, imm, { shortFlow with toSend := [] }) := ⟨_, _, rfl⟩
  have h₁₀ : Hosts.machine.Reachable (oneHost 3
      { qpGrp := [.unreliable (sendOnce 1 longFlow), .unreliable { shortFlow with toSend := [] }] }
      [.code, .getNextPacket 0 1 sr imm] 1) :=
    go (.dequeueAndTransmit 0) h₉ (.onSend rfl (by decide)
      (show _ = some (QIndex.qp 1) from rfl) rfl hshort) (setNic_oneHost ..)
  have h₁₁ : Hosts.machine.Reachable (oneHost 3
      { qpGrp := [.unreliable (sendOnce 1 longFlow), .unreliable { shortFlow with toSend := [] },
          .unreliable (newQp 3)] }
      [.dequeueAndTransmit 0, .code, .getNextPacket 0 1 sr imm] 1) :=
    go (.registerQp 0 (.unreliable (newQp 3))) h₁₀ (.registerQp rfl (by decide)) (setNic_oneHost ..)
  have hnext : ({ qpGrp := [.unreliable (sendOnce 1 longFlow),
      .unreliable { shortFlow with toSend := [] }, .unreliable (newQp 3)] } : Nic).getNextQindex
        3 1 =
    some (.qp 0) := by decide
  have hlast : (sendOnce 1 longFlow).completing = none := by decide
  have h₁₂ : Hosts.machine.Reachable (oneHost 3
      { qpGrp := [.unreliable (sendOnce 1 (sendOnce 1 longFlow)),
          .unreliable { shortFlow with toSend := [] }, .unreliable (newQp 3)] }
      [.transmitStart 0 (.data p₂) (some 0), .code, .getNextPacket 0 1 sr imm] 1) :=
    go (.dequeueAndTransmit 0) h₁₁ (.unreliable rfl ⟨rfl, rfl⟩ hnext rfl hlast hp₂)
      (setNic_oneHost ..)
  have h₁₃ : Hosts.machine.Reachable (oneHost 3
      { qpGrp := [.unreliable { sendOnce 1 (sendOnce 1 longFlow) with nextAvail := 2 },
          .unreliable { shortFlow with toSend := [] }, .unreliable (newQp 3)]
        currentPkt := some (.data p₂), transmitting := [.data p₂] }
      [.getNextPacket 0 1 sr imm] 1) :=
    go .leave (go (.transmitStart 2) h₁₂ (.transmitStart rfl) (setNic_oneHost ..)) (.leave rfl) rfl
  refine ⟨_, h₁₃.step (.afterOnSend rfl rfl rfl), fun h => ?_⟩
  have hready := h.ready 0 _ _ _ rfl
  cases hready

/-- A host transmits a packet of a flow, and a switch an ACK. -/
theorem transmits_when_ready_packet : ∃ (s : Hosts) (x : SwitchCalls) (p : NicPacket)
    (q : SwitchPacket), s.frames = [.transmitStart 0 p (some 0), .code] ∧
    x.frames = [.transmitStart 1 q, .sendMultiToDevs []] ∧
    s.TransmitsWhenReady ∧ x.TransmitsWhenReady := by
  have go : ∀ {s s' t} (call : HostCall), (Hosts.machine.restrict Hosts.Undisturbed).Reachable s →
      Step s call s' → s.Undisturbed call → s' = t →
      (Hosts.machine.restrict Hosts.Undisturbed).Reachable t :=
    fun _ h hs ho ht => ht ▸ h.step ⟨ho, hs⟩
  have h₁ : (Hosts.machine.restrict Hosts.Undisturbed).Reachable (oneHost 3 {} [.code] 0) :=
    go (.event 0) (.init (oneHost_idle 3 true false)) (.event rfl (by decide)) trivial rfl
  have h₂ : (Hosts.machine.restrict Hosts.Undisturbed).Reachable
      (oneHost 3 { qpGrp := [.unreliable longFlow] } [.dequeueAndTransmit 0, .code] 0) :=
    go (.registerQp 0 (.unreliable longFlow)) h₁ (.registerQp rfl (by decide)) trivial
      (setNic_oneHost ..)
  have h₃ := go (.dequeueAndTransmit 0) h₂ (.unreliable rfl (by decide)
    (show _ = some (QIndex.qp 0) from rfl) rfl rfl
    (show longFlow.getNextPacket _ = some (_, _) from rfl))
      (fun hmem => absurd hmem List.not_mem_nil)
    rfl
  have enter : ∀ {x call y}, (SwitchCalls.machine.restrict SwitchCalls.Undisturbed).Reachable x →
      SwitchCalls.Step x call y → x.Undisturbed call →
      (SwitchCalls.machine.restrict SwitchCalls.Undisturbed).Reachable y :=
    fun h hs ho => h.step ⟨ho, hs⟩
  let s : SwitchNode :=
    { mmu := { toMmuConfig := {} }, ogroups := fun _ => some [1], uplink := [false, false] }
  let a : Arrival := { ch := { l3Prot := 0xFC }, size := 60, multicast := true }
  have hidle : s.Idle :=
    ⟨⟨_, rfl⟩, fun _ _ => rfl, fun _ => rfl, fun _ _ => rfl, fun _ => rfl, rfl, rfl, rfl, rfl⟩
  have k₀ : (SwitchCalls.machine.restrict SwitchCalls.Undisturbed).Reachable ⟨s, [], fun _ => []⟩ :=
    .init ⟨hidle, rfl, rfl⟩
  have k₁ := enter k₀ (show SwitchCalls.Step _ (.event (.receive 0 a)) _ from .event rfl
    rfl) trivial
  have k₂ := enter k₁ (.next rfl) (fun _ _ hf => by cases hf)
  have k₃ := enter k₂ (.next rfl) (fun _ _ _ hmem => absurd hmem List.not_mem_nil)
  exact ⟨_, _, _, _, rfl, rfl, transmits_when_ready h₃ k₃⟩

end QbbNetDevice
end Roce
