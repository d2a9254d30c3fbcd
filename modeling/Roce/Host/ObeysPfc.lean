import Roce.Host.Calls
import Roce.Switch.Node

/-! # Hosts obey PFC

A paused priority stops the queue pairs of this priority. The ACKs are stopped by one priority only,
whatever the priority is that they carry and that the switch accounts them under. -/

namespace Roce

open Function

/-- `ReceiveUdp` answers with an ACK or a NACK. -/
theorem RdmaReliableRQ.receiveUdp_protocol {rq rq' : RdmaReliableRQ}
    (h : rq.receiveUdp now ecnbits p = some (some a, rq')) : a.protocol = 0xFC ∨
      a.protocol = 0xFD := by
  obtain ⟨t, x, rfl⟩ := receiveUdp_ackPacket h
  dsimp only [ackPacket]
  split
  · exact .inl rfl
  · exact .inr rfl

/-- The packet carries the priority of its queue pair. -/
structure OfQueuePair (p : Packet) (pg : Nat) : Prop where
  pg : p.seqTs.pg = pg
  protocol : p.ip.protocol = 0x11

theorem RdmaReliableSQ.getNextPacket_pg {sq sq' : RdmaReliableSQ}
    (h : sq.getNextPacket = some (p, sq')) : OfQueuePair p sq.pg ∧ sq'.pg = sq.pg := by
  obtain ⟨k, sr, size, t, -, rfl, hadvance, rfl⟩ := getNextPacket_cases h
  have hpg := (advance_frame hadvance).1
  exact ⟨⟨rfl, rfl⟩, hpg⟩

namespace RdmaUnreliableSQ

variable {sq sq' : RdmaUnreliableSQ}

theorem getNextPacket_pg {cb : Posts} (h : sq.getNextPacket cb = some (p, sq')) :
    OfQueuePair p sq.pg ∧ sq'.pg = sq.pg := by
  obtain ⟨work, rest, -, ⟨-, rfl, rfl⟩ | ⟨-, rfl, rfl⟩⟩ := getNextPacket_cases h
  · exact ⟨⟨rfl, rfl⟩, rfl⟩
  · rw [callOnSend_eq]
    exact ⟨⟨rfl, rfl⟩, rfl⟩

theorem completing_pg (h : sq.completing = some (sr, imm, sq')) : sq'.pg = sq.pg := by
  unfold completing at h
  split at h
  next => cases h
  next =>
    split at h
    · cases h
      rfl
    · cases h

end RdmaUnreliableSQ

/-- The switch accounts a data packet, an ACK or a NACK under the priority that it carries, as the
network never sets `AckHighPrio`. -/
theorem SwitchNode.qIndexOf_eq {switch : SwitchNode} (hprio : switch.ackHighPrio = false)
    (hprot : ch.l3Prot = 0x11 ∨ ch.l3Prot = 0xFC ∨ ch.l3Prot = 0xFD)
    (hq : switch.qIndexOf ch = some q) : q.val = ch.pg := by
  unfold qIndexOf at hq
  rw [if_neg (by rcases hprot with h | h | h <;> simp [h, hprio]),
    if_neg (by rcases hprot with h | h | h <;> simp [h])] at hq
  split at hq
  · cases hq
    rfl
  · cases hq

namespace Nic

variable {nic nic' : Nic} {qp qp' : SendQueue} {idx : Nat}

/-- The priorities of the queue pairs. -/
def pgs (nic : Nic) : List Nat := nic.qpGrp.map SendQueue.getPg

theorem pgs_getElem? (h : nic.qpGrp[idx]? = some qp) : nic.pgs[idx]? = some qp.getPg := by
  rw [pgs, List.getElem?_map, h]
  rfl

theorem pgs_setQp (h : nic.qpGrp[idx]? = some qp) (hpg : qp'.getPg = qp.getPg) :
    (nic.setQp idx qp').pgs = nic.pgs := by
  obtain ⟨hlt, heq⟩ := List.getElem?_eq_some_iff.mp (pgs_getElem? h)
  rw [pgs, setQp, List.map_set, hpg, ← heq]
  exact List.set_getElem_self hlt

/-- The priority under which the switch at the other end accounts a packet is not paused. -/
def MayTransmit (nic : Nic) (p : NicPacket) : Prop :=
  ∀ (switch : SwitchNode) q, switch.ackHighPrio = false → switch.qIndexOf p.header = some q →
    nic.paused q = false

theorem paused_of_isPaused {q : Priority} (h : nic.isPaused pg = false) (hq : q.val = pg) :
    nic.paused q = false := by
  subst hq
  rwa [isPaused, dif_pos q.isLt] at h

theorem mayTransmit_data (hp : OfQueuePair p pg) (h : nic.isPaused pg = false) :
    nic.MayTransmit (.data p) := fun _ _ hprio hq =>
  paused_of_isPaused h ((SwitchNode.qIndexOf_eq hprio (.inl hp.protocol) hq).trans hp.pg)

theorem mayTransmit_ack (ha : a.protocol = 0xFC ∨ a.protocol = 0xFD)
    (h : nic.isPaused a.pg = false) :
    nic.MayTransmit (.ack a) := fun _ _ hprio hq =>
  paused_of_isPaused h (SwitchNode.qIndexOf_eq hprio (.inr ha) hq)

/-- A queue pair that has its turn is not paused. -/
theorem getNextQindex_qp (h : nic.getNextQindex ackQIdx now = some (.qp idx))
    (hqp : nic.qpGrp[idx]? = some qp) : nic.isPaused qp.getPg = false := by
  unfold getNextQindex at h
  split at h
  · cases h
  · obtain ⟨idx', hfind, heq⟩ := Option.map_eq_some_iff.mp h
    cases heq
    have hmay := List.find?_some hfind
    rw [hqp, Option.any_some, maySend, Bool.and_eq_true] at hmay
    simpa using hmay.1

theorem getNextQindex_highPrio (h : nic.getNextQindex ackQIdx now = some .highPrio) :
    nic.paused ackQIdx = false := by
  unfold getNextQindex at h
  split at h
  next hack =>
    rw [Bool.and_eq_true] at hack
    simpa using hack.1
  next =>
    obtain ⟨idx, -, heq⟩ := Option.map_eq_some_iff.mp h
    cases heq

/-- Nothing is paused or resumed, and the queue pairs that there are keep their priorities. -/
structure Keeps (nic nic' : Nic) : Prop where
  paused : nic'.paused = nic.paused
  pgs : nic.pgs <+: nic'.pgs
  acks : ∀ a ∈ nic'.ackQ, a ∈ nic.ackQ ∨ a.protocol = 0xFC ∨ a.protocol = 0xFD

theorem Keeps.refl (nic : Nic) : Keeps nic nic := ⟨rfl, List.prefix_refl _, fun _ => .inl⟩

theorem Keeps.setQp {last : Nat} (h : nic.qpGrp[idx]? = some qp) (hpg : qp'.getPg = qp.getPg) :
    Keeps nic { nic.setQp idx qp' with rrlast := last } :=
  ⟨rfl, (pgs_setQp h hpg).symm ▸ List.prefix_refl _, fun _ => .inl⟩

theorem Keeps.transmitStart (nic : Nic) (p : NicPacket) (lastQp : Option Nat) (nextAvail : Nat) :
    Keeps nic ((nic.transmitStart p).pktSent lastQp nextAvail) := by
  cases lastQp with
  | none => exact ⟨rfl, List.prefix_refl _, fun _ => .inl⟩
  | some idx =>
    refine ⟨rfl, ?_, fun _ => .inl⟩
    have hpgs : (((nic.transmitStart p).pktSent (some idx) nextAvail).pgs) = nic.pgs := by
      refine List.ext_getElem? fun i => ?_
      simp only [Nic.pgs, Nic.transmitStart, pktSent, List.getElem?_map, List.getElem?_modify,
        Option.map_eq_map, Option.map_map]
      refine congrFun (congrArg Option.map (funext fun qp => ?_)) _
      rw [Function.comp_apply]
      split
      · exact qp.getPg_updateNextAvail nextAvail
      · rfl
    rw [hpgs]

theorem Keeps.mayTransmit (h : Keeps nic nic') (hp : nic.MayTransmit p) : nic'.MayTransmit p := by
  rw [MayTransmit, h.paused]
  exact hp

theorem Keeps.isPaused (h : Keeps nic nic') (pg : Nat) : nic'.isPaused pg = nic.isPaused pg := by
  rw [Nic.isPaused, Nic.isPaused, h.paused]

end Nic

/-- What holds of a function that has been entered, whatever its network card does meanwhile. -/
def HostFrame.Allowed (nics : Nat → Nic) : HostFrame → Prop
  | .getNextPacket host idx _ _ =>
    ∃ pg, (nics host).pgs[idx]? = some pg ∧ (nics host).isPaused pg = false
  | .transmitStart host p _ => (nics host).MayTransmit p
  | _ => True

theorem HostFrame.Allowed.mono {nics nics' : Nat → Nic} {frame : HostFrame} (h : frame.Allowed nics)
    (hk : ∀ host, Nic.Keeps (nics host) (nics' host)) : frame.Allowed nics' := by
  cases frame with
  | getNextPacket host idx =>
    obtain ⟨pg, hidx, hpg⟩ := h
    obtain ⟨l, hl⟩ := (hk host).pgs
    refine ⟨pg, ?_, ((hk host).isPaused pg).trans hpg⟩
    rw [← hl, List.getElem?_append_left (List.getElem?_eq_some_iff.mp hidx).choose]
    exact hidx
  | transmitStart host p => exact (hk host).mayTransmit h
  | code | dequeueAndTransmit => trivial

namespace Hosts

variable {s s' : Hosts} {host : Nat} {stack rest : List HostFrame} {nic : Nic}

/-- While the priority of the first ACK is paused, the one that stops the ACKs is paused too. -/
def AcksGated (s : Hosts) : HostCall → Prop
  | .dequeueAndTransmit host => (s.nics host).Ready → ∀ a ∈ (s.nics host).ackQ.head?,
    (s.nics host).isPaused a.pg = true → (s.nics host).paused s.ackQIdx = true
  | _ => True

/-- No host starts the transmission of a packet of a paused priority. -/
def ObeysPfc (s : Hosts) : Prop :=
  ∀ host p lastQp rest, s.frames = .transmitStart host p lastQp :: rest →
    (s.nics host).MayTransmit p

/-- The functions that have been entered send packets of priorities that are not paused. -/
structure Compliant (s : Hosts) : Prop where
  frames : ∀ frame ∈ s.frames, frame.Allowed s.nics
  acks : ∀ host, ∀ a ∈ (s.nics host).ackQ, a.protocol = 0xFC ∨ a.protocol = 0xFD

theorem Compliant.of_rest (h : Compliant s) (hf : s.frames = frame :: rest) :
    Compliant (s.call rest) :=
  ⟨fun f hmem => h.frames f (hf ▸ List.mem_cons_of_mem frame hmem), h.acks⟩

/-- An event. -/
theorem Compliant.enter (h : Compliant s) (time : Nat) (hframe : frame.Allowed s.nics) :
    Compliant { s with now := time, frames := [frame] } :=
  ⟨List.forall_mem_singleton.mpr hframe, h.acks⟩

theorem Compliant.setNic (h : Compliant s) (hk : Nic.Keeps (s.nics host) nic) :
    Compliant (s.setNic host nic) := by
  have hkeeps : ∀ e, Nic.Keeps (s.nics e) ((s.setNic host nic).nics e) := by
    intro e
    rcases eq_or_ne e host with rfl | he
    · simpa [Hosts.setNic] using hk
    · simpa [Hosts.setNic, he] using Nic.Keeps.refl (s.nics e)
  exact ⟨fun frame hmem => (h.frames frame hmem).mono hkeeps, fun e a ha =>
    ((hkeeps e).acks a ha).elim (h.acks e a) id⟩

/-- A packet is chosen. -/
theorem Compliant.start (h : Compliant s) (hf : s.frames = frame :: rest)
    (hp : (s.nics host).MayTransmit p) (hk : Nic.Keeps (s.nics host) nic) :
    Compliant ((s.call (.transmitStart host p lastQp :: rest)).setNic host nic) := by
  have hstart : Compliant (s.call (.transmitStart host p lastQp :: rest)) :=
    ⟨List.forall_mem_cons.mpr ⟨hp, (h.of_rest hf).frames⟩, h.acks⟩
  exact hstart.setNic hk

theorem Compliant.register (h : Compliant s) (hf : s.frames = .code :: rest) :
    Compliant (s.call (.dequeueAndTransmit host :: .code :: rest)) :=
  ⟨List.forall_mem_cons.mpr ⟨trivial, hf ▸ h.frames⟩, h.acks⟩

/-- The callback of a request is called. -/
theorem Compliant.onSend (h : Compliant s) (hf : s.frames = .dequeueAndTransmit host :: rest)
    (hnext : (s.nics host).getNextQindex s.ackQIdx s.now = some (.qp idx))
    (hqp : (s.nics host).qpGrp[idx]? = some qp) :
    Compliant (s.call (.code :: .getNextPacket host idx sr imm :: rest)) := by
  refine ⟨List.forall_mem_cons.mpr ⟨trivial, List.forall_mem_cons.mpr ⟨?_, (h.of_rest hf).frames⟩⟩,
    h.acks⟩
  exact ⟨_, Nic.pgs_getElem? hqp, Nic.getNextQindex_qp hnext hqp⟩

/-- A priority is paused or resumed, between two events. -/
theorem Compliant.setPaused (h : Compliant s)
    (hf : ∀ frame ∈ s.frames, ∀ nics, frame.Allowed nics) :
    Compliant (s.setNic host ((s.nics host).setPaused qIndex value)) := by
  refine ⟨fun frame hmem => hf frame hmem _, fun e a ha => ?_⟩
  rcases eq_or_ne e host with rfl | he
  · exact h.acks e a (by simpa [Hosts.setNic, Nic.setPaused] using ha)
  · exact h.acks e a (by simpa [Hosts.setNic, he] using ha)

/-- The first ACK is chosen. -/
theorem mayTransmit_highPrio (h : Compliant s) (ho : s.AcksGated (.dequeueAndTransmit host))
    (hready : (s.nics host).Ready)
    (hnext : (s.nics host).getNextQindex s.ackQIdx s.now = some .highPrio)
    (hack : (s.nics host).ackQ = a :: ackQ) : (s.nics host).MayTransmit (.ack a) := by
  refine Nic.mayTransmit_ack (h.acks host a (hack ▸ List.mem_cons_self)) ?_
  by_contra hpaused
  have hgated := ho hready a (by rw [hack]; rfl) (by simpa using hpaused)
  rw [Nic.getNextQindex_highPrio hnext] at hgated
  cases hgated

theorem Compliant.step (h : Compliant s) (ho : s.AcksGated c) (hs : Step s c s') :
    Compliant s' := by
  cases hs with
  | event hf | trigger hf => exact h.enter _ trivial
  | @transmitComplete time host _ hf =>
    have hframe : (HostFrame.dequeueAndTransmit host).Allowed s.nics := trivial
    exact (h.enter time hframe).setNic ⟨rfl, List.prefix_refl _, fun _ => .inl⟩
  | @pause time host _ _ hf =>
    have hadvance : Compliant { s with now := time } := ⟨h.frames, h.acks⟩
    refine hadvance.setPaused fun frame hmem => ?_
    rw [hf] at hmem
    cases hmem
  | @resume time host _ _ hf =>
    have hframe : (HostFrame.dequeueAndTransmit host).Allowed s.nics := trivial
    refine (h.enter time hframe).setPaused fun frame hmem nics => ?_
    rw [List.mem_singleton.mp hmem]
    trivial
  | registerQp hf =>
    refine (h.register hf).setNic ⟨rfl, ?_, fun _ => .inl⟩
    rw [Nic.pgs, Nic.pgs, List.map_append]
    exact List.prefix_append ..
  | @changeQp rest idx host _ qp hf hpg =>
    obtain ⟨qp', hqp, hpg⟩ := (Option.any_eq_true _ _).mp hpg
    have hpg : qp.getPg = qp'.getPg := by simpa using (of_decide_eq_true hpg).symm
    exact h.setNic (.setQp hqp hpg)
  | enqueueHighPrioQ hf hack =>
    refine h.setNic ⟨rfl, List.prefix_refl _, fun a ha => ?_⟩
    refine (List.mem_append.mp ha).imp id fun ha => ?_
    rw [List.mem_singleton.mp ha]
    exact RdmaReliableRQ.receiveUdp_protocol hack
  | leave hf | busy hf | nothing hf => exact h.of_rest hf
  | highPrio hf hready hnext hack =>
    refine h.start hf (mayTransmit_highPrio h ho hready hnext hack)
      ⟨rfl, List.prefix_refl _, fun b hb => .inl ?_⟩
    rw [hack]
    exact List.mem_cons_of_mem _ hb
  | reliable hf hready hnext hqp hp =>
    obtain ⟨hof, hpg⟩ := RdmaReliableSQ.getNextPacket_pg hp
    refine h.start hf (Nic.mayTransmit_data hof (Nic.getNextQindex_qp hnext hqp)) (.setQp hqp ?_)
    exact hpg
  | unreliable hf hready hnext hqp hlast hp =>
    obtain ⟨hof, hpg⟩ := RdmaUnreliableSQ.getNextPacket_pg hp
    refine h.start hf (Nic.mayTransmit_data hof (Nic.getNextQindex_qp hnext hqp)) (.setQp hqp ?_)
    exact hpg
  | onSend hf hready hnext hqp hcomp =>
    refine (h.onSend hf hnext hqp).setNic (.setQp hqp ?_)
    exact RdmaUnreliableSQ.completing_pg hcomp
  | afterOnSend hf hqp hp =>
    have hallowed := h.frames _ (hf ▸ List.mem_cons_self)
    obtain ⟨pg, hidx, hpaused⟩ := hallowed
    cases (Nic.pgs_getElem? hqp).symm.trans hidx
    cases hp
    exact h.start hf (Nic.mayTransmit_data ⟨rfl, rfl⟩ hpaused) (.setQp hqp rfl)
  | transmitStart hf => exact (h.of_rest hf).setNic (.transmitStart ..)

theorem Compliant.obeysPfc (h : Compliant s) : ObeysPfc s := fun host p lastQp rest hf => by
  have hallowed := h.frames (.transmitStart host p lastQp) (by rw [hf]; exact List.mem_cons_self)
  exact hallowed

theorem Idle.compliant (h : Idle s) : Compliant s := by
  refine ⟨fun frame hmem => ?_, fun host a ha => ?_⟩
  · rw [h.frames] at hmem
    cases hmem
  · rw [h.nics host] at ha
    cases ha

/-- A host obeys PFC, if the ACKs do. -/
theorem obeys_pfc (h : (machine.restrict AcksGated).Reachable s) : ObeysPfc s := by
  have hcompliant : Compliant s :=
    Machine.Reachable.invariant (M := machine.restrict AcksGated)
      (fun hidle => Idle.compliant hidle) (fun _ hi hs => hi.step hs.1 hs.2) h
  exact hcompliant.obeysPfc

/-- A packet of a priority that asks for an ACK. -/
def requestingPacket (pg : Nat) : Packet where
  size := 1000
  seqTs := ⟨0, pg⟩
  udp := ⟨0, 0⟩
  ip := ⟨0, 0, 0x11, 1014, 64, 0, 0⟩
  pppProtocol := 0x0021
  bth := { ackReq := true }

/-- Its ACK. -/
def answer (pg : Nat) : AckPacket :=
  { seq := 1000, pg, sport := 0, dport := 0, cnp := false, source := 0, destination := 0
    protocol := 0xFC, identification := 0, bth := {} }

theorem receiveUdp_requestingPacket (pg : Nat) :
    ∃ rq', ({} : RdmaReliableRQ).receiveUdp 0 0 (requestingPacket pg) =
      some (some (answer pg), rq') :=
  ⟨{ ipid := 1, nextExpectedSeq := 1000, log := ⟨[(0, 1000)], []⟩ }, rfl⟩

/-- The ACK of a priority is sent while this priority is paused. -/
theorem disobeys_pfc : ∃ s, machine.Reachable s ∧ ¬ObeysPfc s := by
  obtain ⟨rq', hreceive⟩ := receiveUdp_requestingPacket 5
  let paused : Priority → Bool := update (fun _ => false) 5 true
  have go : ∀ {s s' t} (call : HostCall), machine.Reachable s → Step s call s' → s' = t →
      machine.Reachable t := fun _ h hs ht => ht ▸ h.step hs
  have h₁ : machine.Reachable (oneHost 3 { qbbEnabled := true, paused } [] 0) :=
    go (.pause 0 5 0) (.init (oneHost_idle 3 true true)) (.pause rfl (Nat.le_refl 0) rfl rfl)
      (setNic_oneHost ..)
  have h₂ : machine.Reachable (oneHost 3 { qbbEnabled := true, paused } [.code] 0) :=
    go (.event 0) h₁ (.event rfl (Nat.le_refl 0)) rfl
  have h₃ : machine.Reachable
      (oneHost 3 { qbbEnabled := true, paused, ackQ := [answer 5] } [.code] 0) :=
    go (.enqueueHighPrioQ 0 (answer 5)) h₂ (.enqueueHighPrioQ rfl hreceive) (setNic_oneHost ..)
  have h₄ : machine.Reachable
      (oneHost 3 { qbbEnabled := true, paused, ackQ := [answer 5] } [.dequeueAndTransmit 0] 0) :=
    go (.trigger 0 0) (go .leave h₃ (.leave rfl) rfl) (.trigger rfl (Nat.le_refl 0)) rfl
  have h₅ : machine.Reachable (oneHost 3 { qbbEnabled := true, paused }
      [.transmitStart 0 (.ack (answer 5)) none] 0) :=
    go (.dequeueAndTransmit 0) h₄ (.highPrio rfl ⟨rfl, rfl⟩ rfl rfl) (setNic_oneHost ..)
  refine ⟨_, h₅, fun h => ?_⟩
  have hpaused := h 0 _ _ _ rfl { mmu := { toMmuConfig := {} } } 5 rfl rfl
  cases hpaused

/-- An ACK is sent while another priority is paused. -/
theorem obeys_pfc_ack : ∃ s a, s.frames = [.transmitStart 0 (.ack a) none] ∧ a.pg = 3 ∧
    (s.nics 0).paused 5 = true ∧ ObeysPfc s := by
  obtain ⟨rq', hreceive⟩ := receiveUdp_requestingPacket 3
  let paused : Priority → Bool := update (fun _ => false) 5 true
  have go : ∀ {s s' t} (call : HostCall), (machine.restrict AcksGated).Reachable s →
      Step s call s' → s.AcksGated call → s' = t → (machine.restrict AcksGated).Reachable t :=
    fun _ h hs ho ht => ht ▸ h.step ⟨ho, hs⟩
  have h₁ : (machine.restrict AcksGated).Reachable
      (oneHost 3 { qbbEnabled := true, paused } [] 0) :=
    go (.pause 0 5 0) (.init (oneHost_idle 3 true true))
      (.pause rfl (Nat.le_refl 0) rfl rfl) trivial
      (setNic_oneHost ..)
  have h₂ : (machine.restrict AcksGated).Reachable
      (oneHost 3 { qbbEnabled := true, paused } [.code] 0) :=
    go (.event 0) h₁ (.event rfl (Nat.le_refl 0)) trivial rfl
  have h₃ : (machine.restrict AcksGated).Reachable
      (oneHost 3 { qbbEnabled := true, paused, ackQ := [answer 3] } [.code] 0) :=
    go (.enqueueHighPrioQ 0 (answer 3)) h₂ (.enqueueHighPrioQ rfl hreceive) trivial
      (setNic_oneHost ..)
  have h₄ : (machine.restrict AcksGated).Reachable
      (oneHost 3 { qbbEnabled := true, paused, ackQ := [answer 3] } [.dequeueAndTransmit 0] 0) :=
    go (.trigger 0 0) (go .leave h₃ (.leave rfl) trivial rfl)
      (.trigger rfl (Nat.le_refl 0)) trivial rfl
  have hgated : AcksGated (oneHost 3 { qbbEnabled := true, paused, ackQ := [answer 3] }
      [.dequeueAndTransmit 0] 0) (.dequeueAndTransmit 0) := fun _ a ha hpaused => by
    cases ha
    cases hpaused
  have h₅ : (machine.restrict AcksGated).Reachable (oneHost 3 { qbbEnabled := true, paused }
      [.transmitStart 0 (.ack (answer 3)) none] 0) :=
    go (.dequeueAndTransmit 0) h₄ (.highPrio rfl ⟨rfl, rfl⟩ rfl rfl) hgated (setNic_oneHost ..)
  exact ⟨_, _, rfl, rfl, rfl, obeys_pfc h₅⟩

end Hosts
end Roce
