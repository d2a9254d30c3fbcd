import Roce.Host.Wire
import Roce.Network.InOrder
import Roce.QueuePair.LosslessPair

/-! # A reliable queue pair on the network

The send queue of one host and the receive queue of another one, whose packets go through the
network. All other hosts do what they like, and so do these two with the packets of other queue
pairs. The network is a channel of the pair: what arrives was sent. -/

namespace Roce

open Function

/-! ## The ends of a pair -/

/-- The fields of a send queue that its packets have in their headers. -/
structure QpEnds where
  sip : Nat
  dip : Nat
  sport : Nat
  dport : Nat
  pg : Nat

/-- The flow of the data packets. -/
def QpEnds.data (e : QpEnds) : PacketFlow where
  ch := {
    sip := .ofNat e.sip, dip := .ofNat e.dip, l3Prot := 0x11
    sport := .ofNat e.sport, dport := .ofNat e.dport, pg := e.pg }

/-- The flow of the ACKs (`0xFC`), or of the NACKs (`0xFD`). -/
def QpEnds.answer (e : QpEnds) (l3Prot : Nat) : PacketFlow where
  ch := {
    sip := .ofNat e.dip, dip := .ofNat e.sip, l3Prot
    sport := .ofNat e.dport, dport := .ofNat e.sport, pg := e.pg }

namespace RdmaReliableSQ

variable {s s' : RdmaReliableSQ}

def ends (s : RdmaReliableSQ) : QpEnds := ⟨s.sip, s.dip, s.sport, s.dport, s.pg⟩

/-- Acknowledging sends nothing, and leaves the ends. -/
theorem acknowledge_frame (h : s.acknowledge cb fuel n = some s') :
    s'.ends = s.ends ∧ s'.log.sent = s.log.sent := by
  unfold acknowledge at h
  split at h
  · obtain ⟨t, ht, hs⟩ := Option.bind_eq_some_iff.mp h
    cases hs
    have hposts := (notify_postsOnly ht).1
    unfold PostsOnly at hposts
    rw [hposts]
    exact ⟨rfl, rfl⟩
  · cases h
    exact ⟨rfl, rfl⟩

theorem recoverNack_frame (h : s.recoverNack cb fuel n = some s') :
    s'.ends = s.ends ∧ s'.log.sent = s.log.sent := by
  obtain ⟨t, ht, rfl⟩ := recoverNack_eq h
  obtain ⟨hends, hsent⟩ := acknowledge_frame ht
  exact ⟨hends, hsent⟩

theorem getNextPacket_frame (h : s.getNextPacket = some (p, s')) :
    s'.ends = s.ends ∧ s'.log.sent = s.log.sent ++ [p] := by
  obtain ⟨k, sr, size, t, -, -, hadvance, rfl⟩ := getNextPacket_cases h
  unfold advance at hadvance
  dsimp only at hadvance
  split at hadvance
  · split at hadvance
    · cases hadvance
      split
      · exact ⟨rfl, rfl⟩
      · exact ⟨rfl, rfl⟩
    · cases hadvance
  · cases hadvance
    exact ⟨rfl, rfl⟩

end RdmaReliableSQ

namespace RdmaReliableRQ

theorem receiveAck_frame {sq sq' : RdmaReliableSQ} (h : receiveAck false cb fuel a sq = some sq') :
    sq'.ends = sq.ends ∧ sq'.log.sent = sq.log.sent := by
  obtain ⟨u, hu, hs⟩ := Option.bind_eq_some_iff.mp h
  obtain ⟨hends, hsent⟩ := RdmaReliableSQ.acknowledge_frame hu
  split at hs
  · obtain ⟨hends', hsent'⟩ := RdmaReliableSQ.recoverNack_frame hs
    exact ⟨hends'.trans hends, hsent'.trans hsent⟩
  · cases hs
    exact ⟨hends, hsent⟩

end RdmaReliableRQ

namespace ReliablePair

variable {t t' : ReliablePair}

/-- The ends of a pair stay, and what was sent stays sent. -/
structure Grows (t t' : ReliablePair) : Prop where
  ends : t'.sq.ends = t.sq.ends
  sent : t.sq.log.sent <+: t'.sq.log.sent
  acks : t.acks <+: t'.acks

theorem Step.grows (h : Step t e t') : Grows t t' := by
  cases h with
  | post => exact ⟨rfl, List.prefix_rfl, List.prefix_rfl⟩
  | emit _ hp =>
    obtain ⟨hends, hsent⟩ := RdmaReliableSQ.getNextPacket_frame hp
    exact ⟨hends, ⟨_, hsent.symm⟩, List.prefix_rfl⟩
  | data => exact ⟨rfl, List.prefix_rfl, List.prefix_append ..⟩
  | ack _ ha =>
    obtain ⟨hends, hsent⟩ := RdmaReliableRQ.receiveAck_frame ha
    exact ⟨hends, by rw [hsent], List.prefix_rfl⟩
  | timeout _ ha =>
    obtain ⟨hends, hsent⟩ := RdmaReliableSQ.recoverNack_frame ha
    exact ⟨hends, by rw [hsent], List.prefix_rfl⟩

end ReliablePair

/-! ## The pair on the network -/

/-- How the network sees a packet of a host. -/
def NicPacket.onNet (p : NicPacket) : NetPacket NicPacket where
  ch := p.header
  size := p.getSize
  multicast := match p with
    | .data p => p.bth.multicast
    | .ack a => a.bth.multicast
  body := p

/-- A pair, the network between its ends, and the answers that wait in the queue of the network card
of the receiver. -/
structure NetworkPair where
  net : NetworkRun NicPacket
  pair : ReliablePair
  ackQ : List AckPacket := []

namespace NetworkPair

/-- A packet of the send queue. -/
def IsData (s : NetworkPair) (q : NetPacket NicPacket) : Prop := q.inFlow s.pair.sq.ends.data

/-- An answer of the receive queue. -/
def IsAnswer (s : NetworkPair) (q : NetPacket NicPacket) : Prop :=
  ∃ l3Prot, (l3Prot = 0xFC ∨ l3Prot = 0xFD) ∧ q.inFlow (s.pair.sq.ends.answer l3Prot)

/-- Neither end sends or receives a packet of the pair. -/
structure Untouched (e : QpEnds) (src dst : Nat) (x y : NetworkRun NicPacket) : Prop where
  sentData : NetworkRun.ofFlow e.data (y.sent src) = NetworkRun.ofFlow e.data (x.sent src)
  receivedData : NetworkRun.ofFlow e.data (y.receivedBy dst) =
    NetworkRun.ofFlow e.data (x.receivedBy dst)
  sentAnswer : ∀ l3Prot, l3Prot = 0xFC ∨ l3Prot = 0xFD →
    NetworkRun.ofFlow (e.answer l3Prot) (y.sent dst) =
      NetworkRun.ofFlow (e.answer l3Prot) (x.sent dst)
  receivedAnswer : ∀ l3Prot, l3Prot = 0xFC ∨ l3Prot = 0xFD →
    NetworkRun.ofFlow (e.answer l3Prot) (y.receivedBy src) =
      NetworkRun.ofFlow (e.answer l3Prot) (x.receivedBy src)

inductive Event where
  | post (sr : SendRequest)
  | timeout (cb : Callbacks)
  | emit
  | answer
  | data (e : NetworkEvent NicPacket) (p : Packet) (now ecnbits : Nat)
  | ack (e : NetworkEvent NicPacket) (a : AckPacket) (cb : Callbacks)
  | other (e : NetworkEvent NicPacket)

/-- What happens in the network. -/
def Event.inNetwork : Event → Option (NetworkEvent NicPacket)
  | .data e _ _ _ | .ack e _ _ | .other e => some e
  | _ => none

/-- The send queue is at the host `src`, the receive queue at the host `dst`. What is not of the
pair does not matter to it. -/
inductive Step (net : Network) (src dst : Nat) : NetworkPair → Event → NetworkPair → Prop
  | post : Step net src dst s (.post sr) { s with pair.sq := s.pair.sq.postSend sr }
  | timeout : s.pair.sq.retrTo → s.pair.sq.onRetrTimeout cb fuel = some tx →
    Step net src dst s (.timeout cb) { s with pair.sq := tx }
  | emit : s.pair.sq.hasDataToSend → s.pair.sq.getNextPacket = some (p, tx) →
    NetworkRun.Step net s.net (.send src (NicPacket.data p).onNet) y →
    Step net src dst s .emit { s with net := y, pair.sq := tx }
  | answer : s.ackQ = a :: rest →
    NetworkRun.Step net s.net (.send dst (NicPacket.ack a).onNet) y →
    Step net src dst s .answer { s with net := y, ackQ := rest }
  | data : NetworkRun.Step net s.net e y → y.received dst = s.net.received dst ++ [(d, q)] →
    s.IsData q → q.body = .data p → s.pair.rq.receiveUdp now ecnbits p = some (reply, rq) →
    Step net src dst s (.data e p now ecnbits) {
      net := y
      pair := { s.pair with rq := rq, acks := s.pair.acks ++ reply.toList }
      ackQ := s.ackQ ++ reply.toList }
  | ack : NetworkRun.Step net s.net e y → y.received src = s.net.received src ++ [(d, q)] →
    s.IsAnswer q → q.body = .ack a →
    RdmaReliableRQ.receiveAck false cb fuel a s.pair.sq = some tx →
    Step net src dst s (.ack e a cb) { s with net := y, pair.sq := tx }
  | other : NetworkRun.Step net s.net e y → Untouched s.pair.sq.ends src dst s.net y →
    Step net src dst s (.other e) { s with net := y }

/-- Before the first request. The addresses are those of the hosts. -/
structure Initial (f : Fabric) (rt : RoutingTables) (src dst : Nat) (s : NetworkPair) : Prop where
  net : NetworkRun.Initial f rt s.net
  pair : s.pair.Fresh
  ackQ : s.ackQ = []
  sip : .ofNat s.pair.sq.sip = Network.getNodeIp src
  dip : .ofNat s.pair.sq.dip = Network.getNodeIp dst

def machine (f : Fabric) (rt : RoutingTables) (src dst : Nat) : Machine NetworkPair Event :=
  ⟨Initial f rt src dst, Step f.net src dst⟩

end NetworkPair

/-! ## The network is a channel -/

namespace NetworkRun

variable {α : Type u} {net : Network} {x y : NetworkRun α}

/-- What a step sends. -/
theorem Step.sent (h : Step net x e y) :
    (∃ host p, e = .send host p ∧ y = { x with sent := update x.sent host (x.sent host ++ [p]) }) ∨
      y.sent = x.sent := by
  cases h with
  | send => exact .inl ⟨_, _, rfl, rfl⟩
  | lose => exact .inr rfl
  | deliver => exact .inr rfl
  | forward => exact .inr rfl
  | transmitComplete => exact .inr rfl

/-- A step in which something arrives sends nothing. -/
theorem Step.sent_of_received (h : Step net x e y) (hr : y.received v = x.received v ++ [a]) :
    y.sent = x.sent := by
  rcases h.sent with ⟨host, p, -, rfl⟩ | hsent
  · exact absurd hr (by simp)
  · exact hsent

end NetworkRun

namespace NetworkPair

variable {f : Fabric} {rt : RoutingTables} {src dst : Nat} {s s' : NetworkPair} {e : QpEnds}

/-- What the network carries of the pair was sent by the pair. -/
structure Carried (e : QpEnds) (src dst : Nat) (s : NetworkPair) : Prop where
  ends : s.pair.sq.ends = e
  data : ∀ q ∈ NetworkRun.ofFlow e.data (s.net.sent src),
    ∃ p ∈ s.pair.sq.log.sent, q = (NicPacket.data p).onNet
  answers : ∀ l3Prot, l3Prot = 0xFC ∨ l3Prot = 0xFD →
    ∀ q ∈ NetworkRun.ofFlow (e.answer l3Prot) (s.net.sent dst),
      ∃ a ∈ s.pair.acks, q = (NicPacket.ack a).onNet
  ackQ : ∀ a ∈ s.ackQ, a ∈ s.pair.acks

/-- The flows of the pair stay in order. -/
structure Channels (f : Fabric) (rt : RoutingTables) (e : QpEnds) (src dst : Nat) : Prop where
  data : NetworkRun.Ordered NicPacket f rt e.data src
  answers : ∀ l3Prot, l3Prot = 0xFC ∨ l3Prot = 0xFD →
    NetworkRun.Ordered NicPacket f rt (e.answer l3Prot) dst

theorem Initial.carried (h : Initial f rt src dst s) : Carried s.pair.sq.ends src dst s where
  ends := rfl
  data := by
    rw [h.net.sent]
    exact fun _ hq => nomatch hq
  answers := by
    rw [h.net.sent]
    exact fun _ _ _ hq => nomatch hq
  ackQ := by
    rw [h.ackQ]
    exact fun _ ha => nomatch ha

/-- The network takes a step or none. -/
theorem Step.net_step (h : Step f.net src dst s ev s') :
    (∃ e, NetworkRun.Step f.net s.net e s'.net) ∨ s'.net = s.net := by
  cases h with
  | post => exact .inr rfl
  | timeout => exact .inr rfl
  | emit _ _ h => exact .inl ⟨_, h⟩
  | answer _ h => exact .inl ⟨_, h⟩
  | data h => exact .inl ⟨_, h⟩
  | ack h => exact .inl ⟨_, h⟩
  | other h => exact .inl ⟨_, h⟩

theorem net_reachable (h : (machine f rt src dst).Reachable s) :
    (NetworkRun.machine f rt).Reachable s.net := by
  refine h.invariant (I := fun s => (NetworkRun.machine f rt).Reachable s.net) ?_ ?_
  · intro t h0
    have h0 : (NetworkRun.machine f rt).init t.net := Initial.net h0
    exact .init h0
  · intro t ev t' _ ih hst
    rcases hst.net_step with ⟨e, hnet⟩ | hnet
    · exact ih.step hnet
    · rw [hnet]
      exact ih

/-- What arrives of a flow was sent. -/
theorem sent_of_received {y : NetworkRun NicPacket} {fl : PacketFlow}
    (hord : NetworkRun.Ordered NicPacket f rt fl src) (hy : (NetworkRun.machine f rt).Reachable y)
    (hr : (d, q) ∈ y.received v) (hq : q.inFlow fl) : q ∈ NetworkRun.ofFlow fl (y.sent src) := by
  have hsublist := ((NetworkRun.in_order_of_tree hord.hashes hord.tree y v).1 hy).1
  refine hsublist.subset (NetworkRun.mem_ofFlow.mpr ⟨?_, hq⟩)
  exact List.mem_map.mpr ⟨(d, q), hr, rfl⟩

theorem mem_received {y : NetworkRun NicPacket} {l : List (Dev × NetPacket NicPacket)}
    (hr : y.received v = l ++ [a]) : a ∈ y.received v := by
  rw [hr]
  exact List.mem_append_right _ List.mem_cons_self

/-- What the host of the send queue sends of the data flow is what the send queue sends. -/
theorem Step.sent_data (hne : src ≠ dst) (h : Step f.net src dst s ev s')
    (hq : q ∈ s'.net.sent src) (hflow : q.inFlow s.pair.sq.ends.data) :
    q ∈ s.net.sent src ∨ ∃ p ∈ s'.pair.sq.log.sent, q = (NicPacket.data p).onNet := by
  cases h with
  | post => exact .inl hq
  | timeout => exact .inl hq
  | emit _ hp hy =>
    cases hy with
    | send =>
      have hq : q ∈ update s.net.sent src (s.net.sent src ++ [_]) src := hq
      rw [update_self] at hq
      rcases List.mem_append.mp hq with hq | hq
      · exact .inl hq
      · rw [List.mem_singleton.mp hq]
        refine .inr ⟨_, ?_, rfl⟩
        rw [(RdmaReliableSQ.getNextPacket_frame hp).2]
        exact List.mem_append_right _ List.mem_cons_self
  | answer _ hy =>
    cases hy with
    | send =>
      have hq : q ∈ update s.net.sent dst (s.net.sent dst ++ [_]) src := hq
      rw [update_of_ne hne] at hq
      exact .inl hq
  | data hy hr => exact .inl (hy.sent_of_received hr ▸ hq)
  | ack hy hr => exact .inl (hy.sent_of_received hr ▸ hq)
  | other hy hu =>
    have hmem := NetworkRun.mem_ofFlow.mpr ⟨hq, hflow⟩
    rw [hu.sentData] at hmem
    exact .inl (NetworkRun.mem_ofFlow.mp hmem).1

/-- What the host of the receive queue sends of the flows of the answers comes from the queue of its
network card. -/
theorem Step.sent_answer (hne : src ≠ dst) (h : Step f.net src dst s ev s')
    (hprot : l3Prot = 0xFC ∨ l3Prot = 0xFD) (hq : q ∈ s'.net.sent dst)
    (hflow : q.inFlow (s.pair.sq.ends.answer l3Prot)) :
    q ∈ s.net.sent dst ∨ ∃ a ∈ s.ackQ, q = (NicPacket.ack a).onNet := by
  cases h with
  | post => exact .inl hq
  | timeout => exact .inl hq
  | emit _ _ hy =>
    cases hy with
    | send =>
      have hq : q ∈ update s.net.sent src (s.net.sent src ++ [_]) dst := hq
      rw [update_of_ne hne.symm] at hq
      exact .inl hq
  | answer hackQ hy =>
    cases hy with
    | send =>
      have hq : q ∈ update s.net.sent dst (s.net.sent dst ++ [_]) dst := hq
      rw [update_self] at hq
      rcases List.mem_append.mp hq with hq | hq
      · exact .inl hq
      · rw [List.mem_singleton.mp hq, hackQ]
        exact .inr ⟨_, List.mem_cons_self, rfl⟩
  | data hy hr => exact .inl (hy.sent_of_received hr ▸ hq)
  | ack hy hr => exact .inl (hy.sent_of_received hr ▸ hq)
  | other hy hu =>
    have hmem := NetworkRun.mem_ofFlow.mpr ⟨hq, hflow⟩
    rw [hu.sentAnswer l3Prot hprot] at hmem
    exact .inl (NetworkRun.mem_ofFlow.mp hmem).1

/-- The queue of the network card has answers of the receive queue. -/
theorem Step.ackQ (h : Step f.net src dst s ev s') (ha : a ∈ s'.ackQ) :
    a ∈ s.ackQ ∨ a ∈ s'.pair.acks := by
  cases h with
  | answer hackQ => exact .inl (hackQ ▸ List.mem_cons_of_mem _ ha)
  | data =>
    rcases List.mem_append.mp ha with ha | ha
    · exact .inl ha
    · exact .inr (List.mem_append_right _ ha)
  | post => exact .inl ha
  | timeout => exact .inl ha
  | emit => exact .inl ha
  | ack => exact .inl ha
  | other => exact .inl ha

section
variable (hch : Channels f rt e src dst) (hc : Carried e src dst s)
  (hnet : (NetworkRun.machine f rt).Reachable s.net)
include hch hc hnet

/-- **A step of the pair on the network** is a step of the pair over its channel, or does not
concern it. -/
theorem Carried.pair_step (hst : Step f.net src dst s ev s') :
    (∃ ev', ReliablePair.Step s.pair ev' s'.pair) ∨ s'.pair = s.pair := by
  cases hst with
  | post => exact .inl ⟨_, .post⟩
  | timeout hto h => exact .inl ⟨_, .timeout hto h⟩
  | emit hd hp => exact .inl ⟨_, .emit hd hp⟩
  | answer => exact .inr rfl
  | data hy hr hq hbody hrecv =>
    unfold IsData at hq
    rw [hc.ends] at hq
    have hsent := sent_of_received hch.data (hnet.step hy) (mem_received hr) hq
    rw [hy.sent_of_received hr] at hsent
    obtain ⟨p, hp, rfl⟩ := hc.data _ hsent
    obtain rfl := NicPacket.data.inj hbody
    exact .inl ⟨_, .data hp hrecv⟩
  | ack hy hr hq hbody hrecv =>
    obtain ⟨l3Prot, hprot, hq⟩ := hq
    rw [hc.ends] at hq
    have hsent := sent_of_received (hch.answers l3Prot hprot) (hnet.step hy) (mem_received hr) hq
    rw [hy.sent_of_received hr] at hsent
    obtain ⟨a, ha, rfl⟩ := hc.answers l3Prot hprot _ hsent
    obtain rfl := NicPacket.ack.inj hbody
    exact .inl ⟨_, .ack ha hrecv⟩
  | other => exact .inr rfl

theorem Carried.step (hne : src ≠ dst) (hst : Step f.net src dst s ev s') :
    Carried e src dst s' := by
  have hgrows : ReliablePair.Grows s.pair s'.pair := by
    rcases hc.pair_step hch hnet hst with ⟨ev', hpair⟩ | hpair
    · exact hpair.grows
    · rw [hpair]
      exact ⟨rfl, List.prefix_rfl, List.prefix_rfl⟩
  constructor
  case ends => exact hgrows.ends.trans hc.ends
  case data =>
    intro q hq
    obtain ⟨hq, hflow⟩ := NetworkRun.mem_ofFlow.mp hq
    rcases hst.sent_data hne hq (hc.ends ▸ hflow) with hq | hp
    · obtain ⟨p, hp, hbody⟩ := hc.data q (NetworkRun.mem_ofFlow.mpr ⟨hq, hflow⟩)
      exact ⟨p, hgrows.sent.subset hp, hbody⟩
    · exact hp
  case answers =>
    intro l3Prot hprot q hq
    obtain ⟨hq, hflow⟩ := NetworkRun.mem_ofFlow.mp hq
    rcases hst.sent_answer hne hprot hq (hc.ends ▸ hflow) with hq | ⟨a, ha, hbody⟩
    · obtain ⟨a, ha, hbody⟩ := hc.answers l3Prot hprot q (NetworkRun.mem_ofFlow.mpr ⟨hq, hflow⟩)
      exact ⟨a, hgrows.acks.subset ha, hbody⟩
    · exact ⟨a, hgrows.acks.subset (hc.ackQ a ha), hbody⟩
  case ackQ =>
    intro a ha
    rcases hst.ackQ ha with ha | ha
    · exact hgrows.acks.subset (hc.ackQ a ha)
    · exact ha

end

/-- **The run lemma**: a run of the pair on the network is a run of the pair over its channel. -/
theorem carried (hne : src ≠ dst)
    (hch : ∀ e : QpEnds, .ofNat e.sip = Network.getNodeIp src →
      .ofNat e.dip = Network.getNodeIp dst → Channels f rt e src dst)
    (h : (machine f rt src dst).Reachable s) :
    Channels f rt s.pair.sq.ends src dst ∧ Carried s.pair.sq.ends src dst s ∧
      ReliablePair.pair.Reachable s.pair := by
  refine h.invariant (I := fun s => Channels f rt s.pair.sq.ends src dst ∧
    Carried s.pair.sq.ends src dst s ∧ ReliablePair.pair.Reachable s.pair) ?_ ?_
  · intro t h0
    have h0 : Initial f rt src dst t := h0
    exact ⟨hch _ h0.sip h0.dip, h0.carried, .init (M := ReliablePair.pair) h0.pair⟩
  · intro t ev t' ht ih hst
    obtain ⟨hchannels, hcarried, hpair⟩ := ih
    have hcarried' := hcarried.step hchannels (net_reachable ht) hne hst
    rw [hcarried'.ends]
    refine ⟨hchannels, hcarried', ?_⟩
    rcases hcarried.pair_step hchannels (net_reachable ht) hst with ⟨ev', hstep⟩ | hsame
    · exact hpair.step hstep
    · rwa [hsame]

/-- The flows of a pair between two servers. -/
theorem channels (hordered : ∀ ch, NetworkRun.HashesPorts ch → ch.sip = Network.getNodeIp src →
      ch.dip = Network.getNodeIp dst → NetworkRun.Ordered NicPacket f rt ⟨ch, false⟩ src)
    (hordered' : ∀ ch, NetworkRun.HashesPorts ch → ch.sip = Network.getNodeIp dst →
      ch.dip = Network.getNodeIp src → NetworkRun.Ordered NicPacket f rt ⟨ch, false⟩ dst)
    (e : QpEnds) (hsip : .ofNat e.sip = Network.getNodeIp src)
    (hdip : .ofNat e.dip = Network.getNodeIp dst) : Channels f rt e src dst where
  data := hordered _ (.inl rfl) hsip hdip
  answers _ hprot := hordered' _ (.inr hprot) hdip hsip

end NetworkPair

/-- **Exactly-once delivery in order, over the whole network.** On a simple connected topology whose
servers have one link each, a reliable queue pair between any two servers behaves as over the
channel of `ReliablePair`, whatever the other hosts send, the switches drop and the links lose. So,
while fewer than 2^32 bytes were posted: the receiver has accepted the bytes of the front of what
was posted, each once and in order; it was notified of the requests of which it has all bytes, and
so was the sender of some of them; and each data packet that arrives is one that the pair sent, and
passes the assertions of the receiver. -/
theorem reliable_service {top : RdmaTopology} (hs : top.Simple) (hconn : top.Connected)
    (hips : top.DistinctIps) (ord : PtrOrder) (mtu : Nat) :
    ∃ net rt, top.createNetwork = some net ∧ net.buildRoutes ord mtu = some rt ∧
      ∀ f : Fabric, f.net = net →
      ∀ src < top.nodes.length, top.isSwitch src = false →
      ∀ dst < top.nodes.length, top.isSwitch dst = false → src ≠ dst →
      ∀ s, (NetworkPair.machine f rt src dst).Reachable s →
        ReliablePair.pair.Reachable s.pair ∧
        (totalBytes s.pair.sq.log.posted < 2 ^ 32 →
          (Tiles Prod.fst Prod.snd 0 s.pair.rq.log.accepted s.pair.rq.nextExpectedSeq ∧
            s.pair.rq.nextExpectedSeq ≤ totalBytes s.pair.sq.log.posted) ∧
          (∃ d, d <+: s.pair.sq.log.posted ∧ (∀ r ∈ d, r.endPsn ≤ s.pair.rq.nextExpectedSeq) ∧
            s.pair.rq.log.notified = if s.pair.rq.onRecv then d.map (·.imm) else []) ∧
          (∃ d, d <+: s.pair.sq.log.posted ∧ (∀ r ∈ d, r.endPsn ≤ s.pair.rq.nextExpectedSeq) ∧
            s.pair.sq.log.called = d.filter (·.onSend)) ∧
          ∀ d q, (d, q) ∈ s.net.received dst → s.IsData q →
            ∃ p ∈ s.pair.sq.log.sent, q = (NicPacket.data p).onNet ∧
              s.pair.rq.ReceiveAssert p) := by
  obtain ⟨net, rt, hnet, hroutes, hordered⟩ := hs.ordered NicPacket hconn hips ord mtu
  refine ⟨net, rt, hnet, hroutes, ?_⟩
  rintro f rfl src hsrc hsrcsw dst hdst hdstsw hne s h
  obtain ⟨hchannels, hcarried, hpair⟩ := NetworkPair.carried hne
    (NetworkPair.channels (hordered f rfl src hsrc hsrcsw dst hdst hdstsw hne)
      (hordered f rfl dst hdst hdstsw src hsrc hsrcsw hne.symm)) h
  refine ⟨hpair, fun hb => ?_⟩
  have hi := ReliablePair.pair_inv hpair hb
  refine ⟨⟨hi.accepted, hi.live.laid.nextOp_eq ▸ hi.exp_le⟩, ?_, ?_, ?_⟩
  · refine ⟨_, List.takeWhile_prefix _, fun r hr => ?_, hi.notified⟩
    exact (hi.live.laid.tiles.mem_takeWhile.mp hr).2
  · obtain ⟨d, hd, hc, hle⟩ := hi.live.laid.split
    exact ⟨d, ⟨_, hd.symm⟩, fun r hr => (hle r hr).trans hi.una_le, hc⟩
  · intro d q hq hflow
    have hsent := NetworkPair.sent_of_received hchannels.data (NetworkPair.net_reachable h) hq hflow
    obtain ⟨p, hp, hbody⟩ := hcarried.data q hsent
    exact ⟨p, hp, hbody, (hi.sent p hp).1⟩

namespace NetworkRun

variable {α : Type u} {net : Network} {x y : NetworkRun α}

/-- At most one packet arrives at a node in a step. -/
theorem Step.received_cases (h : Step net x e y) (v : Nat) :
    y.received v = x.received v ∨ ∃ a, y.received v = x.received v ++ [a] := by
  have hreceive : ∀ (d : Dev) (w : Nat) (tr : Transmission α),
      (x.receiveAt d w tr).received v = x.received v ∨
        ∃ a, (x.receiveAt d w tr).received v = x.received v ++ [a] := by
    intro d w tr
    dsimp only [receiveAt]
    rw [update_apply]
    split
    next hv =>
      subst hv
      cases tr with
      | pfc => exact .inl (List.append_nil _)
      | packet p => exact .inr ⟨_, rfl⟩
    next => exact .inl rfl
  cases h with
  | send => exact .inl rfl
  | lose => exact .inl rfl
  | transmitComplete => exact .inl rfl
  | deliver => exact hreceive ..
  | forward => exact hreceive ..

end NetworkRun

namespace NetworkPair

/-- What happens next, for runs that are computed: what arrives is found out. -/
inductive Move where
  | post (sr : SendRequest)
  | timeout
  | emit
  | answer
  | net (e : NetworkEvent NicPacket)

/-- A packet arrives at the receive queue. -/
def arriveData (s : NetworkPair) (y : NetworkRun NicPacket) (q : NetPacket NicPacket) :
    Option NetworkPair :=
  match q.body with
  | .ack _ => none
  | .data p =>
    if q.inFlow s.pair.sq.ends.data then
      (s.pair.rq.receiveUdp 0 0 p).map fun (reply, rq) => {
        net := y
        pair := { s.pair with rq := rq, acks := s.pair.acks ++ reply.toList }
        ackQ := s.ackQ ++ reply.toList }
    else none

/-- An answer arrives at the send queue. -/
def arriveAnswer (fuel : Nat) (s : NetworkPair) (y : NetworkRun NicPacket)
    (q : NetPacket NicPacket) : Option NetworkPair :=
  match q.body with
  | .data _ => none
  | .ack a =>
    if q.inFlow (s.pair.sq.ends.answer 0xFC) ∨ q.inFlow (s.pair.sq.ends.answer 0xFD) then
      (RdmaReliableRQ.receiveAck false (fun _ => []) fuel a s.pair.sq).map fun tx =>
        { s with net := y, pair.sq := tx }
    else none

/-- A step of the network: what arrives at the ends is for the pair. -/
def advance (net : Network) (src dst fuel : Nat) (s : NetworkPair) (e : NetworkEvent NicPacket) :
    Option NetworkPair :=
  (NetworkRun.handle net fuel s.net e).bind fun y =>
    match (y.received dst)[(s.net.received dst).length]?,
      (y.received src)[(s.net.received src).length]? with
    | some (_, q), _ => s.arriveData y q
    | none, some (_, q) => s.arriveAnswer fuel y q
    | none, none => some { s with net := y }

/-- The step of a move, computed. -/
def perform (net : Network) (src dst fuel : Nat) (s : NetworkPair) : Move → Option NetworkPair
  | .post sr => some { s with pair.sq := s.pair.sq.postSend sr }
  | .timeout =>
    if s.pair.sq.retrTo then
      (s.pair.sq.onRetrTimeout (fun _ => []) fuel).map fun tx => { s with pair.sq := tx }
    else none
  | .emit =>
    if s.pair.sq.hasDataToSend then
      s.pair.sq.getNextPacket.bind fun (p, tx) =>
        (NetworkRun.handle net fuel s.net (.send src (NicPacket.data p).onNet)).map fun y =>
          { s with net := y, pair.sq := tx }
    else none
  | .answer =>
    match s.ackQ with
    | [] => none
    | a :: rest =>
      (NetworkRun.handle net fuel s.net (.send dst (NicPacket.ack a).onNet)).map fun y =>
        { s with net := y, ackQ := rest }
  | .net (.send ..) => none
  | .net e => advance net src dst fuel s e

variable {net : Network} {src dst : Nat} {s s' : NetworkPair}

theorem step_of_arriveData {y : NetworkRun NicPacket} (hy : NetworkRun.Step net s.net e y)
    (hr : y.received dst = s.net.received dst ++ [(d, q)]) (h : s.arriveData y q = some s') :
    ∃ p now ecnbits, Step net src dst s (.data e p now ecnbits) s' ∧ s'.net = y := by
  unfold arriveData at h
  split at h
  next => cases h
  next p hbody =>
    obtain ⟨hq, h⟩ := Option.ite_none_right_eq_some.mp h
    obtain ⟨⟨reply, rq⟩, hrecv, rfl⟩ := Option.map_eq_some_iff.mp h
    exact ⟨p, 0, 0, .data hy hr hq hbody hrecv, rfl⟩

theorem step_of_arriveAnswer {y : NetworkRun NicPacket} (hy : NetworkRun.Step net s.net e y)
    (hr : y.received src = s.net.received src ++ [(d, q)])
    (h : s.arriveAnswer fuel y q = some s') :
    ∃ a cb, Step net src dst s (.ack e a cb) s' ∧ s'.net = y := by
  unfold arriveAnswer at h
  split at h
  next => cases h
  next a hbody =>
    obtain ⟨hq, h⟩ := Option.ite_none_right_eq_some.mp h
    obtain ⟨tx, hrecv, rfl⟩ := Option.map_eq_some_iff.mp h
    have hanswer : s.IsAnswer q := by
      rcases hq with hq | hq
      · exact ⟨_, .inl rfl, hq⟩
      · exact ⟨_, .inr rfl, hq⟩
    exact ⟨a, _, .ack hy hr hanswer hbody hrecv, rfl⟩

/-- What arrives is for the pair, or does not concern it. -/
theorem step_of_advance (hsend : ∀ host p, e ≠ .send host p)
    (h : advance net src dst fuel s e = some s') :
    ∃ ev, Step net src dst s ev s' ∧
      ∀ e' ∈ ev.inNetwork, e' = e ∧ NetworkRun.Step net s.net e' s'.net := by
  obtain ⟨y, hy, h⟩ := Option.bind_eq_some_iff.mp h
  have hy := NetworkRun.step_of_handle hy
  have hsent : y.sent = s.net.sent := by
    rcases hy.sent with ⟨host, p, heq, -⟩ | hsent
    · exact absurd heq (hsend host p)
    · exact hsent
  split at h
  next d q _ hget =>
    rcases hy.received_cases dst with hr | ⟨a, hr⟩
    · rw [hr, List.getElem?_eq_none le_rfl] at hget
      cases hget
    · rw [hr, List.getElem?_concat_length] at hget
      cases hget
      obtain ⟨p, now, ecnbits, hstep, rfl⟩ := step_of_arriveData hy hr h
      exact ⟨_, hstep, by rintro _ ⟨⟩; exact ⟨rfl, hy⟩⟩
  next d q _ hget =>
    rcases hy.received_cases src with hr | ⟨a, hr⟩
    · rw [hr, List.getElem?_eq_none le_rfl] at hget
      cases hget
    · rw [hr, List.getElem?_concat_length] at hget
      cases hget
      obtain ⟨a, cb, hstep, rfl⟩ := step_of_arriveAnswer hy hr h
      exact ⟨_, hstep, by rintro _ ⟨⟩; exact ⟨rfl, hy⟩⟩
  next hdst hsrc =>
    cases h
    have hsame : ∀ v, (y.received v)[(s.net.received v).length]? = none →
        y.receivedBy v = s.net.receivedBy v := by
      intro v hget
      rcases hy.received_cases v with hr | ⟨a, hr⟩
      · exact congrArg (List.map Prod.snd) hr
      · rw [hr, List.getElem?_concat_length] at hget
        cases hget
    have huntouched : Untouched s.pair.sq.ends src dst s.net y :=
      ⟨by rw [hsent], by rw [hsame dst hdst], fun _ _ => by rw [hsent],
        fun _ _ => by rw [hsame src hsrc]⟩
    exact ⟨_, .other hy huntouched, by rintro _ ⟨⟩; exact ⟨rfl, hy⟩⟩

theorem step_of_perform (h : perform net src dst fuel s m = some s') :
    ∃ ev, Step net src dst s ev s' ∧
      ∀ e ∈ ev.inNetwork, m = .net e ∧ NetworkRun.Step net s.net e s'.net := by
  cases m with
  | post sr =>
    cases h
    exact ⟨_, .post, by rintro _ ⟨⟩⟩
  | timeout =>
    obtain ⟨hto, h⟩ := Option.ite_none_right_eq_some.mp h
    obtain ⟨tx, htx, rfl⟩ := Option.map_eq_some_iff.mp h
    exact ⟨_, .timeout hto htx, by rintro _ ⟨⟩⟩
  | emit =>
    obtain ⟨hd, h⟩ := Option.ite_none_right_eq_some.mp h
    obtain ⟨⟨p, tx⟩, hp, h⟩ := Option.bind_eq_some_iff.mp h
    obtain ⟨y, hy, rfl⟩ := Option.map_eq_some_iff.mp h
    exact ⟨_, .emit hd hp (NetworkRun.step_of_handle hy), by rintro _ ⟨⟩⟩
  | answer =>
    dsimp only [perform] at h
    split at h
    next => cases h
    next a rest hackQ =>
      obtain ⟨y, hy, rfl⟩ := Option.map_eq_some_iff.mp h
      exact ⟨_, .answer hackQ (NetworkRun.step_of_handle hy), by rintro _ ⟨⟩⟩
  | net e =>
    have hsend : ∀ host p, e ≠ .send host p := by
      rintro host p rfl
      cases h
    have h : advance net src dst fuel s e = some s' := by
      cases e with
      | send host p => exact absurd rfl (hsend host p)
      | arrive => exact h
      | transmitComplete => exact h
    obtain ⟨ev, hstep, hnet⟩ := step_of_advance hsend h
    refine ⟨ev, hstep, fun e' he => ?_⟩
    obtain ⟨rfl, hy⟩ := hnet e' he
    exact ⟨rfl, hy⟩

/-- A new pair between two hosts. -/
def start (f : Fabric) (rt : RoutingTables) (src dst : Nat) : NetworkPair where
  net := .start f rt (NicPacket.data .threeBytes).onNet
  pair.sq := {
    mtu := 1000
    sip := (Network.getNodeIp src).toNat
    dip := (Network.getNodeIp dst).toNat
    sport := 100
    dport := 101
    pg := 3 }
  pair.rq := {
    localIp := (Network.getNodeIp dst).toNat
    localPort := 101
    txDestIp := (Network.getNodeIp src).toNat
    txDestPort := 100
    onRecv := true }

theorem initial_start (f : Fabric) (rt : RoutingTables) (src dst : Nat) :
    Initial f rt src dst (start f rt src dst) where
  net := NetworkRun.initial_start f rt _
  pair := ⟨⟨Nat.zero_lt_succ 999, rfl, rfl, rfl, rfl, rfl, rfl, rfl, rfl⟩,
    ⟨rfl, rfl, rfl, rfl⟩, rfl, rfl, rfl, rfl⟩
  ackQ := rfl
  sip := UInt32.ofNat_toNat
  dip := UInt32.ofNat_toNat

theorem reachable_start (f : Fabric) (rt : RoutingTables) (src dst : Nat) :
    (machine f rt src dst).Reachable (start f rt src dst) := .init (initial_start f rt src dst)

/-- A packet crosses the diamond. -/
def diamondForth : List Move :=
  [.arrive ⟨0, 1⟩ false 0, .arrive ⟨2, 3⟩ false 0, .transmitComplete 2 3, .arrive ⟨5, 2⟩ false 0,
    .transmitComplete 5 2, .arrive ⟨3, 3⟩ false 0, .transmitComplete 3 3].map .net

/-- An answer crosses the diamond. -/
def diamondBack : List Move :=
  [.arrive ⟨1, 1⟩ false 0, .arrive ⟨3, 2⟩ false 0, .transmitComplete 3 2, .arrive ⟨5, 1⟩ false 0,
    .transmitComplete 5 1, .arrive ⟨2, 1⟩ false 0, .transmitComplete 2 1].map .net

/-- The first of two packets is lost, so that the second one is answered by a NACK; then both are
sent again. -/
def lossyMoves : List Move :=
  [.post { payloadSize := 2000, imm := 7, onSend := true }, .emit, .emit,
    .net (.arrive ⟨0, 1⟩ true 0)] ++ diamondForth ++ [.answer] ++ diamondBack ++ [.emit, .emit] ++
  diamondForth ++ diamondForth ++ [.answer] ++ diamondBack

end NetworkPair

theorem reliable_service_diamond : ∃ (f : Fabric) (rt : RoutingTables) (s : NetworkPair),
    diamond.createNetwork = some f.net ∧
    f.net.buildRoutes .byNode 1000 = some rt ∧
    (NetworkPair.machine f rt 0 1).Reachable s ∧
    s.pair.sq.log.sent.length = 4 ∧ s.pair.sq.sndUna = 2000 ∧ s.pair.rq.log.notified = [7] ∧
    s.pair.sq.log.called = s.pair.sq.log.posted ∧
    ReliablePair.pair.Reachable s.pair ∧
    Tiles Prod.fst Prod.snd 0 s.pair.rq.log.accepted 2000 ∧
    ∃ d, d <+: s.pair.sq.log.posted ∧ (∀ r ∈ d, r.endPsn ≤ 2000) ∧ d.map (·.imm) = [7] := by
  have hrun : (diamondFabric.bind fun (f, rt) => NetworkPair.lossyMoves.foldlM
      (NetworkPair.perform f.net 0 1 5) (.start f rt 0 1)).any (fun s =>
      (s.pair.sq.log.sent.length = 4 ∧ s.pair.sq.sndUna = 2000 ∧ s.pair.rq.log.notified = [7] ∧
        s.pair.sq.log.called = s.pair.sq.log.posted) ∧ s.pair.rq.nextExpectedSeq = 2000 ∧
      s.pair.rq.onRecv ∧ totalBytes s.pair.sq.log.posted < 2 ^ 32) = true := by decide +kernel
  obtain ⟨s, hs, hrun⟩ := (Option.any_eq_true ..).mp hrun
  obtain ⟨⟨hsent, huna, hnotified, hcalled⟩, hexp, honRecv, hb⟩ := of_decide_eq_true hrun
  obtain ⟨⟨f, rt⟩, hf, hs⟩ := Option.bind_eq_some_iff.mp hs
  obtain ⟨hnet, hroutes, h⟩ := diamondFabric_spec hf (reliable_service diamond_simple
    diamond_connected (RdmaTopology.distinctIps_of_length_le (by decide)) .byNode 1000)
  have hreach := (NetworkPair.reachable_start f rt 0 1).of_foldlM (fun h => by
    obtain ⟨ev, hstep, -⟩ := NetworkPair.step_of_perform h
    exact ⟨ev, hstep⟩) hs
  obtain ⟨hpair, hservice⟩ := h f rfl 0 (by decide) rfl 1 (by decide) rfl (by decide) s hreach
  obtain ⟨⟨htiles, -⟩, ⟨d, hd, hle, himm⟩, -⟩ := hservice hb
  rw [hexp] at htiles hle
  rw [honRecv, if_pos rfl, hnotified] at himm
  exact ⟨f, rt, s, hnet, hroutes, hreach, hsent, huna, hnotified, hcalled, hpair, htiles, d, hd,
    hle, himm.symm⟩

end Roce
