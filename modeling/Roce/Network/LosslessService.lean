import Roce.Network.ReliableService
import Roce.QueuePair.LosslessOrder

/-! # A reliable queue pair on a network that loses nothing of it

Then the network is a FIFO in either direction: what is on the way are the packets of the pair that
were sent and not yet received, and for the answers also those in the queue of the network card. -/

namespace Roce

open Function

namespace NetworkRun

variable {α : Type u} {net : Network} {x y : NetworkRun α}

/-- Where something arrives, nothing arrives elsewhere. -/
theorem Step.received_other (h : Step net x e y) (hr : y.received v = x.received v ++ [a])
    (hne : w ≠ v) : y.received w = x.received w := by
  cases h with
  | send => rfl
  | lose => rfl
  | transmitComplete => rfl
  | @deliver d tr e junk hnext he hsw =>
    by_cases hv : v = e.node
    · exact update_of_ne (hv ▸ hne) _ _
    · have hr : update x.received e.node _ v = x.received v ++ [a] := hr
      rw [update_of_ne hv] at hr
      exact absurd hr (by simp)
  | @forward d tr e port junk fuel s hnext he hsw hport hs =>
    by_cases hv : v = e.node
    · exact update_of_ne (hv ▸ hne) _ _
    · have hr : update x.received e.node _ v = x.received v ++ [a] := hr
      rw [update_of_ne hv] at hr
      exact absurd hr (by simp)

theorem Step.send_eq (h : Step net x (.send host p) y) :
    y = { x with sent := update x.sent host (x.sent host ++ [p]) } := by
  cases h with
  | send => rfl

theorem ofFlow_concat {fl : PacketFlow} {q : NetPacket α} (hq : q.inFlow fl)
    (l : List (NetPacket α)) : ofFlow fl (l ++ [q]) = ofFlow fl l ++ [q] := by
  rw [ofFlow_append]
  exact congrArg _ (List.filter_cons_of_pos hq)

theorem receivedBy_concat (hr : y.received v = x.received v ++ [(d, q)]) :
    y.receivedBy v = x.receivedBy v ++ [q] := by
  rw [receivedBy, hr, List.map_append]
  rfl

/-- The head of what is on the way arrives. -/
theorem arrives_head {q : NetPacket α} {sent got way : List (NetPacket α)}
    (hway : sent = got ++ way) (hpre : got ++ [q] <+: sent) : ∃ rest, way = q :: rest := by
  obtain ⟨rest, hrest⟩ := hpre
  rw [hway, List.append_assoc] at hrest
  exact ⟨rest, (List.append_cancel_left hrest).symm⟩

end NetworkRun

/-! ## The packets of the pair are in its flows -/

theorem RdmaReliableSQ.onNet_inFlow {s s' : RdmaReliableSQ} (h : s.getNextPacket = some (p, s')) :
    (NicPacket.data p).onNet.inFlow s.ends.data := by
  obtain ⟨k, sr, size, t, -, rfl, -, -⟩ := getNextPacket_cases h
  have hmulticast : (s.bthAt sr s.sndNxt size).multicast = false := by
    unfold bthAt
    split
    · rfl
    · rfl
  exact decide_eq_true ⟨rfl, hmulticast⟩

/-- An answer to a packet of the flow. -/
theorem RdmaReliableRQ.onNet_inFlow {rq rq' : RdmaReliableRQ} {e : QpEnds}
    (h : rq.receiveUdp now ecnbits p = some (some a, rq'))
    (hp : (NicPacket.data p).onNet.inFlow e.data) :
    (NicPacket.ack a).onNet.inFlow (e.answer a.protocol) := by
  obtain ⟨t, x, rfl⟩ := receiveUdp_ackPacket h
  have hheader : (NicPacket.data p).header = e.data.ch := (of_decide_eq_true hp).1
  rw [NicPacket.header, QpEnds.data, CustomHeader.mk.injEq] at hheader
  obtain ⟨hsip, hdip, -, hsport, hdport, hpg⟩ := hheader
  refine decide_eq_true ⟨?_, rfl⟩
  show (NicPacket.ack _).header = (e.answer _).ch
  rw [NicPacket.header, QpEnds.answer, CustomHeader.mk.injEq]
  exact ⟨hdip, hsip, rfl, hdport, hsport, hpg⟩

namespace NetworkPair

variable {f : Fabric} {rt : RoutingTables} {src dst : Nat} {s s' : NetworkPair} {e : QpEnds}

/-- No packet of the pair is lost in this event. -/
def Lossless (f : Fabric) (s : NetworkPair) (ev : Event) : Prop :=
  ∀ e ∈ ev.inNetwork, NetworkRun.Keeps f.net s.pair.sq.ends.data s.net e ∧
    NetworkRun.Keeps f.net (s.pair.sq.ends.answer 0xFC) s.net e

/-- What is on the way: `data` to the receiver, and `answers` to the sender. -/
structure OnTheWay (e : QpEnds) (src dst : Nat) (s : NetworkPair) (data : List Packet)
    (answers : List AckPacket) : Prop where
  data : NetworkRun.ofFlow e.data (s.net.sent src) =
    NetworkRun.ofFlow e.data (s.net.receivedBy dst) ++ data.map fun p => (NicPacket.data p).onNet
  answers : NetworkRun.ofFlow (e.answer 0xFC) (s.net.sent dst) ++
      s.ackQ.map (fun a => (NicPacket.ack a).onNet) =
    NetworkRun.ofFlow (e.answer 0xFC) (s.net.receivedBy src) ++
      answers.map fun a => (NicPacket.ack a).onNet
  ackQ : ∀ a ∈ s.ackQ, (NicPacket.ack a).onNet.inFlow (e.answer a.protocol)

/-- The pair over a FIFO in either direction, of which the network is one. -/
structure Fifo (f : Fabric) (rt : RoutingTables) (e : QpEnds) (src dst : Nat) (s : NetworkPair) :
    Prop where
  ends : s.pair.sq.ends = e
  netData : ((NetworkRun.machine f rt).restrict (NetworkRun.Keeps f.net e.data)).Reachable s.net
  netAnswers :
    ((NetworkRun.machine f rt).restrict (NetworkRun.Keeps f.net (e.answer 0xFC))).Reachable s.net
  channel : ∃ t₀ data answers, LosslessPair.Fresh t₀ ∧
    (LosslessPair.lossless t₀).Reachable ⟨s.pair, data, answers⟩ ∧ OnTheWay e src dst s data answers

theorem Initial.fifo (h : Initial f rt src dst s) : Fifo f rt s.pair.sq.ends src dst s where
  ends := rfl
  netData := by
    have h0 : (NetworkRun.machine f rt).init s.net := h.net
    exact .init (M := (NetworkRun.machine f rt).restrict _) h0
  netAnswers := by
    have h0 : (NetworkRun.machine f rt).init s.net := h.net
    exact .init (M := (NetworkRun.machine f rt).restrict _) h0
  channel := by
    refine ⟨⟨s.pair, [], []⟩, [], [], ⟨h.pair, rfl, rfl⟩, .init rfl, ?_⟩
    constructor
    · rw [h.net.sent, NetworkRun.receivedBy, h.net.received]
      rfl
    · rw [h.net.sent, NetworkRun.receivedBy, h.net.received, h.ackQ]
      rfl
    · intro a ha
      rw [h.ackQ] at ha
      cases ha

/-- The data packet that arrives is the head of the FIFO. -/
theorem OnTheWay.data_head {y : NetworkRun NicPacket} (h : OnTheWay e src dst s l m)
    (hord : NetworkRun.Ordered NicPacket f rt e.data src)
    (hy : ((NetworkRun.machine f rt).restrict (NetworkRun.Keeps f.net e.data)).Reachable y)
    (hsent : y.sent = s.net.sent) (hr : y.received dst = s.net.received dst ++ [(d, q)])
    (hq : q.inFlow e.data) (hbody : q.body = .data p) :
    ∃ rest, l = p :: rest ∧ q = (NicPacket.data p).onNet := by
  have hpre := (NetworkRun.in_order_of_tree hord.hashes hord.tree y dst).2 hy
  rw [hsent, NetworkRun.receivedBy_concat hr, NetworkRun.ofFlow_concat hq] at hpre
  obtain ⟨rest, hrest⟩ := NetworkRun.arrives_head h.data hpre
  cases l with
  | nil => cases hrest
  | cons p' l =>
    obtain ⟨rfl, -⟩ := List.cons.inj hrest
    obtain rfl := NicPacket.data.inj hbody
    exact ⟨l, rfl, rfl⟩

/-- The ACK that arrives is the head of the FIFO: it has left the queue of the network card. -/
theorem OnTheWay.answer_head {y : NetworkRun NicPacket} (h : OnTheWay e src dst s l m)
    (hord : NetworkRun.Ordered NicPacket f rt (e.answer 0xFC) dst)
    (hy : ((NetworkRun.machine f rt).restrict (NetworkRun.Keeps f.net (e.answer 0xFC))).Reachable y)
    (hsent : y.sent = s.net.sent) (hr : y.received src = s.net.received src ++ [(d, q)])
    (hq : q.inFlow (e.answer 0xFC)) (hbody : q.body = .ack a) :
    ∃ rest, m = a :: rest ∧ q = (NicPacket.ack a).onNet := by
  have hpre := (NetworkRun.in_order_of_tree hord.hashes hord.tree y src).2 hy
  rw [hsent, NetworkRun.receivedBy_concat hr, NetworkRun.ofFlow_concat hq] at hpre
  obtain ⟨rest, hrest⟩ := NetworkRun.arrives_head h.answers
    (hpre.trans (List.prefix_append _ (s.ackQ.map fun a => (NicPacket.ack a).onNet)))
  cases m with
  | nil => cases hrest
  | cons a' m =>
    obtain ⟨rfl, -⟩ := List.cons.inj hrest
    obtain rfl := NicPacket.ack.inj hbody
    exact ⟨m, rfl, rfl⟩

/-- The network takes a step or none, without a loss of the pair. -/
theorem Step.keeps (h : Step f.net src dst s ev s') (hl : Lossless f s ev) :
    (∃ e, NetworkRun.Step f.net s.net e s'.net ∧
      NetworkRun.Keeps f.net s.pair.sq.ends.data s.net e ∧
      NetworkRun.Keeps f.net (s.pair.sq.ends.answer 0xFC) s.net e) ∨ s'.net = s.net := by
  cases h with
  | post => exact .inr rfl
  | timeout => exact .inr rfl
  | emit _ _ h => exact .inl ⟨_, h, trivial, trivial⟩
  | answer _ h => exact .inl ⟨_, h, trivial, trivial⟩
  | data h => exact .inl ⟨_, h, hl _ rfl⟩
  | ack h => exact .inl ⟨_, h, hl _ rfl⟩
  | other h => exact .inl ⟨_, h, hl _ rfl⟩

theorem Fifo.net (h : Fifo f rt e src dst s) (hst : Step f.net src dst s ev s')
    (hl : Lossless f s ev) :
    ((NetworkRun.machine f rt).restrict (NetworkRun.Keeps f.net e.data)).Reachable s'.net ∧
    ((NetworkRun.machine f rt).restrict (NetworkRun.Keeps f.net (e.answer 0xFC))).Reachable
      s'.net := by
  rcases hst.keeps hl with ⟨e', hnet, hdata, hanswer⟩ | hnet
  · rw [h.ends] at hdata hanswer
    exact ⟨h.netData.step ⟨hdata, hnet⟩, h.netAnswers.step ⟨hanswer, hnet⟩⟩
  · rw [hnet]
    exact ⟨h.netData, h.netAnswers⟩

/-- **A step without a loss** is one of the pair over its FIFOs, or does not concern it. -/
theorem Fifo.step (h : Fifo f rt e src dst s) (hch : Channels f rt e src dst)
    (hc : Carried e src dst s) (hne : src ≠ dst) (hst : Step f.net src dst s ev s')
    (hl : Lossless f s ev) (hb : totalBytes s.pair.sq.log.posted < 2 ^ 32)
    (hends : s'.pair.sq.ends = e) : Fifo f rt e src dst s' := by
  obtain ⟨hdata', hanswers'⟩ := h.net hst hl
  refine ⟨hends, hdata', hanswers', ?_⟩
  obtain ⟨t₀, l, m, h₀, hr, hway⟩ := h.channel
  have hacks := (LosslessPair.inLine h₀ hr hb).acks
  cases hst with
  | @post _ sr =>
    have hpost : LosslessPair.Step ⟨s.pair, l, m⟩ (.post sr) _ := .post
    exact ⟨t₀, l, m, h₀, hr.step hpost, hway.data, hway.answers, hway.ackQ⟩
  | timeout hto hs =>
    have htimeout : LosslessPair.Step ⟨s.pair, l, m⟩ (.timeout _) _ := .timeout hto hs
    exact ⟨t₀, l, m, h₀, hr.step htimeout, hway.data, hway.answers, hway.ackQ⟩
  | @emit p tx y _ hd hp hy =>
    obtain rfl := hy.send_eq
    have hemit : LosslessPair.Step ⟨s.pair, l, m⟩ .emit _ := .emit hd hp
    have hflow := RdmaReliableSQ.onNet_inFlow hp
    rw [h.ends] at hflow
    refine ⟨t₀, _, m, h₀, hr.step hemit, ?_, ?_, hway.ackQ⟩
    · show NetworkRun.ofFlow e.data (update s.net.sent src _ src) = _
      rw [update_self, NetworkRun.ofFlow_concat hflow, hway.data, List.map_append,
        List.append_assoc]
      rfl
    · show NetworkRun.ofFlow _ (update s.net.sent src _ dst) ++ _ = _
      rw [update_of_ne hne.symm]
      exact hway.answers
  | @answer a rest y _ hackQ hy =>
    obtain rfl := hy.send_eq
    have ha : a ∈ s.ackQ := hackQ ▸ List.mem_cons_self
    have hflow := hway.ackQ a ha
    rw [hacks a (hc.ackQ a ha)] at hflow
    refine ⟨t₀, l, m, h₀, hr, ?_, ?_, fun b hb => hway.ackQ b (hackQ ▸ List.mem_cons_of_mem a hb)⟩
    · show NetworkRun.ofFlow _ (update s.net.sent dst _ src) = _
      rw [update_of_ne hne]
      exact hway.data
    · show NetworkRun.ofFlow _ (update s.net.sent dst _ dst) ++ _ = _
      have hanswers := hway.answers
      rw [hackQ, List.map_cons, List.append_cons] at hanswers
      rw [update_self, NetworkRun.ofFlow_concat hflow]
      exact hanswers
  | @data e' y d q reply rq _ p now ecnbits hy hreceived hq hbody hrecv =>
    have hsent := hy.sent_of_received hreceived
    unfold IsData at hq
    rw [h.ends] at hq
    obtain ⟨rest, rfl, rfl⟩ := hway.data_head hch.data hdata' hsent hreceived hq hbody
    have hdata : LosslessPair.Step ⟨s.pair, p :: rest, m⟩ (.data p now ecnbits) _ := .data rfl hrecv
    refine ⟨t₀, rest, _, h₀, hr.step hdata, ?_, ?_, ?_⟩
    · show NetworkRun.ofFlow e.data (y.sent src) = NetworkRun.ofFlow e.data (y.receivedBy dst) ++ _
      rw [hsent, NetworkRun.receivedBy_concat hreceived, NetworkRun.ofFlow_concat hq, hway.data,
        List.append_assoc]
      rfl
    · show NetworkRun.ofFlow _ (y.sent dst) ++ _ = NetworkRun.ofFlow _ (y.receivedBy src) ++ _
      have hother : y.receivedBy src = s.net.receivedBy src :=
        congrArg (List.map Prod.snd) (hy.received_other hreceived hne)
      rw [hsent, hother, List.map_append, ← List.append_assoc, hway.answers, List.append_assoc,
        List.map_append]
    · intro a ha
      rcases List.mem_append.mp ha with ha | ha
      · exact hway.ackQ a ha
      · obtain rfl := Option.mem_toList.mp ha
        exact RdmaReliableRQ.onNet_inFlow hrecv hq
  | @ack e' y d q cb fuel a tx _ hy hreceived hq hbody hs =>
    have hsent := hy.sent_of_received hreceived
    obtain ⟨l3Prot, hprot, hq⟩ := hq
    rw [h.ends] at hq
    have hreach : (NetworkRun.machine f rt).Reachable y := h.netData.of_restrict.step hy
    have hqsent := sent_of_received (hch.answers l3Prot hprot) hreach (mem_received hreceived) hq
    rw [hsent] at hqsent
    obtain ⟨a', ha', rfl⟩ := hc.answers l3Prot hprot q hqsent
    obtain rfl : l3Prot = 0xFC := by
      have hheader : (NicPacket.ack a').header = (e.answer l3Prot).ch := (of_decide_eq_true hq).1
      rw [NicPacket.header, QpEnds.answer, CustomHeader.mk.injEq] at hheader
      exact hheader.2.2.1.symm.trans (hacks a' ha')
    obtain ⟨rest, rfl, -⟩ := hway.answer_head (hch.answers _ (.inl rfl)) hanswers' hsent
      hreceived hq
      hbody
    have hack : LosslessPair.Step ⟨s.pair, l, a :: rest⟩ (.ack a cb) _ := .ack rfl hs
    refine ⟨t₀, l, rest, h₀, hr.step hack, ?_, ?_, hway.ackQ⟩
    · show NetworkRun.ofFlow e.data (y.sent src) = NetworkRun.ofFlow e.data (y.receivedBy dst) ++ _
      have hother : y.receivedBy dst = s.net.receivedBy dst :=
        congrArg (List.map Prod.snd) (hy.received_other hreceived hne.symm)
      rw [hsent, hother]
      exact hway.data
    · show NetworkRun.ofFlow _ (y.sent dst) ++ _ = NetworkRun.ofFlow _ (y.receivedBy src) ++ _
      obtain rfl := NicPacket.ack.inj hbody
      rw [hsent, NetworkRun.receivedBy_concat hreceived, NetworkRun.ofFlow_concat hq, hway.answers,
        List.append_assoc]
      rfl
  | @other e' y _ hy hu =>
    rw [h.ends] at hu
    refine ⟨t₀, l, m, h₀, hr, ?_, ?_, hway.ackQ⟩
    · show NetworkRun.ofFlow e.data (y.sent src) = NetworkRun.ofFlow e.data (y.receivedBy dst) ++ _
      rw [hu.sentData, hu.receivedData]
      exact hway.data
    · show NetworkRun.ofFlow _ (y.sent dst) ++ _ = NetworkRun.ofFlow _ (y.receivedBy src) ++ _
      rw [hu.sentAnswer _ (.inl rfl), hu.receivedAnswer _ (.inl rfl)]
      exact hway.answers

theorem Step.posted (h : Step f.net src dst s ev s') :
    s.pair.sq.log.posted <+: s'.pair.sq.log.posted := by
  cases h with
  | post => exact List.prefix_append ..
  | timeout _ h =>
    have hposted := RdmaReliableSQ.recoverNack_posted h
    exact hposted
  | emit _ h => rw [RdmaReliableSQ.getNextPacket_posted h]
  | answer => exact List.prefix_rfl
  | data => exact List.prefix_rfl
  | ack _ _ _ _ h => exact ReliablePair.receiveAck_posted h
  | other => exact List.prefix_rfl

/-- **The run lemma**: a run without a loss is one of the pair over its FIFOs. -/
theorem fifo (hne : src ≠ dst)
    (hch : ∀ e : QpEnds, .ofNat e.sip = Network.getNodeIp src →
      .ofNat e.dip = Network.getNodeIp dst → Channels f rt e src dst)
    (h : ((machine f rt src dst).restrict (Lossless f)).Reachable s)
    (hb : totalBytes s.pair.sq.log.posted < 2 ^ 32) : Fifo f rt s.pair.sq.ends src dst s := by
  refine h.invariant_of_bound (B := fun s => totalBytes s.pair.sq.log.posted < 2 ^ 32)
    (I := fun s => Fifo f rt s.pair.sq.ends src dst s) ?_ ?_ ?_ hb
  · intro t h0
    have h0 : Initial f rt src dst t := h0
    exact h0.fifo
  · exact fun hst hb => Nat.lt_of_le_of_lt (totalBytes_mono (Step.posted hst.2)) hb
  · rintro t ev t' ht hi ⟨hl, hst⟩ hb
    obtain ⟨hchannels, hcarried, -⟩ := carried hne hch ht.of_restrict
    obtain ⟨-, hcarried', -⟩ := carried hne hch (ht.of_restrict.step hst)
    have hends : t'.pair.sq.ends = t.pair.sq.ends :=
      (hcarried.step hchannels (net_reachable ht.of_restrict) hne hst).ends
    rw [hends]
    exact hi.step hchannels hcarried hne hst hl
      (Nat.lt_of_le_of_lt (totalBytes_mono hst.posted) hb) hends

/-- Nothing of the pair is on its way. -/
structure Quiet (src dst : Nat) (s : NetworkPair) : Prop where
  data : NetworkRun.ofFlow s.pair.sq.ends.data (s.net.sent src) =
    NetworkRun.ofFlow s.pair.sq.ends.data (s.net.receivedBy dst)
  answers : NetworkRun.ofFlow (s.pair.sq.ends.answer 0xFC) (s.net.sent dst) =
    NetworkRun.ofFlow (s.pair.sq.ends.answer 0xFC) (s.net.receivedBy src)
  ackQ : s.ackQ = []

theorem Quiet.fifos (h : Quiet src dst s) (hway : OnTheWay s.pair.sq.ends src dst s l m) :
    l = [] ∧ m = [] := by
  have hdata := hway.data
  have hanswers := hway.answers
  rw [h.data] at hdata
  rw [h.answers, h.ackQ] at hanswers
  constructor
  · exact List.map_eq_nil_iff.mp (List.self_eq_append_right.mp hdata)
  · exact List.map_eq_nil_iff.mp (List.append_cancel_left hanswers).symm

end NetworkPair

/-- **A network that loses nothing of a pair** needs no NACK, and a pair that has come to rest on it
is done. On a simple connected topology whose servers have one link each, in every run in which no
packet of the pair is dropped or corrupted, while fewer than 2^32 bytes were posted: the receiver
has sent no NACK; and whenever the sender has nothing to send and nothing of the pair is on its way,
all bytes were accepted and acknowledged, and both applications were notified of every request. -/
theorem lossless_service {top : RdmaTopology} (hs : top.Simple) (hconn : top.Connected)
    (hips : top.DistinctIps) (ord : PtrOrder) (mtu : Nat) :
    ∃ net rt, top.createNetwork = some net ∧ net.buildRoutes ord mtu = some rt ∧
      ∀ f : Fabric, f.net = net →
      ∀ src < top.nodes.length, top.isSwitch src = false →
      ∀ dst < top.nodes.length, top.isSwitch dst = false → src ≠ dst →
      ∀ s, ((NetworkPair.machine f rt src dst).restrict (NetworkPair.Lossless f)).Reachable s →
        totalBytes s.pair.sq.log.posted < 2 ^ 32 →
        (∀ a ∈ s.pair.acks, a.protocol = 0xFC) ∧
        (NetworkPair.Quiet src dst s → s.pair.sq.hasDataToSend = false →
          s.pair.rq.nextExpectedSeq = totalBytes s.pair.sq.log.posted ∧
          s.pair.sq.sndUna = totalBytes s.pair.sq.log.posted ∧
          s.pair.rq.log.notified =
            (if s.pair.rq.onRecv then s.pair.sq.log.posted.map (·.imm) else []) ∧
          s.pair.sq.log.called = s.pair.sq.log.posted.filter (·.onSend)) := by
  obtain ⟨net, rt, hnet, hroutes, hordered⟩ := hs.ordered NicPacket hconn hips ord mtu
  refine ⟨net, rt, hnet, hroutes, ?_⟩
  rintro f rfl src hsrc hsrcsw dst hdst hdstsw hne s h hb
  have hch := NetworkPair.channels (hordered f rfl src hsrc hsrcsw dst hdst hdstsw hne)
    (hordered f rfl dst hdst hdstsw src hsrc hsrcsw hne.symm)
  obtain ⟨t₀, l, m, h₀, hr, hway⟩ := (NetworkPair.fifo hne hch h hb).channel
  have hline := LosslessPair.inLine h₀ hr hb
  refine ⟨hline.acks, fun hquiet hd => ?_⟩
  obtain ⟨rfl, rfl⟩ := hquiet.fifos hway
  exact hline.complete (LosslessPair.lossless_inv h₀ hr hb) hd rfl rfl

namespace NetworkPair

/-- A move without a loss of the pair, computed. -/
def performLossless (net : Network) (src dst fuel : Nat) (s : NetworkPair) (m : Move) :
    Option NetworkPair :=
  (perform net src dst fuel s m).filter fun s' =>
    match m with
    | .net e => NetworkRun.keeps net s.pair.sq.ends.data s.net s'.net e &&
      NetworkRun.keeps net (s.pair.sq.ends.answer 0xFC) s.net s'.net e
    | _ => true

theorem step_of_performLossless (h : performLossless f.net src dst fuel s m = some s') :
    ∃ ev, Lossless f s ev ∧ Step f.net src dst s ev s' := by
  obtain ⟨hs, hkeeps⟩ := Option.filter_eq_some_iff.mp h
  obtain ⟨ev, hstep, hnet⟩ := step_of_perform hs
  refine ⟨ev, fun e he => ?_, hstep⟩
  obtain ⟨rfl, hy⟩ := hnet e he
  obtain ⟨hdata, hanswer⟩ := (Bool.and_eq_true ..).mp hkeeps
  exact ⟨NetworkRun.keeps_of_step hy hdata, NetworkRun.keeps_of_step hy hanswer⟩

/-- Two packets, and the ACK of the second one, cross the diamond. -/
def losslessMoves : List Move :=
  [.post { payloadSize := 2000, imm := 7, onSend := true }, .emit, .emit] ++ diamondForth ++
  diamondForth ++ [.answer] ++ diamondBack

end NetworkPair

theorem lossless_service_diamond : ∃ (f : Fabric) (rt : RoutingTables) (s : NetworkPair),
    diamond.createNetwork = some f.net ∧
    f.net.buildRoutes .byNode 1000 = some rt ∧
    ((NetworkPair.machine f rt 0 1).restrict (NetworkPair.Lossless f)).Reachable s ∧
    s.pair.sq.log.sent.length = 2 ∧ totalBytes s.pair.sq.log.posted = 2000 ∧
    NetworkPair.Quiet 0 1 s ∧ (∀ a ∈ s.pair.acks, a.protocol = 0xFC) ∧
    s.pair.rq.nextExpectedSeq = 2000 ∧ s.pair.sq.sndUna = 2000 ∧
    s.pair.rq.log.notified = s.pair.sq.log.posted.map (·.imm) ∧
    s.pair.sq.log.called = s.pair.sq.log.posted.filter (·.onSend) := by
  have hrun : (diamondFabric.bind fun (f, rt) => NetworkPair.losslessMoves.foldlM
      (NetworkPair.performLossless f.net 0 1 5) (.start f rt 0 1)).any (fun s =>
      (s.pair.sq.log.sent.length = 2 ∧ totalBytes s.pair.sq.log.posted = 2000) ∧
      (NetworkRun.ofFlow s.pair.sq.ends.data (s.net.sent 0) =
          NetworkRun.ofFlow s.pair.sq.ends.data (s.net.receivedBy 1) ∧
        NetworkRun.ofFlow (s.pair.sq.ends.answer 0xFC) (s.net.sent 1) =
          NetworkRun.ofFlow (s.pair.sq.ends.answer 0xFC) (s.net.receivedBy 0) ∧ s.ackQ = []) ∧
      s.pair.sq.hasDataToSend = false ∧ s.pair.rq.onRecv) = true := by decide +kernel
  obtain ⟨s, hs, hrun⟩ := (Option.any_eq_true ..).mp hrun
  obtain ⟨⟨hsent, htotal⟩, ⟨hdata, hanswers, hackQ⟩, hdone, honRecv⟩ := of_decide_eq_true hrun
  obtain ⟨⟨f, rt⟩, hf, hs⟩ := Option.bind_eq_some_iff.mp hs
  obtain ⟨hnet, hroutes, h⟩ := diamondFabric_spec hf (lossless_service diamond_simple
    diamond_connected (RdmaTopology.distinctIps_of_length_le (by decide)) .byNode 1000)
  have hstart : ((NetworkPair.machine f rt 0 1).restrict (NetworkPair.Lossless f)).Reachable
      (.start f rt 0 1) := .init (NetworkPair.initial_start f rt 0 1)
  have hreach := hstart.of_foldlM NetworkPair.step_of_performLossless hs
  have hquiet : NetworkPair.Quiet 0 1 s := ⟨hdata, hanswers, hackQ⟩
  obtain ⟨hacks, hrest⟩ := h f rfl 0 (by decide) rfl 1 (by decide) rfl (by decide) s hreach (by
    rw [htotal]
    decide)
  obtain ⟨hexp, huna, hnotified, hcalled⟩ := hrest hquiet hdone
  rw [honRecv, if_pos rfl] at hnotified
  rw [htotal] at hexp huna
  exact ⟨f, rt, s, hnet, hroutes, hreach, hsent, htotal, hquiet, hacks, hexp, huna, hnotified,
    hcalled⟩

end Roce
