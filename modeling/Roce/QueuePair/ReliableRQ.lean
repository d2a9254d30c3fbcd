import Roce.QueuePair.ReliableSQ

/-! # `RdmaReliableRQ`

The receive queue of a reliable queue pair (`rdma-reliable-qp.cc`). `Simulator::Now()` is an
argument. Of `m_tx`, the send queue of the same pair, the receive queue reads the peer's
address and port and the chunk size.

`ReceiveAck` runs on the side that sent the data: it hands the PSN of the ACK to the send queue.
What a CNP flag does to the rate is left out, and so are the ECN counters `m_ecn_source`. -/

namespace Roce

/-- The return codes of `ReceiverCheckSeq`, from 1 to 5. -/
inductive CheckSeq where
  | ack
  | nack
  | duplicate
  | nackWait
  | success
  deriving DecidableEq, Repr

/-- What a receive queue did, a history that no function reads: the byte ranges of the packets
it accepted and the immediate values it passed to `m_onRecv`. -/
structure RecvLog where
  accepted : List (Nat × Nat) := []
  notified : List UInt32 := []
  deriving DecidableEq, Repr

/-- The members of `RdmaReliableRQ`. -/
structure RdmaReliableRQ where
  localIp : Nat := 0
  localPort : Nat := 0
  txDestIp : Nat := 0
  txDestPort : Nat := 0
  txChunk : Nat := 0
  onRecv : Bool := true
  ipid : Nat := 0
  nextExpectedSeq : Nat := 0
  nackTimer : Nat := 0
  nackInterval : Nat := 0
  lastNack : Nat := 0
  backto0 : Bool := false
  log : RecvLog := {}
  deriving DecidableEq, Repr

namespace RdmaReliableRQ

/-- `GetChunk`. -/
def getChunk (rq : RdmaReliableRQ) : Nat := u32 rq.txChunk

/-- `ReceiverCheckSeq`. -/
def receiverCheckSeq (now seq size : Nat) (rq : RdmaReliableRQ) : CheckSeq × RdmaReliableRQ :=
  let expected := rq.nextExpectedSeq
  if seq = expected then
    (.success, { rq with
      nextExpectedSeq := u32 (expected + size)
      log.accepted := rq.log.accepted ++ [(expected, expected + size)] })
  else if seq > expected then
    if now ≥ rq.nackTimer || rq.lastNack ≠ expected then
      (.nack, { rq with
        nackTimer := now + rq.nackInterval
        lastNack := expected
        nextExpectedSeq :=
          if rq.backto0 then u32 (rq.nextExpectedSeq / rq.getChunk * rq.getChunk)
          else rq.nextExpectedSeq })
    else (.nackWait, rq)
  else (.duplicate, rq)

/-- The assertions at the head of `ReceiveUdp`. -/
def ReceiveAssert (rq : RdmaReliableRQ) (p : Packet) : Prop :=
  p.bth.reliable ∧ p.ip.destination = rq.localIp ∧ p.ip.source = rq.txDestIp ∧
    p.udp.sourcePort = rq.txDestPort ∧ p.udp.destinationPort = rq.localPort

instance (rq : RdmaReliableRQ) (p : Packet) : Decidable (rq.ReceiveAssert p) :=
  inferInstanceAs (Decidable (_ ∧ _))

/-- The answer to a packet, once it is known whether the sender asked for one. -/
def answer (ackReq : Bool) (x : CheckSeq) : CheckSeq :=
  if ackReq then
    match x with
    | .success | .duplicate => .ack
    | .nackWait => .nack
    | x => x
  else x

/-- The ACK (`0xFC`) or NACK (`0xFD`) that answers `p`. -/
def ackPacket (rq : RdmaReliableRQ) (p : Packet) (ecnbits : Nat) (x : CheckSeq) : AckPacket where
  seq := rq.nextExpectedSeq
  pg := p.seqTs.pg
  sport := p.udp.destinationPort
  dport := p.udp.sourcePort
  cnp := ecnbits ≠ 0
  source := p.ip.destination
  destination := p.ip.source
  protocol := if x = .ack then 0xFC else 0xFD
  identification := rq.ipid
  bth := { destQpKey := p.udp.sourcePort }

/-- `ReceiveUdp`: the answer, if there is one, and the new state. -/
def receiveUdp (now ecnbits : Nat) (p : Packet) (rq : RdmaReliableRQ) :
    Option (Option AckPacket × RdmaReliableRQ) :=
  if rq.ReceiveAssert p then
    let (x, rq) := rq.receiverCheckSeq now p.seqTs.seq p.size
    let success : Bool := x = .ack || x = .success
    let x := answer p.bth.ackReq x
    let (reply, rq) :=
      if x = .ack || x = .nack then
        (some (rq.ackPacket p ecnbits x), { rq with ipid := u16 (rq.ipid + 1) })
      else (none, rq)
    if rq.onRecv && success && p.bth.notif then
      some (reply, { rq with log.notified := rq.log.notified ++ [p.bth.imm] })
    else some (reply, rq)
  else none

/-- `ReceiveAck`, on a receive queue with the given `m_backto0` whose `m_tx` is `tx`. -/
def receiveAck (backto0 : Bool) (cb : Callbacks) (fuel : Nat) (a : AckPacket)
    (tx : RdmaReliableSQ) : Option RdmaReliableSQ := do
  let tx ←
    if !backto0 then tx.acknowledge cb fuel a.seq
    else tx.acknowledge cb fuel (a.seq / u32 tx.chunk * u32 tx.chunk)
  if a.protocol = 0xFD then tx.recoverNack cb fuel a.seq else some tx

/-- The history after the packet `p` was accepted. -/
def accept (rq : RdmaReliableRQ) (p : Packet) : RecvLog where
  accepted := rq.log.accepted ++ [(rq.nextExpectedSeq, rq.nextExpectedSeq + p.size)]
  notified := rq.log.notified ++ if rq.onRecv && p.bth.notif then [p.bth.imm] else []

/-- `ReceiverCheckSeq` has two outcomes: the expected packet is accepted, and any other packet
leaves the expected PSN alone. -/
theorem receiverCheckSeq_cases (rq : RdmaReliableRQ) (now seq size : Nat)
    (hb : rq.backto0 = false) :
    (seq = rq.nextExpectedSeq ∧ rq.receiverCheckSeq now seq size = (.success, { rq with
      nextExpectedSeq := u32 (rq.nextExpectedSeq + size)
      log.accepted :=
        rq.log.accepted ++ [(rq.nextExpectedSeq, rq.nextExpectedSeq + size)] })) ∨
    (seq ≠ rq.nextExpectedSeq ∧ ∃ x nackTimer lastNack, x ≠ .ack ∧ x ≠ .success ∧
      rq.receiverCheckSeq now seq size = (x, { rq with nackTimer, lastNack })) := by
  unfold receiverCheckSeq
  by_cases heq : seq = rq.nextExpectedSeq
  · left
    rw [if_pos heq]
    exact ⟨heq, rfl⟩
  · right
    refine ⟨heq, ?_⟩
    rw [if_neg heq]
    split
    · split
      · rw [hb]
        exact ⟨.nack, _, _, by decide, by decide, rfl⟩
      · exact ⟨.nackWait, rq.nackTimer, rq.lastNack, by decide, by decide, rfl⟩
    · exact ⟨.duplicate, rq.nackTimer, rq.lastNack, by decide, by decide, rfl⟩

theorem receiveUdp_isSome {rq : RdmaReliableRQ} (now ecnbits : Nat) (h : rq.ReceiveAssert p) :
    (rq.receiveUdp now ecnbits p).isSome := by
  unfold receiveUdp
  rw [if_pos h]
  dsimp only
  split <;> split <;> rfl

/-- Whatever is answered is built by `ackPacket`. -/
theorem receiveUdp_ackPacket {rq rq' : RdmaReliableRQ}
    (h : rq.receiveUdp now ecnbits p = some (some a, rq')) :
    ∃ (t : RdmaReliableRQ) (x : CheckSeq), a = t.ackPacket p ecnbits x := by
  unfold receiveUdp at h
  split at h
  next =>
    generalize rq.receiverCheckSeq now p.seqTs.seq p.size = checked at h
    obtain ⟨x, t⟩ := checked
    dsimp only at h
    split at h
    · split at h
      · cases h
        exact ⟨_, _, rfl⟩
      · cases h
        exact ⟨_, _, rfl⟩
    · split at h <;> cases h
  next => cases h

/-- **`ReceiveUdp`** accepts the packet it expects, and answers it if asked to; any other packet
leaves the expected PSN alone and is answered, if at all, with that PSN. -/
theorem receiveUdp_cases {rq rq' : RdmaReliableRQ}
    (h : rq.receiveUdp now ecnbits p = some (reply, rq')) (hb : rq.backto0 = false) :
    (p.seqTs.seq = rq.nextExpectedSeq ∧
      rq' = { rq with
        nextExpectedSeq := u32 (rq.nextExpectedSeq + p.size)
        ipid := rq'.ipid
        log := rq.accept p } ∧
      (reply.isSome = p.bth.ackReq) ∧
      ∀ a ∈ reply, a.seq = u32 (rq.nextExpectedSeq + p.size) ∧ a.protocol = 0xFC) ∨
    (p.seqTs.seq ≠ rq.nextExpectedSeq ∧
      rq' = { rq with nackTimer := rq'.nackTimer, lastNack := rq'.lastNack, ipid := rq'.ipid } ∧
      ∀ a ∈ reply, a.seq = rq.nextExpectedSeq) := by
  unfold receiveUdp at h
  split at h
  next =>
    rcases rq.receiverCheckSeq_cases now p.seqTs.seq p.size hb with
      ⟨heq, hx⟩ | ⟨hne, x, nt, ln, hack, hsucc, hx⟩
    · left
      refine ⟨heq, ?_⟩
      cases hreq : p.bth.ackReq <;> cases hon : rq.onRecv <;> cases hno : p.bth.notif <;>
        simp [hx, answer, hreq, hon, hno] at h <;> obtain ⟨rfl, rfl⟩ := h <;>
        simp [accept, hon, hno, ackPacket]
    · right
      refine ⟨hne, ?_⟩
      simp only [hx, hack, hsucc, decide_false, Bool.or_false, Bool.and_false, Bool.false_and,
        Bool.false_eq_true, ↓reduceIte] at h
      split at h <;> cases h <;> simp [ackPacket]
  next => cases h

end RdmaReliableRQ
end Roce
