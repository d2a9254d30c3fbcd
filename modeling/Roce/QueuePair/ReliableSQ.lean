import Roce.Lib.OrdMap
import Roce.QueuePair.Request
import Mathlib.Order.Nat

/-! # `RdmaReliableSQ`

The send queue of a reliable queue pair (`rdma-reliable-qp.cc`), function by function. A
failed assertion and a loop that runs out of fuel return `none`. The retransmission timer
`m_retr_to` is the truth value of `m_retr_to.IsRunning()`: its 65 µs are not modelled, since
the timer is allowed to fire at any time while it runs.

`TriggerDevTransmit` only schedules an event of the device, so the functions that end with it
return the state they leave. The logging block at the head of `GetNextPacket` is left out. -/

namespace Roce

/-- The calls a send queue has seen and made, a history that no function reads: the requests
stored by `PostSend`, the requests whose `on_send` was called and the packets returned by
`GetNextPacket`, each in order. -/
structure SendLog where
  posted : List SendRequest := []
  called : List SendRequest := []
  sent : List Packet := []
  deriving DecidableEq, Repr

/-- The members of `RdmaReliableSQ`. -/
structure RdmaReliableSQ extends RdmaTxQueuePair where
  dip : Nat := 0
  dport : Nat := 0
  retrTo : Bool := false
  highestAckPsn : Nat := 0
  toSend : OrdMap Nat SendRequest := .empty
  ipid : Nat := 0
  sndNxt : Nat := 0
  sndUna : Nat := 0
  win : Nat := 0
  varWin : Bool := false
  nextOpFirstPsn : Nat := 0
  chunk : Nat := 0
  ackInterval : Nat := 0
  log : SendLog := {}

namespace RdmaReliableSQ

/-- `GetOnTheFly`. -/
def getOnTheFly (s : RdmaReliableSQ) : Nat := sub64 s.sndNxt s.sndUna

/-- `GetWin`. -/
def getWin (s : RdmaReliableSQ) : Nat :=
  if s.win = 0 then 0
  else if s.varWin then
    let w := u64 (s.win * s.rate) / s.maxRate
    if w = 0 then 1 else w
  else s.win

/-- `IsWinBound`. -/
def isWinBound (s : RdmaReliableSQ) : Bool := s.getWin ≠ 0 && s.getOnTheFly ≥ s.getWin

/-- `HasDataToSend`. -/
def hasDataToSend (s : RdmaReliableSQ) : Bool :=
  s.nextOpFirstPsn > s.sndNxt && !s.toSend.isEmpty

/-- `IsReadyToSend`, at the time `now`. -/
def isReadyToSend (s : RdmaReliableSQ) (now : Nat) : Bool :=
  now ≥ s.nextAvail && !s.isWinBound && s.hasDataToSend

/-- `ScheduleRetrTimeout`. -/
def scheduleRetrTimeout (s : RdmaReliableSQ) : RdmaReliableSQ :=
  { s with retrTo := s.highestAckPsn > s.sndUna }

/-- The request as `PostSend` stores it. -/
def stored (s : RdmaReliableSQ) (sr : SendRequest) : SendRequest :=
  { sr with
    payloadSize := if sr.payloadSize = 0 then 1 else sr.payloadSize
    firstPsn := s.nextOpFirstPsn }

/-- `PostSend`. -/
def postSend (s : RdmaReliableSQ) (sr : SendRequest) : RdmaReliableSQ :=
  let sr := s.stored sr
  { s with
    nextOpFirstPsn := u64 (s.nextOpFirstPsn + sr.payloadSize.toNat)
    toSend := s.toSend.insert sr.firstPsn sr
    log.posted := s.log.posted ++ [sr] }

/-- The call of the `on_send` of `next`, if it is set: it may post. -/
def callOnSend (s : RdmaReliableSQ) (cb : Callbacks) (next : SendRequest) : RdmaReliableSQ :=
  if next.onSend then
    (cb next).foldl postSend { s with log.called := s.log.called ++ [next] }
  else s

/-- `NotifyPendingCompEvents`: the loop over the completed requests at the head of the map. -/
def notifyPendingCompEvents (cb : Callbacks) : Nat → RdmaReliableSQ → Option RdmaReliableSQ
  | 0, _ => none
  | fuel + 1, s =>
    match s.toSend.begin? with
    | none => some s
    | some (key, next) =>
      if s.sndUna < next.getEndPsn then some s
      else
        let s := s.callOnSend cb next
        notifyPendingCompEvents cb fuel { s with toSend := s.toSend.erase key }

/-- `Acknowledge`. -/
def acknowledge (cb : Callbacks) (fuel : Nat) (nextPsnExpected : Nat) (s : RdmaReliableSQ) :
    Option RdmaReliableSQ := do
  let s ← if nextPsnExpected > s.sndUna then
      notifyPendingCompEvents cb fuel
        { s with sndUna := nextPsnExpected, sndNxt := max s.sndNxt nextPsnExpected }
    else some s
  return s.scheduleRetrTimeout

/-- The assertion at the head of `Rollback`. -/
def RollbackAssert (s : RdmaReliableSQ) : Prop := s.sndNxt ≥ s.sndUna

instance (s : RdmaReliableSQ) : Decidable s.RollbackAssert := Nat.decLe ..

/-- `Rollback`. -/
def rollback (s : RdmaReliableSQ) : Option RdmaReliableSQ :=
  if s.RollbackAssert then
    some (scheduleRetrTimeout { s with sndNxt := s.sndUna, highestAckPsn := s.sndUna })
  else none

/-- `RecoverNack`. -/
def recoverNack (cb : Callbacks) (fuel : Nat) (nextPsnExpected : Nat) (s : RdmaReliableSQ) :
    Option RdmaReliableSQ := do
  let s ← s.acknowledge cb fuel nextPsnExpected
  s.rollback

/-- `OnRetrTimeout`. The event is no longer running when its handler is entered. -/
def onRetrTimeout (cb : Callbacks) (fuel : Nat) (s : RdmaReliableSQ) : Option RdmaReliableSQ :=
  recoverNack cb fuel s.sndUna { s with retrTo := false }

/-- `CrossBoundary`. -/
def crossBoundary (chunksize oldval newval : Nat) : Bool :=
  oldval / chunksize ≠ newval / chunksize

/-- `ShouldReqAck`, of a packet that starts at `psn`. -/
def shouldReqAck (s : RdmaReliableSQ) (psn payloadSize : Nat) : Bool :=
  (s.chunk ≠ 0 && crossBoundary s.chunk psn (u64 (psn + payloadSize))) ||
    (s.ackInterval ≠ 0 && crossBoundary s.ackInterval psn (u64 (psn + payloadSize)))

/-- The tag of the packet of `size` bytes that starts at `psn` inside `sr`. -/
def bthAt (s : RdmaReliableSQ) (sr : SendRequest) (psn size : Nat) : RdmaBTH :=
  if u64 (psn + size) = sr.getEndPsn then
    { reliable := true, multicast := false, destQpKey := s.dport
      notif := true, ackReq := true, imm := sr.imm }
  else
    { reliable := true, multicast := false, destQpKey := s.dport
      notif := false, ackReq := s.shouldReqAck psn size }

/-- The packet of `size` bytes that starts at `m_snd_nxt` inside `sr`. -/
def packetAt (s : RdmaReliableSQ) (sr : SendRequest) (size : Nat) : Packet where
  size := size
  seqTs := { seq := u32 s.sndNxt, pg := s.pg }
  udp := { sourcePort := s.sport, destinationPort := s.dport }
  ip := {
    source := s.sip, destination := s.dip, protocol := 0x11
    payloadSize := u16 (size + RdmaSeqHeader.headerSize + UdpHeader.headerSize)
    ttl := 64, tos := 0, identification := s.ipid }
  pppProtocol := 0x0021
  bth := s.bthAt sr s.sndNxt size

/-- The end of `GetNextPacket`: the update of the state, with the assertion that an ACK is
requested above the highest PSN it was requested for. -/
def advance (s : RdmaReliableSQ) (size : Nat) (ackReq : Bool) : Option RdmaReliableSQ :=
  let s := { s with sndNxt := u64 (s.sndNxt + size), ipid := u16 (s.ipid + 1) }
  if ackReq then
    if s.sndNxt > s.highestAckPsn then
      let s := { s with highestAckPsn := s.sndNxt }
      some (if s.retrTo then s else s.scheduleRetrTimeout)
    else none
  else some s

/-- `GetNextPacket`. -/
def getNextPacket (s : RdmaReliableSQ) : Option (Packet × RdmaReliableSQ) :=
  if s.toSend.isEmpty then none
  else do
    let (_, sr) ← s.toSend.floor? s.sndNxt
    let alreadySent := sub64 s.sndNxt sr.firstPsn
    if s.sndNxt < sr.firstPsn then none
    else
      let remToSend := sub64 sr.payloadSize.toNat alreadySent
      if remToSend = 0 then none
      else
        let size := min s.mtu remToSend
        let p := s.packetAt sr size
        let s ← s.advance size p.bth.ackReq
        return (p, { s with log.sent := s.log.sent ++ [p] })

/-- `advance` moves the queue on and logs nothing. -/
theorem advance_frame {s s' : RdmaReliableSQ} (h : s.advance size ackReq = some s') :
    s'.pg = s.pg ∧ s'.log = s.log := by
  unfold advance at h
  dsimp only at h
  split at h
  · split at h
    · cases h
      split <;> exact ⟨rfl, rfl⟩
    · cases h
  · cases h
    exact ⟨rfl, rfl⟩

/-- What `GetNextPacket` hands out, and what it leaves: the next packet of the request that
`m_snd_nxt` lies in. -/
theorem getNextPacket_cases {s s' : RdmaReliableSQ} (h : s.getNextPacket = some (p, s')) :
    ∃ k sr size t, s.toSend.floor? s.sndNxt = some (k, sr) ∧ p = s.packetAt sr size ∧
      s.advance size p.bth.ackReq = some t ∧ s' = { t with log.sent := t.log.sent ++ [p] } := by
  unfold getNextPacket at h
  split at h
  · cases h
  obtain ⟨⟨k, sr⟩, hfloor, h⟩ := Option.bind_eq_some_iff.mp h
  dsimp only at h
  split at h
  · cases h
  split at h
  · cases h
  obtain ⟨t, hadvance, h⟩ := Option.bind_eq_some_iff.mp h
  cases h
  exact ⟨k, sr, _, t, hfloor, rfl, hadvance, rfl⟩

end RdmaReliableSQ
end Roce
