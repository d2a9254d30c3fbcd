import Roce.Host.Calls
import Mathlib.Order.Lattice.Nat
import Mathlib.Order.WithBot

/-! # The events of the hosts

`Hosts`, with the events of `TriggerTransmit`, `m_nextSend` and `TransmitComplete` that are pending,
each of which enters `DequeueAndTransmit`. A send queue changes here by its own functions only.
Those of a reliable one are taken apart where they call `on_send`, which is any code; they go on
when it returns. The events of the simulator take place in the order of their times, and
`Simulator::GetMaximumSimulationTime()` is later than all of them. -/

namespace Roce

open Function

def SendQueue.hasDataToSend : SendQueue → Bool
  | reliable sq => sq.hasDataToSend
  | unreliable sq => sq.hasDataToSend

/-- The congestion control changes `m_rate`. -/
def SendQueue.setRate (rate : Nat) : SendQueue → SendQueue
  | reliable sq => .reliable { sq with rate }
  | unreliable sq => .unreliable { sq with rate }

/-! ## The functions of a reliable send queue -/

/-- A function of `RdmaReliableSQ` that is called, or the rest of one. -/
inductive SqCall where
  | acknowledge (nextPsnExpected : Nat)
  | notifyPendingCompEvents (atLeastOneCompletion : Bool)
  /-- The end of the body of the loop in `NotifyPendingCompEvents`, after the callback. -/
  | eraseCompleted (key : Nat)
  | scheduleRetrTimeout
  | recoverNack (nextPsnExpected : Nat)
  /-- The end of `RecoverNack`, after `Acknowledge`. -/
  | rollback
  | triggerDevTransmit
  deriving DecidableEq, Repr

/-- The queue after a part of a function, whether the part calls `TriggerDevTransmit`, and what is
to be done next. -/
structure SqEffect where
  sq : RdmaReliableSQ
  triggers : Bool := false
  calls : List SqCall := []

namespace SqCall

/-- What is done up to the next call. -/
def run (sq : RdmaReliableSQ) : SqCall → Option SqEffect
  | acknowledge nextPsnExpected =>
    if nextPsnExpected > sq.sndUna then
      some {
        sq := { sq with sndUna := nextPsnExpected, sndNxt := max sq.sndNxt nextPsnExpected }
        calls := [notifyPendingCompEvents false, scheduleRetrTimeout] }
    else some { sq, calls := [scheduleRetrTimeout] }
  | notifyPendingCompEvents atLeastOneCompletion =>
    match sq.toSend.begin? with
    | none => some { sq, triggers := atLeastOneCompletion }
    | some (key, next) =>
      if sq.sndUna < next.getEndPsn then some { sq, triggers := atLeastOneCompletion }
      else if next.onSend then
        some {
          sq := { sq with log.called := sq.log.called ++ [next] }
          calls := [eraseCompleted key] }
      else
        some {
          sq := { sq with toSend := sq.toSend.erase key }
          calls := [notifyPendingCompEvents true] }
  | eraseCompleted key =>
    some {
      sq := { sq with toSend := sq.toSend.erase key }
      calls := [notifyPendingCompEvents true] }
  | scheduleRetrTimeout => some { sq := sq.scheduleRetrTimeout }
  | recoverNack nextPsnExpected => some { sq, calls := [acknowledge nextPsnExpected, rollback] }
  | rollback => sq.rollback.map fun sq => { sq, triggers := true }
  | triggerDevTransmit => some { sq, triggers := true }

/-- The loop of `NotifyPendingCompEvents` ends. -/
theorem run_last {sq : RdmaReliableSQ}
    (h : ∀ x ∈ sq.toSend.begin?, sq.sndUna < x.2.getEndPsn) (b : Bool) :
    run sq (notifyPendingCompEvents b) = some { sq, triggers := b } := by
  rw [run]
  split
  next => rfl
  next hbegin => exact if_pos (h _ hbegin)

/-- The loop of `NotifyPendingCompEvents` goes on. -/
theorem run_next {sq : RdmaReliableSQ} (hbegin : sq.toSend.begin? = some (key, next))
    (h : ¬sq.sndUna < next.getEndPsn) (b : Bool) :
    run sq (notifyPendingCompEvents b) = some (
      if next.onSend then {
        sq := { sq with log.called := sq.log.called ++ [next] }
        calls := [eraseCompleted key] }
      else {
        sq := { sq with toSend := sq.toSend.erase key }
        calls := [notifyPendingCompEvents true] }) := by
  rw [run]
  split
  next hnone =>
    rw [hbegin] at hnone
    cases hnone
  next key' next' hbegin' =>
    rw [hbegin] at hbegin'
    cases hbegin'
    rw [if_neg h, apply_ite some]

/-- `ReceiveAck`, on a receive queue with the given `m_backto0`. -/
def receiveAck (backto0 : Bool) (tx : RdmaReliableSQ) (a : AckPacket) : List SqCall :=
  [acknowledge (if !backto0 then a.seq else a.seq / u32 tx.chunk * u32 tx.chunk)] ++
    (if a.protocol = 0xFD then [recoverNack a.seq] else []) ++ [triggerDevTransmit]

end SqCall

/-- A call on a send queue of a host. -/
structure QpCall where
  host : Nat
  idx : Nat
  call : SqCall
  deriving DecidableEq, Repr

/-- The calls of one send queue. -/
def QpCall.on (host idx : Nat) (calls : List SqCall) : List QpCall := calls.map (⟨host, idx, ·⟩)

/-! ## What a send queue may do -/

namespace SendQueue

/-- The priority and the time when the queue is available are the same. -/
structure Keeps (qp qp' : SendQueue) : Prop where
  pg : qp'.getPg = qp.getPg
  nextAvail : qp'.base.nextAvail = qp.base.nextAvail

theorem Keeps.setRate (qp : SendQueue) (rate : Nat) : qp.Keeps (qp.setRate rate) := by
  cases qp <;> exact ⟨rfl, rfl⟩

theorem hasDataToSend_setRate (qp : SendQueue) (rate : Nat) :
    (qp.setRate rate).hasDataToSend = qp.hasDataToSend := by
  cases qp <;> rfl

end SendQueue

/-- No data appears where the requests end at the same PSN and no fewer bytes are sent. -/
theorem RdmaReliableSQ.hasDataToSend_mono {sq sq' : RdmaReliableSQ}
    (hpsn : sq'.nextOpFirstPsn = sq.nextOpFirstPsn) (hnxt : sq.sndNxt ≤ sq'.sndNxt)
    (hempty : sq.toSend.isEmpty = true → sq'.toSend.isEmpty = true)
    (h : sq'.hasDataToSend = true) : sq.hasDataToSend = true := by
  simp only [hasDataToSend, hpsn, Bool.and_eq_true, decide_eq_true_eq] at h ⊢
  refine ⟨Nat.lt_of_le_of_lt hnxt h.1, ?_⟩
  cases hsend : sq.toSend.isEmpty with
  | false => rfl
  | true =>
    rw [hempty hsend] at h
    exact h.2

/-- **No data without a wake-up**: a part of a function of a reliable queue at whose end there is
new data to send calls `TriggerDevTransmit`. -/
theorem SqCall.run_spec {sq : RdmaReliableSQ} {c : SqCall} (h : c.run sq = some e) :
    SendQueue.Keeps (.reliable sq) (.reliable e.sq) ∧
      (e.triggers = true ∨ (e.sq.hasDataToSend = true → sq.hasDataToSend = true)) := by
  have hsame : SendQueue.Keeps (.reliable sq) (.reliable sq) := ⟨rfl, rfl⟩
  have herase : ∀ key, (RdmaReliableSQ.hasDataToSend
    { sq with toSend := sq.toSend.erase key } = true →
      sq.hasDataToSend = true) := fun key =>
    RdmaReliableSQ.hasDataToSend_mono rfl (le_refl _) (OrdMap.isEmpty_erase · key)
  cases c with
  | acknowledge n =>
    dsimp only [run] at h
    split at h
    · cases h
      exact ⟨⟨rfl, rfl⟩, .inr (RdmaReliableSQ.hasDataToSend_mono rfl (Nat.le_max_left ..) id)⟩
    · cases h
      exact ⟨hsame, .inr id⟩
  | notifyPendingCompEvents b =>
    dsimp only [run] at h
    split at h
    · cases h
      exact ⟨hsame, .inr id⟩
    · split at h
      · cases h
        exact ⟨hsame, .inr id⟩
      · split at h
        · cases h
          exact ⟨⟨rfl, rfl⟩, .inr id⟩
        · cases h
          exact ⟨⟨rfl, rfl⟩, .inr (herase _)⟩
  | eraseCompleted key =>
    cases h
    exact ⟨⟨rfl, rfl⟩, .inr (herase key)⟩
  | scheduleRetrTimeout =>
    cases h
    exact ⟨⟨rfl, rfl⟩, .inr id⟩
  | recoverNack n =>
    cases h
    exact ⟨hsame, .inr id⟩
  | rollback =>
    obtain ⟨sq', hback, rfl⟩ := Option.map_eq_some_iff.mp h
    unfold RdmaReliableSQ.rollback at hback
    split at hback
    · cases hback
      exact ⟨⟨rfl, rfl⟩, .inl rfl⟩
    · cases hback
  | triggerDevTransmit =>
    cases h
    exact ⟨hsame, .inl rfl⟩

/-! ## The network cards -/

/-- The times of the pending events of a network card. -/
structure NicEvents where
  triggerTransmit : List Nat := []
  /-- `m_nextSend`, until it expires. -/
  nextSend : Option Nat := none
  transmitComplete : List Nat := []
  deriving DecidableEq, Repr

namespace NicEvents

variable (events : NicEvents)

/-- An event is pending that calls `DequeueAndTransmit`. -/
def Pending (time : Nat) : Prop :=
  time ∈ events.triggerTransmit ∨ events.nextSend = some time ∨ time ∈ events.transmitComplete

/-- `RdmaTxQueuePair::TriggerDevTransmit`. -/
def triggerDevTransmit (now nextAvail : Nat) : NicEvents :=
  { events with
    triggerTransmit := events.triggerTransmit ++ [if nextAvail ≤ now then now else nextAvail] }

/-- `QbbNetDevice::UpdateNextAvail`. An event that is cancelled is pending no longer. -/
def updateNextAvail (now t : Nat) : NicEvents :=
  if events.nextSend.all (t < ·) then
    { events with nextSend := some (if t < now then now else t) }
  else events

end NicEvents

namespace Nic

variable (nic : Nic)

/-- The time when the first queue pair that has data is available, if there is one. -/
def nextAvailTime : WithTop Nat :=
  nic.qpGrp.foldl (fun t qp =>
    if qp.hasDataToSend && !nic.isPaused qp.getPg then min qp.base.nextAvail t else t) ⊤

/-- The end of `DequeueAndTransmit` when there is nothing to send. -/
def scheduleNextSend (now : Nat) (events : NicEvents) : NicEvents :=
  match max nic.nextAvailTime now with
  | none => events
  | some t => events.updateNextAvail now t

theorem transmitting_pktSent (nic : Nic) (lastQp : Option Nat) (nextAvail : Nat) :
    (nic.pktSent lastQp nextAvail).transmitting = nic.transmitting := by
  cases lastQp <;> rfl

theorem transmitComplete_scheduleNextSend (now : Nat) (events : NicEvents) :
    (nic.scheduleNextSend now events).transmitComplete = events.transmitComplete := by
  unfold scheduleNextSend NicEvents.updateNextAvail
  split
  · rfl
  · split <;> rfl

end Nic

/-! ## The machine -/

/-- A frame of the call stack: the handler of an event or a callback, which goes on with these calls
when it returns, or a frame of a network card. -/
inductive TimedFrame where
  | code (calls : List QpCall)
  | nic (frame : HostFrame)

/-- Whether code of a handler or of a callback is running. -/
def CodeRuns (calls : List QpCall) : Prop :=
  ∀ c ∈ calls.head?, ∃ key, c.call = .eraseCompleted key

theorem codeRuns_nil : CodeRuns [] := fun _ hc => absurd hc (Option.not_mem_none _)

/-- `Hosts` and the events. -/
structure TimedHosts where
  ackQIdx : Priority
  now : Nat := 0
  nics : Nat → Nic := fun _ => {}
  events : Nat → NicEvents := fun _ => {}
  frames : List TimedFrame := []

/-- What the simulation does next. -/
inductive TimedCall where
  | event (time : Nat)
  | triggerTransmit (host time : Nat)
  | nextSend (host time : Nat)
  | transmitComplete (host time : Nat)
  | pause (host : Nat) (qIndex : Priority) (time : Nat)
  | resume (host : Nat) (qIndex : Priority) (time : Nat)
  | registerQp (host : Nat) (qp : SendQueue)
  | postSend (host idx : Nat) (sr : SendRequest)
  | postSendUnreliable (host idx : Nat) (sr : SendRequest) (flags : SendFlags)
  | enqueueHighPrioQ (host idx : Nat) (a : AckPacket)
  | receiveAck (host idx : Nat) (a : AckPacket)
  | onRetrTimeout (host idx : Nat)
  | setRate (host idx rate : Nat)
  | sqCall
  | leave
  | dequeueAndTransmit (host : Nat)
  | afterOnSend
  | transmitStart (txTime sendingTime : Nat)

namespace TimedHosts

/-- A network card, its events and the call stack change. -/
def act (s : TimedHosts) (host : Nat) (nic : Nic) (events : NicEvents) (frames : List TimedFrame) :
    TimedHosts :=
  { s with nics := update s.nics host nic, events := update s.events host events, frames }

/-- A send queue changes, and may call `TriggerDevTransmit`. -/
def changeQp (s : TimedHosts) (host idx : Nat) (qp : SendQueue) (triggers : Bool)
    (frames : List TimedFrame) : TimedHosts :=
  s.act host ((s.nics host).setQp idx qp)
    (if triggers then (s.events host).triggerDevTransmit s.now qp.base.nextAvail else s.events host)
    frames

/-- The next event of the simulator may be one at this time. -/
def Due (s : TimedHosts) (time : Nat) : Prop :=
  s.now ≤ time ∧ ∀ host t, (s.events host).Pending t → time ≤ t

inductive Step : TimedHosts → TimedCall → TimedHosts → Prop
  | event {s : TimedHosts} : s.frames = [] → s.Due time →
    Step s (.event time) { s with now := time, frames := [.code []] }
  | triggerTransmit {s : TimedHosts} : s.frames = [] → s.Due time →
    time ∈ (s.events host).triggerTransmit →
    Step s (.triggerTransmit host time)
      ({ s with now := time }.act host (s.nics host)
        { s.events host with triggerTransmit := (s.events host).triggerTransmit.erase time }
        [.nic (.dequeueAndTransmit host)])
  | nextSend {s : TimedHosts} : s.frames = [] → s.Due time → (s.events host).nextSend = some time →
    Step s (.nextSend host time)
      ({ s with now := time }.act host (s.nics host) { s.events host with nextSend := none }
        [.nic (.dequeueAndTransmit host)])
  | transmitComplete {s : TimedHosts} : s.frames = [] → s.Due time →
    time ∈ (s.events host).transmitComplete → (s.nics host).currentPkt.isSome →
    Step s (.transmitComplete host time)
      ({ s with now := time }.act host (s.nics host).transmitComplete
        { s.events host with transmitComplete := (s.events host).transmitComplete.erase time }
        [.nic (.dequeueAndTransmit host)])
  | pause {s : TimedHosts} : s.frames = [] → s.Due time → (s.nics host).linkUp →
    (s.nics host).qbbEnabled →
    Step s (.pause host qIndex time)
      ({ s with now := time }.act host ((s.nics host).setPaused qIndex true) (s.events host)
        s.frames)
  | resume {s : TimedHosts} : s.frames = [] → s.Due time → (s.nics host).linkUp →
    (s.nics host).qbbEnabled → (s.nics host).paused qIndex →
    Step s (.resume host qIndex time)
      ({ s with now := time }.act host ((s.nics host).setPaused qIndex false) (s.events host)
        [.nic (.dequeueAndTransmit host)])
  | registerQp {s : TimedHosts} {qp : SendQueue} : s.frames = .code calls :: rest →
    CodeRuns calls → qp.getPg < 8 →
    Step s (.registerQp host qp)
      (s.act host { s.nics host with qpGrp := (s.nics host).qpGrp ++ [qp] } (s.events host)
        (.nic (.dequeueAndTransmit host) :: .code calls :: rest))
  | postSend {s : TimedHosts} {sq : RdmaReliableSQ} :
    s.frames = .code calls :: rest → CodeRuns calls →
    (s.nics host).qpGrp[idx]? = some (.reliable sq) →
    Step s (.postSend host idx sr)
      (s.changeQp host idx (.reliable (sq.postSend sr)) true s.frames)
  | postSendUnreliable {s : TimedHosts} {sq : RdmaUnreliableSQ} :
    s.frames = .code calls :: rest → CodeRuns calls →
    (s.nics host).qpGrp[idx]? = some (.unreliable sq) →
    Step s (.postSendUnreliable host idx sr flags)
      (s.changeQp host idx (.unreliable (sq.postSend sr flags)) true s.frames)
  /-- `RdmaReliableRQ::ReceiveUdp`, of a receive queue whose `m_tx` is this send queue. -/
  | enqueueHighPrioQ {s : TimedHosts} {rq rq' : RdmaReliableRQ} : s.frames = .code calls :: rest →
    CodeRuns calls → (s.nics host).qpGrp[idx]? = some (.reliable tx) →
    rq.receiveUdp s.now ecnbits p = some (some a, rq') →
    Step s (.enqueueHighPrioQ host idx a)
      (s.act host { s.nics host with ackQ := (s.nics host).ackQ ++ [a] }
        ((s.events host).triggerDevTransmit s.now tx.nextAvail) s.frames)
  | receiveAck {s : TimedHosts} : s.frames = .code calls :: rest → CodeRuns calls →
    (s.nics host).qpGrp[idx]? = some (.reliable tx) →
    Step s (.receiveAck host idx a)
      { s with frames := .code (QpCall.on host idx (SqCall.receiveAck backto0 tx a) ++
        calls) :: rest }
  | onRetrTimeout {s : TimedHosts} {sq : RdmaReliableSQ} :
    s.frames = .code calls :: rest → CodeRuns calls →
    (s.nics host).qpGrp[idx]? = some (.reliable sq) → sq.retrTo = true →
    Step s (.onRetrTimeout host idx)
      (s.changeQp host idx (.reliable { sq with retrTo := false }) false
        (.code (QpCall.on host idx [.recoverNack sq.sndUna] ++ calls) :: rest))
  /-- The congestion control sets the rate of a queue pair, also inside of `ReceiveAck`. -/
  | setRate {s : TimedHosts} {qp : SendQueue} : s.frames = .code calls :: rest →
    (s.nics host).qpGrp[idx]? = some qp →
    Step s (.setRate host idx rate) (s.changeQp host idx (.setRate rate qp) false s.frames)
  | sqCall {s : TimedHosts} {sq : RdmaReliableSQ} {c : SqCall} :
    s.frames = .code (⟨host, idx, c⟩ :: calls) :: rest →
    (s.nics host).qpGrp[idx]? = some (.reliable sq) → c.run sq = some e →
    Step s .sqCall
      (s.changeQp host idx (.reliable e.sq) e.triggers
        (.code (QpCall.on host idx e.calls ++ calls) :: rest))
  | leave {s : TimedHosts} : s.frames = .code [] :: rest → Step s .leave { s with frames := rest }
  | busy {s : TimedHosts} : s.frames = .nic (.dequeueAndTransmit host) :: rest →
    ¬(s.nics host).Ready →
    Step s (.dequeueAndTransmit host) { s with frames := rest }
  | nothing {s : TimedHosts} : s.frames = .nic (.dequeueAndTransmit host) :: rest →
    (s.nics host).Ready → (s.nics host).getNextQindex s.ackQIdx s.now = none →
    Step s (.dequeueAndTransmit host)
      (s.act host (s.nics host) ((s.nics host).scheduleNextSend s.now (s.events host)) rest)
  | highPrio {s : TimedHosts} : s.frames = .nic (.dequeueAndTransmit host) :: rest →
    (s.nics host).Ready → (s.nics host).getNextQindex s.ackQIdx s.now = some .highPrio →
    (s.nics host).ackQ = a :: ackQ →
    Step s (.dequeueAndTransmit host)
      (s.act host { s.nics host with ackQ := ackQ } (s.events host)
        (.nic (.transmitStart host (.ack a) none) :: rest))
  | reliable {s : TimedHosts} {sq sq' : RdmaReliableSQ} :
    s.frames = .nic (.dequeueAndTransmit host) :: rest →
    (s.nics host).Ready → (s.nics host).getNextQindex s.ackQIdx s.now = some (.qp idx) →
    (s.nics host).qpGrp[idx]? = some (.reliable sq) → sq.getNextPacket = some (p, sq') →
    Step s (.dequeueAndTransmit host)
      (s.act host { (s.nics host).setQp idx (.reliable sq') with rrlast := idx } (s.events host)
        (.nic (.transmitStart host (.data p) (some idx)) :: rest))
  | unreliable {s : TimedHosts} {sq sq' : RdmaUnreliableSQ} :
    s.frames = .nic (.dequeueAndTransmit host) :: rest →
    (s.nics host).Ready → (s.nics host).getNextQindex s.ackQIdx s.now = some (.qp idx) →
    (s.nics host).qpGrp[idx]? = some (.unreliable sq) → sq.completing = none →
    sq.getNextPacket (fun _ => []) = some (p, sq') →
    Step s (.dequeueAndTransmit host)
      (s.act host { (s.nics host).setQp idx (.unreliable sq') with rrlast := idx } (s.events host)
        (.nic (.transmitStart host (.data p) (some idx)) :: rest))
  | onSend {s : TimedHosts} {sq sq' : RdmaUnreliableSQ} :
    s.frames = .nic (.dequeueAndTransmit host) :: rest →
    (s.nics host).Ready → (s.nics host).getNextQindex s.ackQIdx s.now = some (.qp idx) →
    (s.nics host).qpGrp[idx]? = some (.unreliable sq) → sq.completing = some (sr, imm, sq') →
    Step s (.dequeueAndTransmit host)
      (s.act host ((s.nics host).setQp idx (.unreliable sq')) (s.events host)
        (.code [] :: .nic (.getNextPacket host idx sr imm) :: rest))
  | afterOnSend {s : TimedHosts} {sq sq' : RdmaUnreliableSQ} :
    s.frames = .nic (.getNextPacket host idx sr imm) :: rest →
    (s.nics host).qpGrp[idx]? = some (.unreliable sq) → sq.completed sr imm = (p, sq') →
    Step s .afterOnSend
      (s.act host { (s.nics host).setQp idx (.unreliable sq') with rrlast := idx } (s.events host)
        (.nic (.transmitStart host (.data p) (some idx)) :: rest))
  | transmitStart {s : TimedHosts} : s.frames = .nic (.transmitStart host p lastQp) :: rest →
    Step s (.transmitStart txTime sendingTime)
      (s.act host (((s.nics host).transmitStart p).pktSent lastQp (s.now + sendingTime))
        { s.events host with
          transmitComplete := (s.events host).transmitComplete ++ [s.now + txTime] } rest)

/-- Hosts without queue pairs and without events. -/
structure Idle (s : TimedHosts) : Prop where
  frames : s.frames = []
  nics : ∀ host, s.nics host =
    { linkUp := (s.nics host).linkUp, qbbEnabled := (s.nics host).qbbEnabled }
  events : ∀ host, s.events host = {}

def machine : Machine TimedHosts TimedCall := ⟨Idle, Step⟩

/-! ## The hosts without their events -/

/-- The frame without the calls that the code goes on with. -/
def hostFrame : TimedFrame → HostFrame
  | .code _ => .code
  | .nic frame => frame

def hosts (s : TimedHosts) : Hosts where
  ackQIdx := s.ackQIdx
  now := s.now
  nics := s.nics
  frames := s.frames.map hostFrame

variable {s s' : TimedHosts}

theorem hosts_act (s : TimedHosts) (host : Nat) (nic : Nic) (events : NicEvents)
    (frames : List TimedFrame) :
    (s.act host nic events frames).hosts = (s.hosts.call (frames.map hostFrame)).setNic host nic :=
  rfl

theorem hosts_act_self (s : TimedHosts) (host : Nat) (events : NicEvents)
    (frames : List TimedFrame) :
    (s.act host (s.nics host) events frames).hosts = s.hosts.call (frames.map hostFrame) := by
  rw [hosts_act, Hosts.setNic]
  exact congrArg (fun nics => { s.hosts.call (frames.map hostFrame) with nics })
    (update_eq_self host s.nics)

/-- A send queue changes in a frame of code. -/
theorem hosts_changeQp {frames : List TimedFrame} (hf : s.frames = .code calls :: rest)
    (hqp : (s.nics host).qpGrp[idx]? = some qp) (hpg : qp'.getPg = qp.getPg)
    (hf' : frames.map hostFrame = s.frames.map hostFrame) :
    Hosts.Step s.hosts (.changeQp host idx qp')
      (s.changeQp host idx qp' triggers frames).hosts := by
  rw [changeQp, hosts_act, hf']
  have hf : s.hosts.frames = .code :: rest.map hostFrame := congrArg (List.map hostFrame) hf
  refine Hosts.Step.changeQp hf ?_
  show ((s.nics host).qpGrp[idx]?).any _ = true
  rw [hqp, Option.any_some, hpg]
  exact decide_eq_true rfl

/-- What is transmitted will be completed. -/
def Matched (s : TimedHosts) : Prop :=
  ∀ host, (s.events host).transmitComplete.length = (s.nics host).transmitting.length

theorem Matched.act {events : NicEvents} {frames : List TimedFrame} (h : Matched s)
    (hnic : events.transmitComplete.length = nic.transmitting.length) :
    Matched (s.act host nic events frames) := by
  intro e
  by_cases he : e = host
  · subst he
    simpa [TimedHosts.act] using hnic
  · simpa [TimedHosts.act, update_of_ne he] using h e

theorem Matched.changeQp (h : Matched s) (host idx : Nat) (qp : SendQueue) (triggers : Bool)
    (frames : List TimedFrame) : Matched (s.changeQp host idx qp triggers frames) := by
  refine Matched.act h ?_
  split
  · exact h host
  · exact h host

theorem Matched.step (h : Matched s) (hs : Step s c s') : Matched s' := by
  cases hs with
  | event | receiveAck | leave | busy => exact h
  | postSend | postSendUnreliable | onRetrTimeout | setRate | sqCall => exact h.changeQp _ _ _ _ _
  | @transmitComplete time host _ _ _ hc =>
    refine Matched.act h ?_
    rw [List.length_erase_of_mem hc, h host]
    exact (List.length_tail).symm
  | transmitStart =>
    refine Matched.act h ?_
    rw [List.length_append, h _, Nic.transmitting_pktSent, Nic.transmitStart, List.length_append]
    rfl
  | nothing =>
    refine Matched.act h ?_
    rw [Nic.transmitComplete_scheduleNextSend]
    exact h _
  | triggerTransmit | nextSend | pause | resume | registerQp | enqueueHighPrioQ | highPrio
  | reliable | unreliable | onSend | afterOnSend => exact Matched.act h (h _)

/-- A step of the hosts is one without their events, or it changes only calls and events. -/
theorem Step.hosts (hm : Matched s) (hs : Step s c s') : s'.hosts = s.hosts ∨ ∃ c',
    Hosts.Step s.hosts c' s'.hosts := by
  have hcode : ∀ {calls calls' rest}, s.frames = .code calls :: rest →
      (TimedFrame.code calls' :: rest).map hostFrame = s.frames.map hostFrame := fun hf => by
    rw [hf]
    rfl
  have hframes : ∀ {frames}, s.frames = frames → s.hosts.frames = frames.map hostFrame :=
    congrArg (List.map hostFrame)
  cases hs with
  | event hf hdue => exact .inr ⟨_, .event (hframes hf) hdue.1⟩
  | @triggerTransmit time host _ hf hdue | @nextSend time host _ hf hdue =>
    refine .inr ⟨.trigger host time, ?_⟩
    rw [hosts_act_self { s with now := time }]
    exact .trigger (hframes hf) hdue.1
  | @transmitComplete time host _ hf hdue hc hbusy =>
    refine .inr ⟨_, .transmitComplete (hframes hf) hdue.1 (fun hnil => ?_) hbusy⟩
    have hlen := hm host
    rw [show (s.nics host).transmitting = [] from hnil, List.length_nil,
      List.length_eq_zero_iff] at hlen
    rw [hlen] at hc
    exact absurd hc List.not_mem_nil
  | pause hf hdue hlink hqbb => exact .inr ⟨_, .pause (hframes hf) hdue.1 hlink hqbb⟩
  | resume hf hdue hlink hqbb hpaused =>
    exact .inr ⟨_, .resume (hframes hf) hdue.1 hlink hqbb hpaused⟩
  | @registerQp calls rest host _ qp hf _ hpg =>
    exact .inr ⟨.registerQp host qp, .registerQp (hframes hf) hpg⟩
  | postSend hf _ hqp => exact .inr ⟨_, hosts_changeQp hf hqp rfl rfl⟩
  | postSendUnreliable hf _ hqp => exact .inr ⟨_, hosts_changeQp hf hqp rfl rfl⟩
  | enqueueHighPrioQ hf _ _ hrq => exact .inr ⟨_, .enqueueHighPrioQ (hframes hf) hrq⟩
  | receiveAck hf =>
    exact .inl (congrArg (fun frames => { s.hosts with frames }) (hcode hf))
  | onRetrTimeout hf _ hqp => exact .inr ⟨_, hosts_changeQp hf hqp rfl (hcode hf)⟩
  | setRate hf hqp => exact .inr ⟨_, hosts_changeQp hf hqp (SendQueue.Keeps.setRate _ _).pg rfl⟩
  | sqCall hf hqp hrun =>
    exact .inr ⟨_, hosts_changeQp hf hqp (SqCall.run_spec hrun).1.pg (hcode hf)⟩
  | leave hf => exact .inr ⟨_, .leave (hframes hf)⟩
  | busy hf hready => exact .inr ⟨_, .busy (hframes hf) hready⟩
  | nothing hf hready hnext =>
    have hstep := Hosts.Step.nothing (hframes hf) hready hnext
    rw [← hosts_act_self] at hstep
    exact .inr ⟨_, hstep⟩
  | highPrio hf hready hnext hack => exact .inr ⟨_, .highPrio (hframes hf) hready hnext hack⟩
  | reliable hf hready hnext hqp hp => exact .inr ⟨_, .reliable (hframes hf) hready hnext hqp hp⟩
  | unreliable hf hready hnext hqp hc hp =>
    exact .inr ⟨_, .unreliable (hframes hf) hready hnext hqp hc hp⟩
  | onSend hf hready hnext hqp hc => exact .inr ⟨_, .onSend (hframes hf) hready hnext hqp hc⟩
  | afterOnSend hf hqp hp => exact .inr ⟨_, .afterOnSend (hframes hf) hqp hp⟩
  | transmitStart hf => exact .inr ⟨_, .transmitStart (hframes hf)⟩

/-- What holds of all hosts holds of those with events. -/
theorem hosts_reachable (h : machine.Reachable s) : Hosts.machine.Reachable s.hosts := by
  have hinv : Matched s ∧ Hosts.machine.Reachable s.hosts := by
    refine h.invariant (I := fun s => Matched s ∧ Hosts.machine.Reachable s.hosts) (fun h0 => ?_)
      fun _ ih hs => ⟨ih.1.step hs, ?_⟩
    · refine ⟨fun host => ?_, .init ⟨congrArg (List.map hostFrame) h0.frames, h0.nics⟩⟩
      rw [h0.events host, h0.nics host]
      rfl
    · rcases hs.hosts ih.1 with heq | ⟨c', hs'⟩
      · exact heq ▸ ih.2
      · exact ih.2.step hs'
  exact hinv.2

/-! ## The functions of a reliable send queue as a whole -/

/-- The state of a send queue and of the call stack. -/
structure At (s : TimedHosts) (host idx : Nat) (sq : RdmaReliableSQ) (frames : List TimedFrame) :
    Prop where
  frames : s.frames = frames
  qp : (s.nics host).qpGrp[idx]? = some (.reliable sq)

/-- A run leads to this state. -/
def Leads (s : TimedHosts) (host idx : Nat) (sq : RdmaReliableSQ)
    (frames : List TimedFrame) : Prop :=
  ∃ es s', machine.Run s es s' ∧ At s' host idx sq frames

section

variable {sq sq' : RdmaReliableSQ} {frames frames' rest : List TimedFrame} {calls : List QpCall}

theorem At.leads (h : At s host idx sq frames) : Leads s host idx sq frames := ⟨[], s, .nil, h⟩

theorem Leads.trans (h : Leads s host idx sq frames)
    (h' : ∀ {s'}, At s' host idx sq frames → Leads s' host idx sq' frames') :
    Leads s host idx sq' frames' := by
  obtain ⟨es, t, hrun, hat⟩ := h
  obtain ⟨es', u, hrun', hat'⟩ := h' hat
  exact ⟨es ++ es', u, hrun.append hrun', hat'⟩

theorem getElem?_changeQp (hqp : (s.nics host).qpGrp[idx]? = some qp) (qp' : SendQueue)
    (triggers : Bool) (frames : List TimedFrame) :
    ((s.changeQp host idx qp' triggers frames).nics host).qpGrp[idx]? = some qp' := by
  obtain ⟨hlt, -⟩ := List.getElem?_eq_some_iff.mp hqp
  rw [changeQp, act]
  dsimp only
  rw [update_self, Nic.setQp]
  exact List.getElem?_set_self hlt

theorem At.sqCall (h : At s host idx sq (.code (⟨host, idx, c⟩ :: calls) :: rest))
    (hrun : c.run sq = some e) :
    Leads s host idx e.sq (.code (QpCall.on host idx e.calls ++ calls) :: rest) :=
  ⟨_, _, .single (.sqCall h.frames h.qp hrun), rfl, getElem?_changeQp h.qp ..⟩

/-- A callback posts requests. -/
theorem At.posts (h : At s host idx sq (.code calls :: rest)) (hcode : CodeRuns calls)
    (srs : List SendRequest) :
    Leads s host idx (srs.foldl RdmaReliableSQ.postSend sq) (.code calls :: rest) := by
  induction srs generalizing s sq with
  | nil => exact h.leads
  | cons sr srs ih =>
    have hpost : Leads s host idx (sq.postSend sr) (.code calls :: rest) :=
      ⟨_, _, .single (.postSend h.frames hcode h.qp), h.frames, getElem?_changeQp h.qp ..⟩
    exact hpost.trans fun hat => ih hat

/-- `NotifyPendingCompEvents`, by the passes of its loop. -/
theorem At.notifyPendingCompEvents {b : Bool}
    (h : At s host idx sq (.code (⟨host, idx, .notifyPendingCompEvents b⟩ :: calls) :: rest))
    (hsq : sq.notifyPendingCompEvents cb fuel = some sq') :
    Leads s host idx sq' (.code calls :: rest) := by
  induction fuel generalizing s sq b with
  | zero => cases hsq
  | succ fuel ih =>
    rw [RdmaReliableSQ.notifyPendingCompEvents] at hsq
    cases hbegin : sq.toSend.begin? with
    | none =>
      rw [hbegin] at hsq
      cases hsq
      refine h.sqCall (SqCall.run_last (fun x hx => ?_) b)
      rw [hbegin] at hx
      cases hx
    | some head =>
      obtain ⟨key, next⟩ := head
      rw [hbegin] at hsq
      dsimp only at hsq
      split at hsq
      next hlt =>
        cases hsq
        refine h.sqCall (SqCall.run_last (fun x hx => ?_) b)
        rw [hbegin] at hx
        cases hx
        exact hlt
      next hle =>
        have hrun := SqCall.run_next hbegin hle b
        rw [RdmaReliableSQ.callOnSend] at hsq
        split at hsq
        next hon =>
          rw [if_pos hon] at hrun
          refine (h.sqCall hrun).trans fun hat => (hat.posts ?_ (cb next)).trans fun hat => ?_
          · intro c hc
            cases hc
            exact ⟨key, rfl⟩
          · exact (hat.sqCall rfl).trans fun hat => ih hat hsq
        next hon =>
          rw [if_neg hon] at hrun
          exact (h.sqCall hrun).trans fun hat => ih hat hsq

theorem At.acknowledge
    (h : At s host idx sq (.code (⟨host, idx, .acknowledge n⟩ :: calls) :: rest))
    (hsq : sq.acknowledge cb fuel n = some sq') : Leads s host idx sq' (.code calls :: rest) := by
  rw [RdmaReliableSQ.acknowledge] at hsq
  split at hsq
  next hlt =>
    obtain ⟨sq₁, hnotify, hsq⟩ := Option.bind_eq_some_iff.mp hsq
    cases hsq
    refine (h.sqCall (if_pos hlt)).trans fun hat => (hat.notifyPendingCompEvents hnotify).trans ?_
    exact fun hat => hat.sqCall rfl
  next hlt =>
    cases hsq
    exact (h.sqCall (if_neg hlt)).trans fun hat => hat.sqCall rfl

theorem At.recoverNack
    (h : At s host idx sq (.code (⟨host, idx, .recoverNack n⟩ :: calls) :: rest))
    (hsq : sq.recoverNack cb fuel n = some sq') : Leads s host idx sq' (.code calls :: rest) := by
  obtain ⟨sq₁, hack, hback⟩ := Option.bind_eq_some_iff.mp hsq
  refine (h.sqCall rfl).trans fun hat => (hat.acknowledge hack).trans fun hat => ?_
  exact hat.sqCall (Option.map_eq_some_iff.mpr ⟨sq', hback, rfl⟩)

/-- **`ReceiveAck`** as a whole, where the callbacks post requests to the same queue. -/
theorem At.receiveAck (h : At s host idx sq (.code calls :: rest)) (hcode : CodeRuns calls)
    (hsq : RdmaReliableRQ.receiveAck backto0 cb fuel a sq = some sq') :
    Leads s host idx sq' (.code calls :: rest) := by
  have hcall : Leads s host idx sq
      (.code (QpCall.on host idx (SqCall.receiveAck backto0 sq a) ++ calls) :: rest) :=
    ⟨_, _, .single (.receiveAck h.frames hcode h.qp), rfl, h.qp⟩
  have hsq : (sq.acknowledge cb fuel
      (if !backto0 then a.seq else a.seq / u32 sq.chunk * u32 sq.chunk)
      >>= fun tx => if a.protocol = 0xFD then tx.recoverNack cb fuel a.seq else some tx) =
      some sq' := by
    rw [RdmaReliableRQ.receiveAck] at hsq
    cases backto0 <;> exact hsq
  obtain ⟨sq₁, hack, hsq⟩ := Option.bind_eq_some_iff.mp hsq
  refine hcall.trans fun hat => ?_
  unfold SqCall.receiveAck at hat
  split at hsq
  next hnack =>
    rw [if_pos hnack] at hat
    refine (hat.acknowledge hack).trans fun hat => (hat.recoverNack hsq).trans fun hat => ?_
    exact hat.sqCall rfl
  next hnack =>
    rw [if_neg hnack] at hat
    cases hsq
    exact (hat.acknowledge hack).trans fun hat => hat.sqCall rfl

/-- **`OnRetrTimeout`** as a whole. -/
theorem At.onRetrTimeout (h : At s host idx sq (.code calls :: rest)) (hcode : CodeRuns calls)
    (hto : sq.retrTo = true) (hsq : sq.onRetrTimeout cb fuel = some sq') :
    Leads s host idx sq' (.code calls :: rest) := by
  have hcall : Leads s host idx { sq with retrTo := false }
      (.code (QpCall.on host idx [.recoverNack sq.sndUna] ++ calls) :: rest) :=
    ⟨_, _, .single (.onRetrTimeout h.frames hcode h.qp hto), rfl, getElem?_changeQp h.qp ..⟩
  exact hcall.trans fun hat => hat.recoverNack hsq

end

end TimedHosts
end Roce
