import Roce.Host.Nic
import Roce.Lib.Exclusive
import Roce.Lib.Machine

/-! # Hosts that call each other

`DequeueAndTransmit` takes a packet from a queue pair, and the last packet of a request calls
`on_send`. The callback is any code: it may complete a flow, start other ones, post requests and
register queue pairs on any host, and `RegisterQP` enters `DequeueAndTransmit`. A step is one of the
innermost frame of the call stack; between two events the stack is empty. -/

namespace Roce

open Function

/-- A frame of the call stack. -/
inductive HostFrame where
  /-- The handler of an event, or a callback. -/
  | code
  | dequeueAndTransmit (host : Nat)
  /-- The rest of `GetNextPacket` after the callback, and of `DequeueAndTransmit`. -/
  | getNextPacket (host idx : Nat) (sr : SendRequest) (imm : UInt32)
  /-- `TransmitStart`, and `m_rdmaPktSent` for the packet of a queue pair. -/
  | transmitStart (host : Nat) (p : NicPacket) (lastQp : Option Nat)

/-- The network cards of the hosts; `ackQIdx` is `RdmaEgressQueue::ack_q_idx`. -/
structure Hosts where
  ackQIdx : Priority
  now : Nat := 0
  nics : Nat → Nic := fun _ => {}
  frames : List HostFrame := []

/-- What the simulation does next. -/
inductive HostCall where
  | event (time : Nat)
  | trigger (host time : Nat)
  | transmitComplete (host time : Nat)
  | pause (host : Nat) (qIndex : Priority) (time : Nat)
  | resume (host : Nat) (qIndex : Priority) (time : Nat)
  | registerQp (host : Nat) (qp : SendQueue)
  | changeQp (host idx : Nat) (qp : SendQueue)
  | enqueueHighPrioQ (host : Nat) (a : AckPacket)
  | dequeueAndTransmit (host : Nat)
  | afterOnSend
  | transmitStart (nextAvail : Nat)
  | leave

namespace Hosts

/-- The network card of a host changes. -/
def setNic (s : Hosts) (host : Nat) (nic : Nic) : Hosts := { s with nics := update s.nics host nic }

def call (s : Hosts) (frames : List HostFrame) : Hosts := { s with frames }

/-- What becomes of a send queue otherwise, by posts, ACKs and timers, is left open. -/
inductive Step : Hosts → HostCall → Hosts → Prop
  | event {s : Hosts} : s.frames = [] → s.now ≤ time →
    Step s (.event time) { s with now := time, frames := [.code] }
  | trigger {s : Hosts} : s.frames = [] → s.now ≤ time →
    Step s (.trigger host time) { s with now := time, frames := [.dequeueAndTransmit host] }
  | transmitComplete {s : Hosts} : s.frames = [] → s.now ≤ time →
    (s.nics host).transmitting ≠ [] → (s.nics host).currentPkt.isSome →
    Step s (.transmitComplete host time)
      ({ s with now := time, frames := [.dequeueAndTransmit host] }.setNic host
        (s.nics host).transmitComplete)
  | pause {s : Hosts} : s.frames = [] → s.now ≤ time → (s.nics host).linkUp →
    (s.nics host).qbbEnabled →
    Step s (.pause host qIndex time)
      ({ s with now := time }.setNic host ((s.nics host).setPaused qIndex true))
  | resume {s : Hosts} : s.frames = [] → s.now ≤ time → (s.nics host).linkUp →
    (s.nics host).qbbEnabled → (s.nics host).paused qIndex →
    Step s (.resume host qIndex time)
      ({ s with now := time, frames := [.dequeueAndTransmit host] }.setNic host
        ((s.nics host).setPaused qIndex false))
  | registerQp {s : Hosts} {qp : SendQueue} : s.frames = .code :: rest → qp.getPg < 8 →
    Step s (.registerQp host qp) ((s.call (.dequeueAndTransmit host :: .code :: rest)).setNic host
      { s.nics host with qpGrp := (s.nics host).qpGrp ++ [qp] })
  | changeQp {s : Hosts} {qp : SendQueue} : s.frames = .code :: rest →
    ((s.nics host).qpGrp[idx]?).any (·.getPg = qp.getPg) →
    Step s (.changeQp host idx qp) (s.setNic host ((s.nics host).setQp idx qp))
  | enqueueHighPrioQ {s : Hosts} {rq rq' : RdmaReliableRQ} : s.frames = .code :: rest →
    rq.receiveUdp s.now ecnbits p = some (some a, rq') →
    Step s (.enqueueHighPrioQ host a)
      (s.setNic host { s.nics host with ackQ := (s.nics host).ackQ ++ [a] })
  | leave {s : Hosts} : s.frames = .code :: rest → Step s .leave (s.call rest)
  | busy {s : Hosts} : s.frames = .dequeueAndTransmit host :: rest →
    ¬(s.nics host).Ready →
    Step s (.dequeueAndTransmit host) (s.call rest)
  | nothing {s : Hosts} : s.frames = .dequeueAndTransmit host :: rest →
    (s.nics host).Ready →
    (s.nics host).getNextQindex s.ackQIdx s.now = none →
    Step s (.dequeueAndTransmit host) (s.call rest)
  | highPrio {s : Hosts} : s.frames = .dequeueAndTransmit host :: rest →
    (s.nics host).Ready →
    (s.nics host).getNextQindex s.ackQIdx s.now = some .highPrio →
    (s.nics host).ackQ = a :: ackQ →
    Step s (.dequeueAndTransmit host)
      ((s.call (.transmitStart host (.ack a) none :: rest)).setNic host
        { s.nics host with ackQ := ackQ })
  | reliable {s : Hosts} {sq sq' : RdmaReliableSQ} : s.frames = .dequeueAndTransmit host :: rest →
    (s.nics host).Ready →
    (s.nics host).getNextQindex s.ackQIdx s.now = some (.qp idx) →
    (s.nics host).qpGrp[idx]? = some (.reliable sq) → sq.getNextPacket = some (p, sq') →
    Step s (.dequeueAndTransmit host)
      ((s.call (.transmitStart host (.data p) (some idx) :: rest)).setNic host
        { (s.nics host).setQp idx (.reliable sq') with rrlast := idx })
  | unreliable {s : Hosts} {sq sq' : RdmaUnreliableSQ} :
    s.frames = .dequeueAndTransmit host :: rest →
    (s.nics host).Ready →
    (s.nics host).getNextQindex s.ackQIdx s.now = some (.qp idx) →
    (s.nics host).qpGrp[idx]? = some (.unreliable sq) → sq.completing = none →
    sq.getNextPacket (fun _ => []) = some (p, sq') →
    Step s (.dequeueAndTransmit host)
      ((s.call (.transmitStart host (.data p) (some idx) :: rest)).setNic host
        { (s.nics host).setQp idx (.unreliable sq') with rrlast := idx })
  | onSend {s : Hosts} {sq sq' : RdmaUnreliableSQ} : s.frames = .dequeueAndTransmit host :: rest →
    (s.nics host).Ready →
    (s.nics host).getNextQindex s.ackQIdx s.now = some (.qp idx) →
    (s.nics host).qpGrp[idx]? = some (.unreliable sq) → sq.completing = some (sr, imm, sq') →
    Step s (.dequeueAndTransmit host)
      ((s.call (.code :: .getNextPacket host idx sr imm :: rest)).setNic host
        ((s.nics host).setQp idx (.unreliable sq')))
  | afterOnSend {s : Hosts} {sq sq' : RdmaUnreliableSQ} :
    s.frames = .getNextPacket host idx sr imm :: rest →
    (s.nics host).qpGrp[idx]? = some (.unreliable sq) → sq.completed sr imm = (p, sq') →
    Step s .afterOnSend
      ((s.call (.transmitStart host (.data p) (some idx) :: rest)).setNic host
        { (s.nics host).setQp idx (.unreliable sq') with rrlast := idx })
  | transmitStart {s : Hosts} : s.frames = .transmitStart host p lastQp :: rest →
    Step s (.transmitStart nextAvail)
      ((s.call rest).setNic host (((s.nics host).transmitStart p).pktSent lastQp nextAvail))

/-- Hosts without queue pairs. -/
structure Idle (s : Hosts) : Prop where
  frames : s.frames = []
  nics : ∀ host, s.nics host =
    { linkUp := (s.nics host).linkUp, qbbEnabled := (s.nics host).qbbEnabled }

def machine : Machine Hosts HostCall := ⟨Idle, Step⟩

/-- Hosts of which only one is used. -/
def oneHost (ackQIdx : Priority) (nic : Nic) (frames : List HostFrame) (now : Nat) : Hosts :=
  { ackQIdx, now, nics := update (fun _ => {}) 0 nic, frames }

theorem setNic_oneHost (ackQIdx : Priority) (nic nic' : Nic) (frames : List HostFrame) (now : Nat) :
    (oneHost ackQIdx nic frames now).setNic 0 nic' = oneHost ackQIdx nic' frames now := by
  simp [oneHost, setNic]

theorem oneHost_idle (ackQIdx : Priority) (linkUp qbbEnabled : Bool) :
    Idle (oneHost ackQIdx { linkUp, qbbEnabled } [] 0) := by
  refine ⟨rfl, fun host => ?_⟩
  simp only [oneHost, update_apply]
  split <;> rfl

end Hosts
end Roce
