import Roce.Allgather.Chains
import Roce.Allgather.Ring
import Roce.QueuePair.UnreliableQP

/-! # The multicast phase

`NotifyReceivePacket` and the rest of `ag-runtime.cc` that counts chunks and chains, and the
application around it (`ag-app.cc`): which node multicasts when, the hand-over from a node to the
next one, and the ways out of the phase. The packets are those of the unreliable queue pair. -/

namespace Roce

open Function

/-- `ChunkProgress`. -/
structure ChunkProgress where
  chunk : Nat := 0
  pkts : Int := 0
  deriving DecidableEq, Repr

/-- The members of `AgRuntime` that only the multicast phase reads, with one `ChunkProgress` for
each block. -/
structure McastProgress where
  completedChains : Nat := 0
  chunkProgresses : Nat → ChunkProgress := fun _ => {}

namespace AgRuntime

/-- `MarkChunkAsReceived`: the flag says that the chunk is new. -/
def markChunkAsReceived (rt : AgRuntime) (chunk : Nat) : Option (AgRuntime × Bool) :=
  if rt.state = .multicast then
    some ({ rt with recv := rt.recv.set chunk true }, !rt.recv.getD chunk false)
  else none

/-- `CompleteChain`. -/
def completeChain (cfg : McastConfig) (rt : AgRuntime) (mp : McastProgress) (sh : AgShared) :
    Option (AgRuntime × McastProgress × AgShared) :=
  if rt.state = .multicast then
    let mp := { mp with completedChains := mp.completedChains + 1 }
    if mp.completedChains = cfg.getRootCount then do
      let (rt, sh) ← rt.transitionToRecovery cfg.toAgConfig sh
      return (rt, mp, sh)
    else some (rt, mp, sh)
  else none

/-- What `NotifyReceivePacket` does with a chunk that is complete. -/
def completeChunk (cfg : McastConfig) (rt : AgRuntime) (mp : McastProgress) (sh : AgShared)
    (chunk : Nat) (newChunk : Bool) : Option (AgRuntime × McastProgress × AgShared) :=
  if newChunk && cfg.isLastChunkOfChain chunk then rt.completeChain cfg mp sh
  else some (rt, mp, sh)

/-- What `NotifyReceivePacket` makes of the progress of the sender. The counter is an `int`. -/
def countPacket (progress : ChunkProgress) (chunk : Nat) : ChunkProgress :=
  if progress.chunk ≠ chunk then { chunk, pkts := 1 }
  else { progress with pkts := (progress.pkts + 1).bmod (2 ^ 32) }

/-- `NotifyReceivePacket`, which passes the packet on as a 32-bit value. It returns true when the
recovery is ready to start. -/
def notifyReceivePacket (cfg : McastConfig) (rt : AgRuntime) (mp : McastProgress) (sh : AgShared)
    (packet : Nat) : Option (AgRuntime × McastProgress × AgShared × Bool) :=
  if rt.state ≠ .multicast then some (rt, mp, sh, false)
  else
    let (sender, chunk) := cfg.parseMcastImmData (packet % 2 ^ 32)
    let progress := countPacket (mp.chunkProgresses sender) chunk
    let mp := { mp with chunkProgresses := update mp.chunkProgresses sender progress }
    if progress.pkts = cfg.getPerChunkPacketCount then do
      let (rt, newChunk) ← rt.markChunkAsReceived chunk
      let (rt, mp, sh) ← rt.completeChunk cfg mp sh chunk newChunk
      return (rt, mp, sh, newChunk && rt.state = .recovery)
    else some (rt, mp, sh, false)

end AgRuntime

/-- The function that `m_timeout_ev` calls. -/
inductive Timeout where
  | cutoff
  | markov
  deriving DecidableEq, Repr

/-- The applications of an allgather: the runtimes with their recovery messages, the timers, the
`m_mcast.sq` of each node, the multicast packets on their way from one node to another, and the
hand-over messages on their way to the right neighbour. `multicasts` logs how often `StartMulticast`
gets past its check. -/
structure AgApps (n : Nat) where
  ring : AgRing n
  mcast : Fin n → RdmaUnreliableSQ
  progress : Fin n → McastProgress := fun _ => {}
  started : Fin n → Bool := fun _ => false
  timeout : Fin n → Option Timeout := fun _ => none
  air : Fin n → Fin n → List Packet := fun _ _ => []
  handOver : Fin n → Nat := fun _ => 0
  multicasts : Fin n → Nat := fun _ => 0

namespace AgApps

/-- Before `StartApplication`: no chunk is received. -/
def initial (cfg : McastConfig) : AgApps cfg.nodes where
  ring := AgRing.initial fun _ => List.replicate cfg.getTotalChunkCount false
  mcast _ := { mtu := cfg.mtu }

/-- The request that `StartMulticast` posts for the packet `i` of a block. The callback of the last
one is `OnMulticastTransmissionEnd`. -/
def blockRequest (cfg : McastConfig) (mtu block i : Nat) : SendRequest where
  payloadSize := .ofNat mtu
  multicast := true
  imm := .ofNat (cfg.getMcastImmData block i)
  onSend := i = cfg.getPerBlockPacketCount - 1

/-- The loop of `StartMulticast`. -/
def postBlock (cfg : McastConfig) (sq : RdmaUnreliableSQ) (block : Nat) : RdmaUnreliableSQ :=
  (List.range cfg.getPerBlockPacketCount).foldl
    (fun sq i => sq.postSendDefault (blockRequest cfg sq.mtu block i)) sq

/-- `StartMulticast`. -/
def startMulticast (cfg : McastConfig) (t : AgApps n) (i : Fin n) : AgApps n :=
  if (t.ring.node i).state ≠ .multicast then t
  else { t with
    mcast := update t.mcast i (postBlock cfg (t.mcast i) (t.ring.node i).block)
    multicasts := update t.multicasts i (t.multicasts i + 1) }

/-- `StartApplication`. -/
def startApplication (cfg : McastConfig) (t : AgApps n) (i : Fin n) : Option (AgApps n) :=
  if t.started i then none
  else
    let t := { t with
      started := update t.started i true
      timeout := update t.timeout i (some .cutoff) }
    if cfg.shouldSkipMcast then some { t with timeout := update t.timeout i (some .markov) }
    else if cfg.isFirstInChain (t.ring.node i).block then some (t.startMulticast cfg i)
    else some t

/-- `StartRecoveryPhase`. -/
def startRecoveryPhase (t : AgApps n) (i : Fin n) : AgApps n :=
  { t with
    timeout := update t.timeout i none
    ring := { t.ring with
      request := update t.ring.request i
        (t.ring.request i ++ [(t.ring.node i).startRecoveryPhase]) } }

/-- The callback of `m_mcast.rq`. -/
def onRecvMcast (cfg : McastConfig) (t : AgApps n) (i : Fin n) (imm : Nat) : Option (AgApps n) :=
  if (t.ring.node i).state ≠ .multicast then some t
  else do
    let (rt, mp, sh, ready) ←
      (t.ring.node i).notifyReceivePacket cfg (t.progress i) t.ring.shared imm
    let t := { t with
      ring := { t.ring with node := update t.ring.node i rt, shared := sh }
      progress := update t.progress i mp }
    if ready then return t.startRecoveryPhase i
    else return { t with timeout := update t.timeout i (some .cutoff) }

/-- A multicast packet is received. -/
def receiveMcast (cfg : McastConfig) (t : AgApps n) (i : Fin n) (p : Packet) :
    Option (AgApps n) := do
  match ← RdmaUnreliableRQ.receiveUdp true p with
  | none => some t
  | some notif => t.onRecvMcast cfg i notif.imm.toNat

/-- `OnCutoffTimer`. -/
def onCutoffTimer (cfg : McastConfig) (t : AgApps n) (i : Fin n) : Option (AgApps n) := do
  let (rt, sh) ← (t.ring.node i).transitionToRecovery cfg.toAgConfig t.ring.shared
  let t := { t with ring := { t.ring with node := update t.ring.node i rt, shared := sh } }
  return t.startRecoveryPhase i

/-- What the loop of `RunMarkovMcast` works on; the flag is `transitioned`. -/
abbrev MarkovState := AgRuntime × McastProgress × AgShared × Bool

/-- One turn of the loop of `RunMarkovMcast`, where `pkts` are the simulated packets. -/
def markovPacket (cfg : McastConfig) (pkts : List Bool) (acc : MarkovState) (i : Nat) :
    Option MarkovState := do
  let (rt, mp, sh, transitioned) := acc
  let ownsPkt := i / cfg.getPerBlockPacketCount = rt.block
  if pkts.getD i false || ownsPkt then
    let (rt, mp, sh, ready) ← rt.notifyReceivePacket cfg mp sh i
    return (rt, mp, sh, transitioned || ready)
  else return (rt, mp, sh, transitioned)

/-- The end of `RunMarkovMcast`: the transition, if the packets did not cause it. -/
def endMarkov (cfg : McastConfig) (transitioned : Bool) (rt : AgRuntime) (sh : AgShared) :
    Option (AgRuntime × AgShared) :=
  if transitioned then some (rt, sh) else rt.transitionToRecovery cfg.toAgConfig sh

/-- `RunMarkovMcast`. -/
def runMarkovMcast (cfg : McastConfig) (t : AgApps n) (i : Fin n) (pkts : List Bool) :
    Option (AgApps n) := do
  let (rt, mp, sh, transitioned) ← (List.range pkts.length).foldlM (markovPacket cfg pkts)
    (t.ring.node i, t.progress i, t.ring.shared, false)
  let (rt, sh) ← endMarkov cfg transitioned rt sh
  let t := { t with
    ring := { t.ring with node := update t.ring.node i rt, shared := sh }
    progress := update t.progress i mp }
  return t.startRecoveryPhase i

/-- What can happen: an application starts, the next packet of a node leaves it, a multicast packet
or a hand-over message is received, a timer fires, or the recovery goes on. -/
inductive Event (n : Nat) where
  | start (i : Fin n)
  | transmit (i : Fin n)
  | receive (sender i : Fin n) (p : Packet)
  | handOver (i : Fin n)
  | cutoff (i : Fin n)
  | markov (i : Fin n) (pkts : List Bool)
  | recovery (e : AgRing.Event n)

/-- A packet leaves its sender on its way to every other node, where `onSend` says whether
`GetNextPacket` has called `OnMulticastTransmissionEnd`. -/
def transmit (t : AgApps n) (i : Fin n) (p : Packet) (onSend : Bool) (sq : RdmaUnreliableSQ) :
    AgApps n :=
  { t with
    mcast := update t.mcast i sq
    air := update t.air i fun j => if j = i then t.air i j else t.air i j ++ [p]
    handOver := update t.handOver i (t.handOver i + if onSend then 1 else 0) }

/-- Multicast packets can get lost or overtake each other, hand-over messages cannot. A packet
that is lost stays in the air. The callback posts to another queue pair. -/
inductive Step (cfg : McastConfig) : AgApps n → Event n → AgApps n → Prop
  | start {t : AgApps n} {i : Fin n} : t.startApplication cfg i = some t' →
    Step cfg t (.start i) t'
  | transmit {t : AgApps n} {i : Fin n} {sq : RdmaUnreliableSQ} :
    (t.mcast i).getNextPacket (fun _ => []) = some (p, sq) →
    sq.sent = (t.mcast i).sent ++ [⟨p, onSend⟩] →
    Step cfg t (.transmit i) (t.transmit i p onSend sq)
  | receive {t : AgApps n} {s i : Fin n} : t.started i = true → p ∈ t.air s i →
    receiveMcast cfg
      { t with air := update t.air s (update (t.air s) i ((t.air s i).erase p)) } i p = some t' →
    Step cfg t (.receive s i p) t'
  | handOver {t : AgApps n} {i : Fin n} : t.started i = true → t.handOver (left i) = k + 1 →
    Step cfg t (.handOver i)
      (startMulticast cfg { t with handOver := update t.handOver (left i) k } i)
  | cutoff {t : AgApps n} {i : Fin n} : t.timeout i = some .cutoff →
    onCutoffTimer cfg { t with timeout := update t.timeout i none } i = some t' →
    Step cfg t (.cutoff i) t'
  | markov {t : AgApps n} {i : Fin n} : t.timeout i = some .markov →
    pkts.length = cfg.getTotalChunkCount * cfg.getPerChunkPacketCount →
    runMarkovMcast cfg { t with timeout := update t.timeout i none } i pkts = some t' →
    Step cfg t (.markov i pkts) t'
  | recovery {t : AgApps n} {ring : AgRing n} : (∀ i, e ≠ .leave i) → t.started e.node = true →
    AgRing.Step cfg.toAgConfig t.ring e ring → Step cfg t (.recovery e) { t with ring }

/-- An allgather. -/
def allgather (cfg : McastConfig) : Machine (AgApps cfg.nodes) (Event cfg.nodes) :=
  ⟨(· = initial cfg), Step cfg⟩

end AgApps
end Roce
