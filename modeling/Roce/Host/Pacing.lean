import Roce.Host.WakeUps
import Roce.Host.Wire
import Roce.Lib.Spacing

/-! # A queue pair does not exceed its rate

`m_rdmaPktSent` sets the time from which a queue pair may send again: `UpdateNextAvail` adds the
time that the packet takes at the rate of the queue pair. It does so in `TransmitStart`, but the
queue pair was chosen earlier: a callback in between may choose it once more. -/

namespace Roce

open Function

namespace TimedFrame

/-- `TransmitStart`, for a packet of the queue pair. -/
def transmits (host idx : Nat) : TimedFrame → Bool
  | .nic (.transmitStart h _ (some i)) => decide (h = host ∧ i = idx)
  | _ => false

/-- The packet that such a `TransmitStart` is called with. -/
def packet (host idx : Nat) : TimedFrame → Option NicPacket
  | .nic (.transmitStart h p (some i)) => if h = host ∧ i = idx then some p else none
  | _ => none

theorem transmits_eq (host idx : Nat) (frame : TimedFrame) :
    frame.transmits host idx = (frame.packet host idx).isSome := by
  unfold transmits packet
  split
  next h p i =>
    by_cases hchosen : h = host ∧ i = idx
    · rw [if_pos hchosen, decide_eq_true hchosen]
      rfl
    · rw [if_neg hchosen, decide_eq_false hchosen]
      rfl
  next => rfl

theorem packet_eq_some {frame : TimedFrame} (h : frame.packet host idx = some p) :
    frame = .nic (.transmitStart host p (some idx)) := by
  unfold packet at h
  split at h
  next =>
    split at h
    next hchosen =>
      obtain ⟨rfl, rfl⟩ := hchosen
      rw [Option.some.inj h]
    next => cases h
  next => cases h

/-- `GetNextPacket` of the queue pair, which has called `on_send`. -/
def own (host idx : Nat) : TimedFrame → Bool
  | .nic (.getNextPacket h i _ _) => decide (h = host ∧ i = idx)
  | _ => false

/-- The queue pair has been chosen, and its packet is not transmitted yet. -/
def holds (host idx : Nat) : TimedFrame → Bool
  | .nic (.getNextPacket h i _ _) => decide (h = host ∧ i = idx)
  | frame => frame.transmits host idx

theorem holds_cases {frame : TimedFrame} (h : frame.holds host idx = true) :
    frame.own host idx = true ∨ frame.transmits host idx = true := by
  unfold holds at h
  split at h
  · exact .inl h
  · exact .inr h

end TimedFrame

/-- What `GetNextQindex` has to do with a queue pair: its kind, and `m_nextAvail`. -/
structure Gate where
  reliable : Bool
  nextAvail : Nat

def SendQueue.gate : SendQueue → Gate
  | .reliable sq => ⟨true, sq.nextAvail⟩
  | .unreliable sq => ⟨false, sq.nextAvail⟩

theorem SendQueue.Keeps.gate {sq sq' : RdmaReliableSQ}
    (h : SendQueue.Keeps (.reliable sq) (.reliable sq')) :
    (SendQueue.reliable sq').gate = (SendQueue.reliable sq).gate :=
  congrArg (Gate.mk true) h.nextAvail

theorem SendQueue.gate_setRate (qp : SendQueue) (rate : Nat) :
    (qp.setRate rate).gate = qp.gate := by
  cases qp <;> rfl

namespace TimedHosts

variable {s s' : TimedHosts} {host idx : Nat}

/-- What a step transmits of a queue pair, and the sending time until it may send again. -/
def departure (host idx : Nat) (s : TimedHosts) : TimedCall → Option Use
  | .transmitStart _ sendingTime =>
    if s.frames.head?.any (·.transmits host idx) then some ⟨s.now, sendingTime⟩ else none
  | _ => none

def departures (host idx : Nat) (tr : List (Machine.Taken TimedHosts TimedCall)) : List Use :=
  tr.filterMap fun st => departure host idx st.source st.event

/-- A queue pair, if it was registered. -/
def gate (s : TimedHosts) (host idx : Nat) : Option Gate := (s.nics host).qpGrp[idx]?.map (·.gate)

/-- How often a queue pair is chosen. -/
def held (s : TimedHosts) (host idx : Nat) : Nat := s.frames.countP (·.holds host idx)

/-- The queue pair is not chosen from inside of its own `GetNextPacket`. -/
def Unnested (host idx : Nat) (s : TimedHosts) (c : TimedCall) : Prop :=
  c = .dequeueAndTransmit host → (s.nics host).getNextQindex s.ackQIdx s.now = some (.qp idx) →
    s.held host idx = 0

/-! ## `UpdateNextAvail` -/

end TimedHosts

/-- `DataRate::CalculateBytesTxTime`, in nanoseconds. The bits are counted in 32 bits. -/
def calculateBytesTxTime (bps bytes : Nat) : Nat := bytes * 8 % 2 ^ 32 * 10 ^ 9 / bps

/-- What `UpdateNextAvail` depends on, apart from the queue pair: `RateBound` of `RdmaHw`, and
`InterframeGap` of the network card. -/
structure RateConfig where
  rateBound : Bool := true
  interframeGap : Nat := 0

/-- The rate that bounds a queue pair. -/
def RateConfig.rate (cfg : RateConfig) (qp : RdmaTxQueuePair) : Nat :=
  if cfg.rateBound then qp.rate else qp.maxRate

/-- The sending time that `UpdateNextAvail` computes. -/
def RateConfig.sendingTime (cfg : RateConfig) (rate pktSize : Nat) : Nat :=
  cfg.interframeGap + calculateBytesTxTime rate pktSize

/-- A packet of a queue pair that is transmitted, and the rate that bounds the queue pair. -/
structure TimedPacket where
  time : Nat
  size : Nat
  rate : Nat

namespace TimedPacket

/-- The bits of the packet, in 32 bits. -/
def bits (t : TimedPacket) : Nat := t.size * 8 % 2 ^ 32

def use (cfg : RateConfig) (t : TimedPacket) : Use := ⟨t.time, cfg.sendingTime t.rate t.size⟩

/-- A packet takes the time of its bits, less than one nanosecond cut off. -/
theorem bits_le (t : TimedPacket) (cfg : RateConfig) (hpos : 0 < t.rate) (hle : t.rate ≤ bps) :
    t.bits * 10 ^ 9 ≤ bps * ((t.use cfg).rest + 1) := by
  have hcut := Nat.lt_div_mul_add (a := t.bits * 10 ^ 9) hpos
  have htime : t.bits * 10 ^ 9 / t.rate ≤ (t.use cfg).rest := Nat.le_add_left ..
  calc t.bits * 10 ^ 9 ≤ t.rate * (t.bits * 10 ^ 9 / t.rate + 1) := by
        rw [Nat.mul_add, Nat.mul_one, Nat.mul_comm t.rate]
        exact hcut.le
    _ ≤ bps * ((t.use cfg).rest + 1) := Nat.mul_le_mul hle (Nat.add_le_add_right htime 1)

theorem sum_bits_le (cfg : RateConfig) {ts : List TimedPacket}
    (hts : ∀ t ∈ ts, 0 < t.rate ∧ t.rate ≤ bps) :
    (ts.map bits).sum * 10 ^ 9 ≤ bps * ((ts.map fun t => (t.use cfg).rest).sum + ts.length) := by
  induction ts with
  | nil => exact Nat.zero_le _
  | cons t ts ih =>
    have hfirst := t.bits_le cfg (hts t List.mem_cons_self).1 (hts t List.mem_cons_self).2
    have hrest := ih fun t ht => hts t (List.mem_cons_of_mem _ ht)
    calc ((t :: ts).map bits).sum * 10 ^ 9
        = t.bits * 10 ^ 9 + (ts.map bits).sum * 10 ^ 9 := by
          rw [List.map_cons, List.sum_cons, Nat.add_mul]
      _ ≤ bps * ((t.use cfg).rest + 1) +
          bps * ((ts.map fun t => (t.use cfg).rest).sum + ts.length) := Nat.add_le_add hfirst hrest
      _ = bps * (((t :: ts).map fun t => (t.use cfg).rest).sum + (t :: ts).length) := by
          rw [← Nat.mul_add, List.map_cons, List.sum_cons, List.length_cons]
          congr 1
          omega

end TimedPacket

namespace TimedHosts

variable {s s' : TimedHosts} {host idx : Nat} {hw : Nat → RateConfig}

/-- The rate that bounds a queue pair, if it was registered. -/
def rate (hw : Nat → RateConfig) (s : TimedHosts) (host idx : Nat) : Nat :=
  (s.nics host).qpGrp[idx]?.elim 0 fun qp => (hw host).rate qp.base

/-- A step computes the sending time of a packet of a queue pair as `UpdateNextAvail` does. -/
def AtRate (hw : Nat → RateConfig) (s : TimedHosts) (c : TimedCall) : Prop :=
  ∀ txTime sendingTime host p idx rest, c = .transmitStart txTime sendingTime →
    s.frames = .nic (.transmitStart host p (some idx)) :: rest →
    sendingTime = (hw host).sendingTime (s.rate hw host idx) p.getSize

/-- The packet of a queue pair that a step transmits. -/
def transmission (hw : Nat → RateConfig) (host idx : Nat) (s : TimedHosts) :
    TimedCall → Option TimedPacket
  | .transmitStart .. => do
    let p ← s.frames.head?.bind (·.packet host idx)
    return ⟨s.now, p.getSize, s.rate hw host idx⟩
  | _ => none

def transmissions (hw : Nat → RateConfig) (host idx : Nat)
    (tr : List (Machine.Taken TimedHosts TimedCall)) : List TimedPacket :=
  tr.filterMap fun st => transmission hw host idx st.source st.event

theorem departure_eq_transmission (h : AtRate hw s c) :
    departure host idx s c = (transmission hw host idx s c).map (·.use (hw host)) := by
  cases c with
  | transmitStart txTime sendingTime =>
    unfold departure transmission
    cases hf : s.frames with
    | nil => rfl
    | cons frame rest =>
      dsimp only
      rw [List.head?_cons, Option.any_some, Option.bind_some, TimedFrame.transmits_eq]
      cases hp : frame.packet host idx with
      | none => rfl
      | some p =>
        rw [h txTime sendingTime host p idx rest rfl (hf.trans (by rw [frame.packet_eq_some hp]))]
        rfl
  | _ => rfl

/-- What is transmitted at the rate is what departs. -/
theorem departures_eq (h : (machine.restrict (AtRate hw)).Trace s₀ tr s) (host idx : Nat) :
    departures host idx tr = (transmissions hw host idx tr).map (·.use (hw host)) := by
  refine h.invariant (I := fun tr _ =>
    departures host idx tr = (transmissions hw host idx tr).map (·.use (hw host))) rfl ?_
  rintro tr s c s' - ih ⟨hrate, -⟩
  unfold departures transmissions at ih ⊢
  rw [List.filterMap_append, List.filterMap_append, List.map_append, ih]
  congr 1
  simp only [List.filterMap_cons, List.filterMap_nil, departure_eq_transmission hrate]
  cases transmission hw host idx s c <;> rfl

/-! ## What a step does to a queue pair -/

/-- The queue pairs of a network card keep their gates. -/
theorem gate_act {nic : Nic} {h : Nat}
    (hnic : nic.qpGrp[idx]?.map (·.gate) = s.gate h idx) (events : NicEvents)
    (frames : List TimedFrame) : (s.act h nic events frames).gate host idx = s.gate host idx := by
  unfold gate act
  dsimp only
  rw [update_apply]
  split
  next heq =>
    rw [heq]
    exact hnic
  next => rfl

theorem gate_set {nic : Nic} {qp qp' : SendQueue} (hqp : nic.qpGrp[i]? = some qp)
    (hk : qp'.gate = qp.gate) :
    (nic.qpGrp.set i qp')[idx]?.map (·.gate) = nic.qpGrp[idx]?.map (·.gate) := by
  rw [List.getElem?_set]
  split
  next heq =>
    subst heq
    have hlt := (List.getElem?_eq_some_iff.mp hqp).1
    rw [if_pos hlt, hqp, Option.map_some, Option.map_some, hk]
  next => rfl

theorem gate_changeQp {h i : Nat} {qp qp' : SendQueue} (hqp : (s.nics h).qpGrp[i]? = some qp)
    (hk : qp'.gate = qp.gate) (triggers : Bool) (frames : List TimedFrame) :
    (s.changeQp h i qp' triggers frames).gate host idx = s.gate host idx :=
  gate_act (gate_set hqp hk) _ _

end TimedHosts

theorem RdmaReliableSQ.getNextPacket_nextAvail {sq sq' : RdmaReliableSQ}
    (h : sq.getNextPacket = some (p, sq')) : sq'.nextAvail = sq.nextAvail := by
  obtain ⟨k, sr, size, t, -, -, hadvance, rfl⟩ := getNextPacket_cases h
  unfold advance at hadvance
  dsimp only at hadvance
  split at hadvance
  · split at hadvance
    · cases hadvance
      split <;> rfl
    · cases hadvance
  · cases hadvance
    rfl

theorem RdmaUnreliableSQ.getNextPacket_nextAvail {sq sq' : RdmaUnreliableSQ} {cb : Posts}
    (h : sq.getNextPacket cb = some (p, sq')) : sq'.nextAvail = sq.nextAvail := by
  obtain ⟨work, rest, -, ⟨-, -, rfl⟩ | ⟨-, -, rfl⟩⟩ := getNextPacket_cases h
  · rfl
  · rw [callOnSend_eq]
    rfl

theorem RdmaUnreliableSQ.completing_nextAvail {sq sq' : RdmaUnreliableSQ}
    (h : sq.completing = some (sr, imm, sq')) : sq'.nextAvail = sq.nextAvail := by
  unfold completing at h
  split at h
  · cases h
  · split at h
    · cases h
      rfl
    · cases h

namespace TimedHosts

variable {s s' : TimedHosts} {host idx : Nat}

/-- What a step is to a queue pair. -/
inductive Effect (host idx : Nat) (s : TimedHosts) (c : TimedCall) (s' : TimedHosts) : Prop
  | none : departure host idx s c = .none → s'.gate host idx = s.gate host idx →
    s'.held host idx = s.held host idx → s.now ≤ s'.now → Effect host idx s c s'
  | register : departure host idx s c = .none → s.gate host idx = .none →
    s'.held host idx = s.held host idx → s.now ≤ s'.now → Effect host idx s c s'
  | choose : departure host idx s c = .none → s'.gate host idx = s.gate host idx →
    c = .dequeueAndTransmit host → (s.nics host).getNextQindex s.ackQIdx s.now = some (.qp idx) →
    s'.held host idx = s.held host idx + 1 → s'.now = s.now → Effect host idx s c s'
  | depart : departure host idx s c = some u → u.time = s.now →
    s'.gate host idx = (s.gate host idx).map ({ · with nextAvail := u.time + u.rest }) →
    s.held host idx = s'.held host idx + 1 → s'.now = s.now → Effect host idx s c s'

theorem held_cons (hf : s.frames = frame :: rest) :
    s.held host idx = rest.countP (·.holds host idx) + if frame.holds host idx then 1 else 0 := by
  rw [held, hf, List.countP_cons]

/-- A frame goes and others come, none of which has chosen the queue pair. -/
theorem held_eq (new : List TimedFrame) (hf : s.frames = frame :: rest)
    (hframe : frame.holds host idx = false) (hnew : new.countP (·.holds host idx) = 0) :
    (new ++ rest).countP (·.holds host idx) = s.held host idx := by
  rw [held_cons hf, hframe, List.countP_append, hnew]
  exact Nat.zero_add _

theorem held_nil (hf : s.frames = []) : s.held host idx = 0 := by
  rw [held, hf]
  rfl

/-- `GetNextQindex` has chosen a queue pair, which one or another. -/
theorem Effect.of_choice {h i : Nat} {nic : Nic} {frame : TimedFrame} (new : List TimedFrame)
    (hf : s.frames = .nic (.dequeueAndTransmit h) :: rest)
    (hnext : (s.nics h).getNextQindex s.ackQIdx s.now = some (.qp i))
    (hnic : nic.qpGrp[idx]?.map (·.gate) = s.gate h idx)
    (hframe : frame.holds host idx = decide (h = host ∧ i = idx))
    (hnew : new.countP (·.holds host idx) = 0) :
    Effect host idx s (.dequeueAndTransmit h)
      (s.act h nic (s.events h) (new ++ frame :: rest)) := by
  have hheld : (new ++ frame :: rest).countP (·.holds host idx) =
      s.held host idx + if h = host ∧ i = idx then 1 else 0 := by
    rw [List.countP_append, hnew, Nat.zero_add, List.countP_cons, hframe, held_cons hf]
    simp [TimedFrame.holds, TimedFrame.transmits]
  have hgate : (s.act h nic (s.events h) (new ++ frame :: rest)).gate host idx =
      s.gate host idx := gate_act hnic _ _
  by_cases hchosen : h = host ∧ i = idx
  · rw [if_pos hchosen] at hheld
    obtain ⟨rfl, rfl⟩ := hchosen
    exact .choose rfl hgate rfl hnext hheld rfl
  · rw [if_neg hchosen] at hheld
    exact .none rfl hgate hheld (le_refl _)

/-- A queue pair is registered at the end of the group. -/
theorem Effect.of_register {h : Nat} {qp : SendQueue} (hf : s.frames = .code calls :: rest) :
    Effect host idx s (.registerQp h qp)
      (s.act h { s.nics h with qpGrp := (s.nics h).qpGrp ++ [qp] } (s.events h)
        (.nic (.dequeueAndTransmit h) :: .code calls :: rest)) := by
  let new : List TimedFrame := [.nic (.dequeueAndTransmit h), .code calls]
  have hheld : (new ++ rest).countP (·.holds host idx) = s.held host idx := held_eq new hf rfl rfl
  by_cases hnew : h = host ∧ idx = (s.nics h).qpGrp.length
  · obtain ⟨rfl, rfl⟩ := hnew
    refine .register rfl ?_ hheld (le_refl _)
    rw [gate, List.getElem?_eq_none (le_refl _)]
    rfl
  · refine .none rfl ?_ hheld (le_refl _)
    unfold gate act
    dsimp only
    rw [update_apply]
    split
    next heq =>
      subst heq
      have hne : idx ≠ (s.nics host).qpGrp.length := fun heq => hnew ⟨rfl, heq⟩
      dsimp only
      rcases Nat.lt_or_gt_of_ne hne with hlt | hgt
      · rw [List.getElem?_append_left hlt]
      · rw [List.getElem?_eq_none (by rw [List.length_append, List.length_singleton]; omega),
          List.getElem?_eq_none (by omega)]
    next => rfl

theorem departure_eq (hf : s.frames = frame :: rest) (txTime sendingTime : Nat) :
    departure host idx s (.transmitStart txTime sendingTime) =
      if frame.transmits host idx then some ⟨s.now, sendingTime⟩ else none := by
  rw [departure, hf]
  rfl

theorem gate_pktSent (nic : Nic) (i nextAvail : Nat) :
    (nic.pktSent (some i) nextAvail).qpGrp[idx]?.map (·.gate) =
      if i = idx then nic.qpGrp[idx]?.map fun qp => { qp.gate with nextAvail }
      else nic.qpGrp[idx]?.map (·.gate) := by
  have hupdate : ∀ qp : SendQueue, (qp.updateNextAvail nextAvail).gate =
      { qp.gate with nextAvail } := by
    intro qp
    cases qp <;> rfl
  rw [Nic.pktSent, List.getElem?_modify]
  split
  · rw [Option.map_eq_map, Option.map_map]
    exact congrArg (Option.map · _) (funext hupdate)
  · rw [Option.map_eq_map, Option.map_id']

/-- `TransmitStart` of the packet of some queue pair, or of an ACK. -/
theorem Effect.of_transmitStart {h txTime sendingTime : Nat} {lastQp : Option Nat}
    (hf : s.frames = .nic (.transmitStart h p lastQp) :: rest) (events : NicEvents) :
    Effect host idx s (.transmitStart txTime sendingTime)
      (s.act h (((s.nics h).transmitStart p).pktSent lastQp (s.now + sendingTime)) events
        rest) := by
  have hheld : s.held host idx = rest.countP (·.holds host idx) +
      if (TimedFrame.nic (.transmitStart h p lastQp)).holds host idx then 1 else 0 := held_cons hf
  have hdeparture : departure host idx s (.transmitStart txTime sendingTime) =
      if (TimedFrame.nic (.transmitStart h p lastQp)).transmits host idx
        then some ⟨s.now, sendingTime⟩ else Option.none := departure_eq hf txTime sendingTime
  by_cases hchosen : h = host ∧ lastQp = some idx
  · obtain ⟨rfl, rfl⟩ := hchosen
    have htransmits : (TimedFrame.nic (.transmitStart h p (some idx))).transmits h idx = true :=
      decide_eq_true ⟨rfl, rfl⟩
    rw [if_pos htransmits] at hdeparture
    refine .depart hdeparture rfl ?_ (hheld.trans (congrArg _ (if_pos htransmits))) rfl
    unfold gate act
    dsimp only
    rw [update_self, gate_pktSent, if_pos rfl, Option.map_map]
    rfl
  · have hother : (TimedFrame.nic (.transmitStart h p lastQp)).transmits host idx = false := by
      cases lastQp with
      | none => rfl
      | some i => exact decide_eq_false fun heq => hchosen ⟨heq.1, congrArg some heq.2⟩
    have hnot : (TimedFrame.nic (.transmitStart h p lastQp)).holds host idx = false := hother
    rw [hother, if_neg Bool.false_ne_true] at hdeparture
    rw [hnot, if_neg Bool.false_ne_true] at hheld
    refine .none hdeparture ?_ hheld.symm (le_refl _)
    unfold gate act
    dsimp only
    rw [update_apply]
    split
    next heq =>
      subst heq
      cases lastQp with
      | none => rfl
      | some i =>
        rw [gate_pktSent, if_neg fun heq => hchosen ⟨rfl, congrArg some heq⟩]
        rfl
    next => rfl

theorem Step.effect (host idx : Nat) (hs : Step s c s') : Effect host idx s c s' := by
  cases hs with
  | event hf hdue => exact .none rfl rfl (held_nil hf).symm hdue.1
  | triggerTransmit hf hdue | nextSend hf hdue =>
    exact .none rfl (gate_act (s := { s with now := _ }) (by rfl) _ _) (held_nil hf).symm hdue.1
  | transmitComplete hf hdue =>
    exact .none rfl (gate_act (s := { s with now := _ }) (by rfl) _ _) (held_nil hf).symm hdue.1
  | pause hf hdue => exact .none rfl (gate_act (s := { s with now := _ }) (by rfl) _ _) rfl hdue.1
  | resume hf hdue =>
    exact .none rfl (gate_act (s := { s with now := _ }) (by rfl) _ _) (held_nil hf).symm hdue.1
  | registerQp hf => exact .of_register hf
  | postSend hf _ hqp => exact .none rfl (gate_changeQp hqp (by rfl) _ _) rfl (le_refl _)
  | postSendUnreliable hf _ hqp => exact .none rfl (gate_changeQp hqp (by rfl) _ _) rfl (le_refl _)
  | enqueueHighPrioQ hf => exact .none rfl (gate_act (by rfl) _ _) rfl (le_refl _)
  | receiveAck hf => exact .none rfl rfl (held_eq [.code _] hf rfl rfl) (le_refl _)
  | onRetrTimeout hf _ hqp =>
    exact .none rfl (gate_changeQp hqp (by rfl) _ _) (held_eq [.code _] hf rfl rfl) (le_refl _)
  | setRate hf hqp =>
    exact .none rfl (gate_changeQp hqp (SendQueue.gate_setRate _ _) _ _) rfl (le_refl _)
  | sqCall hf hqp hrun =>
    exact .none rfl (gate_changeQp hqp (SqCall.run_spec hrun).1.gate _ _)
      (held_eq [.code _] hf rfl rfl) (le_refl _)
  | leave hf => exact .none rfl rfl (held_eq [] hf rfl rfl) (le_refl _)
  | busy hf => exact .none rfl rfl (held_eq [] hf rfl rfl) (le_refl _)
  | nothing hf => exact .none rfl (gate_act (by rfl) _ _) (held_eq [] hf rfl rfl) (le_refl _)
  | highPrio hf =>
    exact .none rfl (gate_act (by rfl) _ _) (held_eq [.nic (.transmitStart _ _ none)] hf rfl rfl)
      (le_refl _)
  | reliable hf hready hnext hqp hp =>
    exact .of_choice [] hf hnext
      (gate_set hqp (congrArg (Gate.mk true) (RdmaReliableSQ.getNextPacket_nextAvail hp)))
      (by rfl) rfl
  | unreliable hf hready hnext hqp hc hp =>
    exact .of_choice [] hf hnext
      (gate_set hqp (congrArg (Gate.mk false) (RdmaUnreliableSQ.getNextPacket_nextAvail hp)))
      (by rfl) rfl
  | onSend hf hready hnext hqp hc =>
    exact .of_choice [.code []] hf hnext
      (gate_set hqp (congrArg (Gate.mk false) (RdmaUnreliableSQ.completing_nextAvail hc)))
      (by rfl) rfl
  | @afterOnSend h i sr imm rest p s sq sq' hf hqp hc =>
    have hk : (SendQueue.unreliable sq').gate = (SendQueue.unreliable sq).gate := by
      obtain ⟨-, rfl⟩ := Prod.mk.inj hc
      rfl
    refine .none rfl (gate_act (gate_set hqp hk) _ _) ?_ (le_refl _)
    rw [held_cons hf]
    exact List.countP_cons
  | transmitStart hf => exact .of_transmitStart hf _

/-! ## The invariant -/

/-- What was transmitted is spaced, up to `m_nextAvail`; a queue pair that has been chosen was ready
then, and is chosen once. -/
structure Pace (host idx : Nat) (uses : List Use) (s : TimedHosts) : Prop where
  spaced : ∀ g, s.gate host idx = some g → Spaced uses g.nextAvail
  unused : s.gate host idx = none → uses = []
  held_le : s.held host idx ≤ 1
  ready : 0 < s.held host idx → ∃ g, s.gate host idx = some g ∧ g.nextAvail ≤ s.now

theorem Idle.pace (h : Idle s) : Pace host idx [] s where
  spaced _ _ := .nil
  unused _ := rfl
  held_le := by
    rw [held_nil h.frames]
    exact Nat.zero_le 1
  ready hpos := absurd hpos (by rw [held_nil h.frames]; exact Nat.lt_irrefl 0)

/-- A queue pair that is chosen is ready to send. -/
theorem gate_of_getNextQindex (h : (s.nics host).getNextQindex s.ackQIdx s.now = some (.qp idx)) :
    ∃ g, s.gate host idx = some g ∧ g.nextAvail ≤ s.now := by
  unfold Nic.getNextQindex at h
  split at h
  · cases h
  · obtain ⟨i, hi, heq⟩ := Option.map_eq_some_iff.mp h
    obtain rfl := QIndex.qp.inj heq
    have hsend := List.find?_some hi
    cases hqp : (s.nics host).qpGrp[i]? with
    | none =>
      rw [hqp] at hsend
      cases hsend
    | some qp =>
      rw [hqp, Option.any_some, Nic.maySend, Bool.and_eq_true] at hsend
      refine ⟨_, congrArg _ hqp, ?_⟩
      have hready := hsend.2
      cases qp with
      | reliable sq =>
        simp only [SendQueue.isReadyToSend, RdmaReliableSQ.isReadyToSend, Bool.and_eq_true,
          decide_eq_true_eq] at hready
        exact hready.1.1
      | unreliable sq =>
        simp only [SendQueue.isReadyToSend, RdmaUnreliableSQ.isReadyToSend, Bool.and_eq_true,
          decide_eq_true_eq] at hready
        exact hready.2

/-- The step lemma. -/
theorem Pace.step (h : Pace host idx uses s) (hn : Unnested host idx s c) (hs : Step s c s') :
    Pace host idx (uses ++ (departure host idx s c).toList) s' := by
  cases hs.effect host idx with
  | none hd hgate hheld hnow =>
    rw [hd, Option.toList_none, List.append_nil]
    constructor
    · rw [hgate]
      exact h.spaced
    · rw [hgate]
      exact h.unused
    · rw [hheld]
      exact h.held_le
    · rw [hheld, hgate]
      intro hpos
      obtain ⟨t, ht, hle⟩ := h.ready hpos
      exact ⟨t, ht, hle.trans hnow⟩
  | register hd hgate hheld hnow =>
    have hfree : ¬0 < s.held host idx := by
      intro hpos
      obtain ⟨t, ht, -⟩ := h.ready hpos
      rw [hgate] at ht
      cases ht
    obtain rfl := h.unused hgate
    rw [hd, Option.toList_none, List.append_nil]
    refine ⟨fun _ _ => .nil, fun _ => rfl, ?_, ?_⟩
    · rw [hheld]
      exact h.held_le
    · rw [hheld]
      exact fun hpos => absurd hpos hfree
  | choose hd hgate hc hnext hheld hnow =>
    have hzero := hn hc hnext
    rw [hd, Option.toList_none, List.append_nil]
    refine ⟨hgate ▸ h.spaced, hgate ▸ h.unused, by omega, fun _ => ?_⟩
    rw [hgate, hnow]
    exact gate_of_getNextQindex hnext
  | @depart u hd htime hgate hheld hnow =>
    obtain ⟨t, ht, hle⟩ := h.ready (by omega)
    have hsnoc := (h.spaced t ht).snoc (htime ▸ hle)
    rw [ht, Option.map_some] at hgate
    have hone := h.held_le
    rw [hd, Option.toList_some]
    refine ⟨fun t' ht' => ?_, fun hnone => ?_, by omega, fun hpos => by omega⟩
    · rw [hgate] at ht'
      exact Option.some.inj ht' ▸ hsnoc
    · rw [hgate] at hnone
      cases hnone

theorem departures_concat (host idx : Nat) (tr : List (Machine.Taken TimedHosts TimedCall))
    (c : TimedCall) (s s' : TimedHosts) : departures host idx (tr ++ [⟨s, c, s'⟩]) =
      departures host idx tr ++ (departure host idx s c).toList := by
  rw [departures, List.filterMap_append]
  cases hd : departure host idx s c <;> simp [departures, hd]

/-- The run lemma. -/
theorem pace (h : (machine.restrict (Unnested host idx)).Trace s₀ tr s) (h₀ : Idle s₀) :
    Pace host idx (departures host idx tr) s := by
  refine h.invariant (I := fun tr s => Pace host idx (departures host idx tr) s) h₀.pace ?_
  rintro tr s c s' - hp ⟨hn, hs⟩
  rw [departures_concat]
  exact hp.step hn hs

/-! ## A reliable queue pair is never chosen twice -/

/-- The kind of a queue pair stays. -/
theorem Effect.reliable (h : Effect host idx s c s') (hg : s.gate host idx = some g) :
    ∃ g', s'.gate host idx = some g' ∧ g'.reliable = g.reliable := by
  cases h with
  | none _ hgate => exact ⟨g, hgate.trans hg, rfl⟩
  | register _ hgate =>
    rw [hg] at hgate
    cases hgate
  | choose _ hgate => exact ⟨g, hgate.trans hg, rfl⟩
  | depart _ _ hgate =>
    rw [hg] at hgate
    exact ⟨_, hgate, rfl⟩

/-- A queue pair is transmitted by the innermost frame only, and only the callback of an unreliable
one is on the stack. -/
structure Calls (host idx : Nat) (s : TimedHosts) : Prop where
  top : ∀ frame ∈ s.frames.tail, frame.transmits host idx = false
  own : ∀ frame ∈ s.frames, frame.own host idx = true →
    ∃ g, s.gate host idx = some g ∧ g.reliable = false

/-- The innermost frame goes, and others come. -/
theorem Calls.replace (h : Calls host idx s) (new : List TimedFrame)
    (heffect : Effect host idx s c s') (hf : s.frames = frame :: rest)
    (hf' : s'.frames = new ++ rest) (htop : new.tail.any (·.transmits host idx) = false)
    (hown : new.any (·.own host idx) = true → ∃ g, s.gate host idx = some g ∧ g.reliable = false) :
    Calls host idx s' := by
  have hrest : ∀ f ∈ rest, f.transmits host idx = false := by
    have htail := h.top
    rw [hf] at htail
    exact htail
  constructor
  · rw [hf']
    intro f hmem
    cases new with
    | nil => exact hrest f (List.mem_of_mem_tail hmem)
    | cons x new =>
      rcases List.mem_append.mp hmem with hmem | hmem
      · exact Bool.eq_false_iff.mpr (List.any_eq_false.mp htop f hmem)
      · exact hrest f hmem
  · rw [hf']
    intro f hmem hf
    have hbefore : ∃ g, s.gate host idx = some g ∧ g.reliable = false := by
      rcases List.mem_append.mp hmem with hmem | hmem
      · exact hown (List.any_eq_true.mpr ⟨f, hmem, hf⟩)
      · exact h.own f (by rw [‹s.frames = _›]; exact List.mem_cons_of_mem _ hmem) hf
    obtain ⟨g, hg, hkind⟩ := hbefore
    obtain ⟨g', hg', hsame⟩ := heffect.reliable hg
    exact ⟨g', hg', hsame.trans hkind⟩

/-- An event. -/
theorem Calls.enter (hf : s'.frames = [frame]) (hframe : frame.own host idx = false) :
    Calls host idx s' := by
  constructor
  · rw [hf]
    exact fun _ hmem => nomatch hmem
  · rw [hf]
    intro f hmem hown
    rw [List.mem_singleton.mp hmem, hframe] at hown
    cases hown

theorem Calls.same (h : Calls host idx s) (heffect : Effect host idx s c s')
    (hf : s'.frames = s.frames) : Calls host idx s' := by
  refine ⟨hf ▸ h.top, fun f hmem hown => ?_⟩
  obtain ⟨g, hg, hkind⟩ := h.own f (hf ▸ hmem) hown
  obtain ⟨g', hg', hsame⟩ := heffect.reliable hg
  exact ⟨g', hg', hsame.trans hkind⟩

theorem Calls.step (h : Calls host idx s) (hs : Step s c s') : Calls host idx s' := by
  have heffect := hs.effect host idx
  have hnone : ∀ {p : Prop}, false = true → p := fun hf => nomatch hf
  cases hs with
  | event => exact .enter rfl rfl
  | triggerTransmit | nextSend | transmitComplete | resume => exact .enter rfl rfl
  | pause | postSend | postSendUnreliable | enqueueHighPrioQ | setRate => exact h.same heffect rfl
  | registerQp hf =>
    exact h.replace [.nic (.dequeueAndTransmit _), .code _] heffect hf rfl rfl hnone
  | receiveAck hf | onRetrTimeout hf | sqCall hf =>
    exact h.replace [.code _] heffect hf rfl rfl hnone
  | leave hf | busy hf | nothing hf | transmitStart hf =>
    exact h.replace [] heffect hf rfl rfl hnone
  | highPrio hf | reliable hf | unreliable hf | afterOnSend hf =>
    exact h.replace [.nic (.transmitStart _ _ _)] heffect hf rfl rfl hnone
  | @onSend rest h' i sr imm s sq sq' hf hready hnext hqp hc =>
    refine h.replace [.code [], .nic (.getNextPacket _ _ _ _)] heffect hf rfl rfl ?_
    intro hown
    obtain ⟨rfl, rfl⟩ : h' = host ∧ i = idx := by simpa [TimedFrame.own] using hown
    exact ⟨_, congrArg _ hqp, rfl⟩

/-- `GetNextPacket` of a reliable queue pair calls nothing. -/
theorem Calls.unnested (h : Calls host idx s) (hs : Step s c s')
    (hrel : ∀ g, s'.gate host idx = some g → g.reliable = true) : Unnested host idx s c := by
  rintro rfl hnext
  obtain ⟨g, hg, -⟩ := gate_of_getNextQindex hnext
  obtain ⟨g', hg', hsame⟩ := (hs.effect host idx).reliable hg
  have hkind := hsame.symm.trans (hrel g' hg')
  obtain ⟨frame, rest, hf, hframe⟩ : ∃ frame rest, s.frames = frame :: rest ∧
      frame.transmits host idx = false := by
    cases hs with
    | busy hf | nothing hf | highPrio hf | reliable hf | unreliable hf | onSend hf =>
      exact ⟨_, _, hf, rfl⟩
  rw [held, List.countP_eq_zero]
  intro f hmem hholds
  rcases TimedFrame.holds_cases hholds with hown | htransmits
  · obtain ⟨g₀, hg₀, hunreliable⟩ := h.own f hmem hown
    rw [hg] at hg₀
    obtain rfl := Option.some.inj hg₀
    rw [hkind] at hunreliable
    cases hunreliable
  · rw [hf] at hmem
    rcases List.mem_cons.mp hmem with rfl | hmem
    · rw [hframe] at htransmits
      cases htransmits
    · have htail := h.top f (by rw [hf]; exact hmem)
      rw [htail] at htransmits
      cases htransmits

/-- A run in which the queue pair is not chosen from inside of its own `GetNextPacket`. -/
theorem unnested_of_reliable (h : machine.Trace s₀ tr s) (h₀ : Idle s₀) : Calls host idx s ∧
    ((∀ g, s.gate host idx = some g → g.reliable = true) →
      (machine.restrict (Unnested host idx)).Trace s₀ tr s) := by
  refine h.invariant (I := fun tr s => Calls host idx s ∧
    ((∀ g, s.gate host idx = some g → g.reliable = true) →
      (machine.restrict (Unnested host idx)).Trace s₀ tr s)) ?_ ?_
  · refine ⟨⟨?_, ?_⟩, fun _ => .nil⟩
    · rw [h₀.frames]
      exact fun _ hmem => nomatch hmem
    · rw [h₀.frames]
      exact fun _ hmem => nomatch hmem
  · rintro tr s c s' - ⟨hcalls, ih⟩ hs
    have hs : Step s c s' := hs
    refine ⟨hcalls.step hs, fun hrel => (ih fun g hg => ?_).snoc ⟨hcalls.unnested hs hrel, hs⟩⟩
    obtain ⟨g', hg', hsame⟩ := (hs.effect host idx).reliable hg
    exact hsame.symm.trans (hrel g' hg')

/-- **A queue pair does not exceed its rate.** In every run of the hosts that computes the sending
times as `UpdateNextAvail` does, with any posts, ACKs, timers, PFC frames, rates and callbacks,
between two packets of a queue pair at least the sending times of the first one and of all packets
in between have passed, so that it has not sent more than its rate allows, but for less than a
nanosecond for each packet: for a reliable queue pair always, for an unreliable one unless it is
chosen from inside of its own `GetNextPacket`. -/
theorem paced (h : (machine.restrict (AtRate hw)).Trace s₀ tr s) (h₀ : Idle s₀)
    (hq : (∃ sq, (s.nics host).qpGrp[idx]? = some (.reliable sq)) ∨
      (machine.restrict (Unnested host idx)).Trace s₀ tr s)
    (hsplit : transmissions hw host idx tr = l ++ a :: m ++ b :: r) :
    a.time + ((a :: m).map fun t => (hw host).sendingTime t.rate t.size).sum ≤ b.time ∧
      ∀ bps, (∀ t ∈ a :: m, 0 < t.rate ∧ t.rate ≤ bps) →
        ((a :: m).map TimedPacket.bits).sum * 10 ^ 9 ≤
          bps * (b.time - a.time + (a :: m).length) := by
  have hrun : (machine.restrict (Unnested host idx)).Trace s₀ tr s := by
    rcases hq with ⟨sq, hsq⟩ | hrun
    · refine (unnested_of_reliable h.of_restrict h₀).2 fun g hg => ?_
      rw [gate, hsq] at hg
      cases hg
      rfl
    · exact hrun
  have hpace := pace hrun h₀
  have hsplit := (departures_eq h host idx).trans (congrArg _ hsplit)
  have htime : a.time + ((a :: m).map fun t => (t.use (hw host)).rest).sum ≤ b.time := by
    cases hgate : s.gate host idx with
    | none =>
      rw [hpace.unused hgate] at hsplit
      exact absurd hsplit.symm (by simp)
    | some g =>
      have hspaced := hpace.spaced g hgate
      rw [hsplit] at hspaced
      simp only [List.map_append, List.map_cons] at hspaced
      have hwindow := hspaced.window
      rw [← List.map_cons, List.map_map] at hwindow
      exact hwindow
  refine ⟨htime, fun bps hbps => (TimedPacket.sum_bits_le (hw host) hbps).trans ?_⟩
  exact Nat.mul_le_mul_left _ (Nat.add_le_add_right (Nat.le_sub_of_add_le' htime) _)

/-- A host that is the only one used, at some time. -/
def hostAt (time : Nat) (nic : Nic) (events : NicEvents) (frames : List TimedFrame) : TimedHosts :=
  { oneHost nic events frames with now := time }

theorem step_hostAt {time : Nat} {nic nic' : Nic} {events events' : NicEvents}
    {frames frames' : List TimedFrame}
    (hs : Step s c ((hostAt time nic events frames).act 0 nic' events' frames')) :
    Step s c (hostAt time nic' events' frames') := by
  have hstate : (hostAt time nic events frames).act 0 nic' events' frames' =
      hostAt time nic' events' frames' :=
    congrArg (fun s : TimedHosts => { s with now := time })
      (act_oneHost nic nic' events events' frames frames')
  exact hstate ▸ hs

section
variable {s₀ s s' : TimedHosts} {tr : List (Machine.Taken TimedHosts TimedCall)} {c : TimedCall}

/-- Only `TransmitStart` has a sending time. -/
theorem trace_other (h : (machine.restrict (AtRate fun _ => {})).Trace s₀ tr s) (hs : Step s c s')
    (hc : ∀ txTime sendingTime, c ≠ .transmitStart txTime sendingTime) :
    (machine.restrict (AtRate fun _ => {})).Trace s₀ (tr ++ [⟨s, c, s'⟩]) s' :=
  h.snoc ⟨fun _ _ _ _ _ _ heq => absurd heq (hc _ _), hs⟩

/-- A packet of 1036 bytes takes 82 ns at 100 Gb/s. -/
theorem trace_packet {sq sq' : RdmaReliableSQ} {frames : List TimedFrame}
    (h : (machine.restrict (AtRate fun _ => {})).Trace s₀ tr
      (hostAt time { qpGrp := [.reliable sq] } {} (.nic (.dequeueAndTransmit 0) :: frames)))
    (hready : sq.isReadyToSend time = true) (hnext : sq.getNextPacket = some (p, sq'))
    (hrate : sq'.rate = 10 ^ 11) (hsize : (NicPacket.data p).getSize = 1036) :
    ∃ tr', (machine.restrict (AtRate fun _ => {})).Trace s₀ tr'
        (hostAt time
          { qpGrp := [.reliable { sq' with nextAvail := time + 82 }], currentPkt := some (.data p)
            transmitting := [.data p] }
          { transmitComplete := [time + 82] } frames) ∧
      transmissions (fun _ => {}) 0 0 tr' =
        transmissions (fun _ => {}) 0 0 tr ++ [⟨time, 1036, 10 ^ 11⟩] := by
  have hqindex : Nic.getNextQindex { qpGrp := [.reliable sq] } 3 time = some (.qp 0) := by
    simp [Nic.getNextQindex, Nic.maySend, SendQueue.isReadyToSend, hready, Nic.isPaused]
  have hchoose : Step
      (hostAt time { qpGrp := [.reliable sq] } {} (.nic (.dequeueAndTransmit 0) :: frames))
      (.dequeueAndTransmit 0)
      (hostAt time { qpGrp := [.reliable sq'] } {}
        (.nic (.transmitStart 0 (.data p) (some 0)) :: frames)) := by
    have hstep : Step
        (hostAt time { qpGrp := [.reliable sq] } {} (.nic (.dequeueAndTransmit 0) :: frames))
        (.dequeueAndTransmit 0) _ := .reliable rfl ⟨rfl, rfl⟩ hqindex rfl hnext
    exact step_hostAt hstep
  have hstart : Step
      (hostAt time { qpGrp := [.reliable sq'] } {}
        (.nic (.transmitStart 0 (.data p) (some 0)) :: frames)) (.transmitStart 82 82)
      (hostAt time
        { qpGrp := [.reliable { sq' with nextAvail := time + 82 }], currentPkt := some (.data p)
          transmitting := [.data p] }
        { transmitComplete := [time + 82] } frames) := by
    have hstep : Step
        (hostAt time { qpGrp := [.reliable sq'] } {}
          (.nic (.transmitStart 0 (.data p) (some 0)) :: frames)) (.transmitStart 82 82) _ :=
      .transmitStart rfl
    exact step_hostAt hstep
  have hatRate : AtRate (fun _ => {})
      (hostAt time { qpGrp := [.reliable sq'] } {}
        (.nic (.transmitStart 0 (.data p) (some 0)) :: frames)) (.transmitStart 82 82) := by
    intro txTime sendingTime host p' idx rest' hc hf
    cases hc
    cases hf
    rw [hsize, show rate (fun _ => {}) (hostAt time { qpGrp := [.reliable sq'] } {} _) 0 0 = sq'.rate
      from rfl, hrate]
    rfl
  refine ⟨_, (trace_other h hchoose (by rintro _ _ ⟨⟩)).snoc ⟨hatRate, hstart⟩, ?_⟩
  rw [transmissions, List.filterMap_append, List.filterMap_append, List.append_assoc]
  show transmissions _ 0 0 tr ++ [(⟨time, _, sq'.rate⟩ : TimedPacket)] = _
  rw [hsize, hrate]

end

theorem trace_two {sq sq₁ sq₂ : RdmaReliableSQ} (hpg : sq.pg < 8)
    (hready : sq.isReadyToSend 0 = true) (hnext : sq.getNextPacket = some (p, sq₁))
    (hready' : RdmaReliableSQ.isReadyToSend { sq₁ with nextAvail := 82 } 82 = true)
    (hnext' : RdmaReliableSQ.getNextPacket { sq₁ with nextAvail := 82 } = some (q, sq₂))
    (hrate : sq₁.rate = 10 ^ 11 ∧ sq₂.rate = 10 ^ 11)
    (hsize : (NicPacket.data p).getSize = 1036 ∧ (NicPacket.data q).getSize = 1036) :
    ∃ s tr, (machine.restrict (AtRate fun _ => {})).Trace (hostAt 0 {} {} []) tr s ∧
      transmissions (fun _ => {}) 0 0 tr = [⟨0, 1036, 10 ^ 11⟩, ⟨82, 1036, 10 ^ 11⟩] ∧
      (s.nics 0).qpGrp[0]? = some (.reliable { sq₂ with nextAvail := 164 }) := by
  let waiting : RdmaReliableSQ := { sq₁ with nextAvail := 82 }
  let sending : Nic := {
    qpGrp := [.reliable waiting], currentPkt := some (.data p), transmitting := [.data p] }
  have hevent : Step (hostAt 0 {} {} []) (.event 0) (hostAt 0 {} {} [.code []]) :=
    .event rfl ⟨le_refl _, fun _ t _ => t.zero_le⟩
  have hregister : Step (hostAt 0 {} {} [.code []]) (.registerQp 0 (.reliable sq))
      (hostAt 0 { qpGrp := [.reliable sq] } {} [.nic (.dequeueAndTransmit 0), .code []]) := by
    have hstep : Step (hostAt 0 {} {} [.code []]) (.registerQp 0 (.reliable sq)) _ :=
      .registerQp rfl codeRuns_nil hpg
    exact step_hostAt hstep
  have hleave : Step (hostAt 0 sending { transmitComplete := [82] } [.code []]) .leave
      (hostAt 0 sending { transmitComplete := [82] } []) := .leave rfl
  have hcomplete : Step (hostAt 0 sending { transmitComplete := [82] } []) (.transmitComplete 0 82)
      (hostAt 82 { qpGrp := [.reliable waiting] } {} [.nic (.dequeueAndTransmit 0)]) := by
    have hdue : (hostAt 0 sending { transmitComplete := [82] } []).Due 82 := by
      refine ⟨Nat.zero_le _, fun host t ht => ?_⟩
      by_cases hhost : host = 0
      · subst hhost
        have ht : t = 82 := by simpa [NicEvents.Pending, hostAt, oneHost, eq_comm] using ht
        exact ht.ge
      · simp [NicEvents.Pending, hostAt, oneHost, hhost] at ht
    have hstep : Step _ (.transmitComplete 0 82)
        ((hostAt 82 sending { transmitComplete := [82] } []).act 0 _ _ _) :=
      .transmitComplete rfl hdue (List.mem_singleton_self 82) rfl
    exact step_hostAt hstep
  have hregistered := trace_other (trace_other .nil hevent (by rintro _ _ ⟨⟩)) hregister
    (by rintro _ _ ⟨⟩)
  obtain ⟨tr₁, hfirst, htr₁⟩ := trace_packet hregistered hready hnext hrate.1 hsize.1
  have hcompleted := trace_other (trace_other hfirst hleave (by rintro _ _ ⟨⟩)) hcomplete
    (by rintro _ _ ⟨⟩)
  obtain ⟨tr₂, hsecond, htr₂⟩ := trace_packet hcompleted hready' hnext' hrate.2 hsize.2
  refine ⟨_, tr₂, hsecond, ?_, rfl⟩
  rw [htr₂, transmissions, List.filterMap_append, List.filterMap_append]
  show (transmissions _ 0 0 tr₁ ++ [] ++ []) ++ _ = _
  rw [htr₁]
  rfl

/-- A queue pair with 2000 bytes to send at 100 Gb/s. -/
theorem paced_two : ∃ s₀ s tr, (machine.restrict (AtRate fun _ => {})).Trace s₀ tr s ∧
    transmissions (fun _ => {}) 0 0 tr = [⟨0, 1036, 10 ^ 11⟩, ⟨82, 1036, 10 ^ 11⟩] ∧
    0 + [82].sum ≤ 82 ∧ [8288].sum * 10 ^ 9 ≤ 10 ^ 11 * (82 - 0 + 1) := by
  have hsent : ((RdmaReliableSQ.postSend { mtu := 1000, pg := 3, rate := 10 ^ 11 }
      { payloadSize := 2000 }).getNextPacket.any fun x =>
        RdmaReliableSQ.isReadyToSend { x.2 with nextAvail := 82 } 82 &&
          (RdmaReliableSQ.getNextPacket { x.2 with nextAvail := 82 }).any fun y =>
            (x.2.rate = 10 ^ 11 ∧ y.2.rate = 10 ^ 11) ∧
              (NicPacket.data x.1).getSize = 1036 ∧
                (NicPacket.data y.1).getSize = 1036) = true := by
    decide +kernel
  obtain ⟨⟨p, sq⟩, hnext, hsecond⟩ := (Option.any_eq_true _ _).mp hsent
  rw [Bool.and_eq_true] at hsecond
  obtain ⟨⟨q, sq'⟩, hnext', hboth⟩ := (Option.any_eq_true _ _).mp hsecond.2
  obtain ⟨hrate, hsize⟩ := of_decide_eq_true hboth
  obtain ⟨s, tr, htrace, htransmissions, hqp⟩ :=
    trace_two (by decide) (by decide) hnext hsecond.1 hnext' hrate hsize
  have hidle : Idle (hostAt 0 {} {} []) := by
    refine ⟨rfl, fun host => ?_, fun host => ?_⟩
    · simp [hostAt, oneHost]
    · simp [hostAt, oneHost]
  obtain ⟨htime, hbits⟩ := paced (l := []) (m := []) (r := []) htrace hidle (.inl ⟨_, hqp⟩)
    htransmissions
  refine ⟨_, s, tr, htrace, htransmissions, htime, hbits (10 ^ 11) fun t ht => ?_⟩
  rw [List.mem_singleton.mp ht]
  decide

end TimedHosts
end Roce
