import Roce.Host.Events

/-! # No host waits for ever

What makes a network card transmit is always an event: the transmitter is `BUSY` and there is a
`TransmitComplete`, or whatever may be sent is sent by a pending event, in time. Where data appears
in a send queue, `TriggerDevTransmit` is called; where `DequeueAndTransmit` leaves data behind, it
schedules `m_nextSend`. -/

namespace Roce

open Function

/-! ## The pending events -/

namespace NicEvents

variable {events : NicEvents}

/-- An event is pending that calls `DequeueAndTransmit` at this time at the latest. -/
def WakesBy (events : NicEvents) (time : Nat) : Prop := ∃ t, events.Pending t ∧ t ≤ time

theorem WakesBy.mono (h : events.WakesBy time) (hle : time ≤ time') : events.WakesBy time' := by
  obtain ⟨t, ht, hle'⟩ := h
  exact ⟨t, ht, hle'.trans hle⟩

theorem Pending.triggerDevTransmit (h : events.Pending t) (now nextAvail : Nat) :
    (events.triggerDevTransmit now nextAvail).Pending t := by
  rcases h with h | h | h
  · exact .inl (List.mem_append_left _ h)
  · exact .inr (.inl h)
  · exact .inr (.inr h)

theorem Pending.of_triggerDevTransmit (h : (events.triggerDevTransmit now nextAvail).Pending t) :
    events.Pending t ∨ now ≤ t := by
  rcases h with h | h | h
  · rcases List.mem_append.mp h with h | h
    · exact .inl (.inl h)
    · rw [List.mem_singleton.mp h]
      exact .inr (by split <;> omega)
  · exact .inl (.inr (.inl h))
  · exact .inl (.inr (.inr h))

theorem WakesBy.triggerDevTransmit (h : events.WakesBy time) (now nextAvail : Nat) :
    (events.triggerDevTransmit now nextAvail).WakesBy time := by
  obtain ⟨t, ht, hle⟩ := h
  exact ⟨t, ht.triggerDevTransmit now nextAvail, hle⟩

theorem wakesBy_triggerDevTransmit (events : NicEvents) (now nextAvail : Nat) :
    (events.triggerDevTransmit now nextAvail).WakesBy (max now nextAvail) := by
  refine ⟨_, .inl (List.mem_append_right _ (List.mem_singleton_self _)), ?_⟩
  split <;> omega

theorem Pending.of_updateNextAvail (h : (events.updateNextAvail now t).Pending time) :
    events.Pending time ∨ now ≤ time := by
  unfold updateNextAvail at h
  split at h
  next =>
    rcases h with h | h | h
    · exact .inl (.inl h)
    · rw [← Option.some.inj h]
      exact .inr (by split <;> omega)
    · exact .inl (.inr (.inr h))
  next => exact .inl h

/-- `m_nextSend` is pending afterwards, and takes place at this time at the latest. -/
theorem wakesBy_updateNextAvail (events : NicEvents) (h : now ≤ t) :
    (events.updateNextAvail now t).WakesBy t := by
  unfold updateNextAvail
  cases hnext : events.nextSend with
  | none => exact ⟨t, .inr (.inl (congrArg some (if_neg (Nat.not_lt.mpr h)))), le_refl _⟩
  | some ts =>
    rw [Option.all_some]
    split
    next => exact ⟨t, .inr (.inl (congrArg some (if_neg (Nat.not_lt.mpr h)))), le_refl _⟩
    next hle => exact ⟨ts, .inr (.inl hnext), by simpa using hle⟩

end NicEvents

/-! ## A network card that will be served -/

namespace Nic

variable {nic : Nic} {events : NicEvents}

/-- An ACK goes first. -/
theorem paused_of_getNextQindex_none (h : nic.getNextQindex ackQIdx now = none)
    (hack : nic.ackQ ≠ []) : nic.paused ackQIdx = true := by
  unfold getNextQindex at h
  split at h
  next => cases h
  next hfirst => simpa [hack] using hfirst

theorem foldl_min_le {l : List α} {p : α → Bool} {f : α → Nat} (t : WithTop Nat) :
    l.foldl (fun t x => if p x then min ↑(f x) t else t) t ≤ t ∧
      ∀ x ∈ l, p x = true → l.foldl (fun t x => if p x then min ↑(f x) t else t) t ≤ ↑(f x) := by
  induction l generalizing t with
  | nil => exact ⟨le_refl _, fun x hx => absurd hx List.not_mem_nil⟩
  | cons y l ih =>
    rw [List.foldl_cons]
    obtain ⟨hle, hmem⟩ := ih (if p y then min ↑(f y) t else t)
    constructor
    · refine hle.trans ?_
      split
      · exact min_le_right ..
      · exact le_refl _
    · intro x hx hp
      rcases List.mem_cons.mp hx with rfl | hx
      · refine hle.trans ?_
        rw [if_pos hp]
        exact min_le_left ..
      · exact hmem x hx hp

theorem wakesBy_scheduleNextSend (now : Nat) (events : NicEvents) (hqp : qp ∈ nic.qpGrp)
    (hdata : qp.hasDataToSend = true) (hpaused : nic.isPaused qp.getPg = false) :
    (nic.scheduleNextSend now events).WakesBy (max now qp.base.nextAvail) := by
  have hle : nic.nextAvailTime ≤ .some qp.base.nextAvail := by
    refine (foldl_min_le ⊤).2 qp hqp ?_
    simp [hdata, hpaused]
  have hmax : max nic.nextAvailTime (.some now) ≤ .some (max now qp.base.nextAvail) := by
    rw [WithTop.coe_max]
    exact max_le (hle.trans (le_max_right ..)) (le_max_left ..)
  have hnow : .some now ≤ max nic.nextAvailTime (.some now) := le_max_right ..
  unfold scheduleNextSend
  generalize max nic.nextAvailTime (.some now) = t at hmax hnow
  cases t with
  | top => exact absurd hmax (not_le.mpr (WithTop.coe_lt_top _))
  | coe t =>
    exact (events.wakesBy_updateNextAvail (WithTop.coe_le_coe.mp hnow)).mono
      (WithTop.coe_le_coe.mp hmax)

theorem pending_of_scheduleNextSend (h : (nic.scheduleNextSend now events).Pending t) :
    events.Pending t ∨ now ≤ t := by
  unfold scheduleNextSend at h
  split at h
  · exact .inl h
  · exact h.of_updateNextAvail

/-- Whatever may be sent at some time will be sent by an event. -/
structure Covered (nic : Nic) (events : NicEvents) (ackQIdx : Priority) (now : Nat) : Prop where
  acks : nic.ackQ ≠ [] → nic.paused ackQIdx = false → ∃ t, events.Pending t
  queuePairs : ∀ qp ∈ nic.qpGrp, qp.hasDataToSend = true → nic.isPaused qp.getPg = false →
    events.WakesBy (max now qp.base.nextAvail)

theorem Covered.advance (h : nic.Covered events ackQIdx now) (hnow : now ≤ now') :
    nic.Covered events ackQIdx now' where
  acks := h.acks
  queuePairs qp hqp hdata hpaused := (h.queuePairs qp hqp hdata hpaused).mono (by omega)

theorem Covered.pause (h : nic.Covered events ackQIdx now) (qIndex : Priority) :
    (nic.setPaused qIndex true).Covered events ackQIdx now := by
  have hpaused : ∀ q, (nic.setPaused qIndex true).paused q = false → nic.paused q = false := by
    intro q hq
    have hq : update nic.paused qIndex true q = false := hq
    rw [update_apply] at hq
    split at hq
    · cases hq
    · exact hq
  constructor
  · exact fun hack hq => h.acks hack (hpaused ackQIdx hq)
  · intro qp hqp hdata hq
    refine h.queuePairs qp hqp hdata ?_
    unfold isPaused at hq ⊢
    split
    next hpg =>
      rw [dif_pos hpg] at hq
      exact hpaused _ hq
    next => rfl

/-- A send queue changes, and calls `TriggerDevTransmit` if there is new data. -/
theorem Covered.changeQp (h : nic.Covered events ackQIdx now) (hqp : nic.qpGrp[idx]? = some qp)
    (hk : qp.Keeps qp')
    (hdata : triggers = true ∨ (qp'.hasDataToSend = true → qp.hasDataToSend = true)) :
    (nic.setQp idx qp').Covered
      (if triggers then events.triggerDevTransmit now qp'.base.nextAvail else events) ackQIdx
        now := by
  have hwakes : ∀ {time}, events.WakesBy time →
      (if triggers then events.triggerDevTransmit now qp'.base.nextAvail else events).WakesBy
        time := by
    intro time htime
    split
    · exact htime.triggerDevTransmit _ _
    · exact htime
  constructor
  · intro hack hpaused
    obtain ⟨t, ht⟩ := h.acks hack hpaused
    obtain ⟨t', ht', -⟩ := hwakes ⟨t, ht, le_refl t⟩
    exact ⟨t', ht'⟩
  · intro x hx hxdata hxpaused
    rcases List.mem_or_eq_of_mem_set hx with hx | rfl
    · exact hwakes (h.queuePairs x hx hxdata hxpaused)
    · rcases hdata with rfl | hdata
      · exact NicEvents.wakesBy_triggerDevTransmit ..
      · rw [hk.pg] at hxpaused
        have hold := hwakes (h.queuePairs qp (List.mem_of_getElem? hqp) (hdata hxdata) hxpaused)
        rwa [← hk.nextAvail] at hold

theorem Covered.enqueueHighPrioQ (h : nic.Covered events ackQIdx now) (a : AckPacket)
    (nextAvail : Nat) : Covered { nic with ackQ := nic.ackQ ++ [a] }
      (events.triggerDevTransmit now nextAvail) ackQIdx now where
  acks _ _ := by
    obtain ⟨t, ht, -⟩ := events.wakesBy_triggerDevTransmit now nextAvail
    exact ⟨t, ht⟩
  queuePairs qp hqp hdata hpaused := (h.queuePairs qp hqp hdata hpaused).triggerDevTransmit _ _

/-- `DequeueAndTransmit` leaves data behind only if it is early, and then schedules `m_nextSend`. -/
theorem covered_of_getNextQindex_none (h : nic.getNextQindex ackQIdx now = none)
    (events : NicEvents) : nic.Covered (nic.scheduleNextSend now events) ackQIdx now where
  acks hack hpaused := by
    rw [paused_of_getNextQindex_none h hack] at hpaused
    cases hpaused
  queuePairs _ hqp hdata hpaused := wakesBy_scheduleNextSend now events hqp hdata hpaused

theorem currentPkt_pktSent (nic : Nic) (lastQp : Option Nat) (nextAvail : Nat) :
    (nic.pktSent lastQp nextAvail).currentPkt = nic.currentPkt := by
  cases lastQp <;> rfl

/-- The invariant of a network card. It may also be served by a frame of the call stack. -/
structure Inv (nic : Nic) (events : NicEvents) (ackQIdx : Priority) (now : Nat) (served : Prop) :
    Prop where
  busy : nic.currentPkt.isSome → events.transmitComplete ≠ []
  covered : served ∨ (nic.Ready → nic.Covered events ackQIdx now)

theorem Inv.mono (h : nic.Inv events ackQIdx now served) (hnow : now ≤ now')
    (hs : served → served') : nic.Inv events ackQIdx now' served' where
  busy := h.busy
  covered := h.covered.imp hs fun h hready => (h hready).advance hnow

end Nic

/-! ## The invariant -/

/-- The network card that the frame will make transmit. -/
def TimedFrame.serves : TimedFrame → Option Nat
  | .nic (.dequeueAndTransmit host) | .nic (.getNextPacket host ..)
  | .nic (.transmitStart host ..) => some host
  | _ => none

namespace TimedHosts

variable {s s' : TimedHosts} {host : Nat} {frames rest : List TimedFrame}

/-- Some frame of the stack makes the network card transmit. -/
def Serves (frames : List TimedFrame) (host : Nat) : Prop := ∃ f ∈ frames, f.serves = some host

theorem serves_cons : Serves (f :: rest) host ↔ f.serves = some host ∨ Serves rest host := by
  simp [Serves]

theorem not_serves_nil : ¬Serves [] host := by simp [Serves]

def Inv (s : TimedHosts) : Prop := ∀ host,
  (s.nics host).Inv (s.events host) s.ackQIdx s.now (Serves s.frames host)

/-- One network card changes. -/
theorem Inv.act {events : NicEvents} (h : Inv s)
    (hserves : ∀ e, e ≠ host → Serves s.frames e → Serves frames e)
    (hnic : nic.Inv events s.ackQIdx s.now (Serves frames host)) :
    Inv (s.act host nic events frames) := by
  intro e
  by_cases he : e = host
  · subst he
    simpa [TimedHosts.act] using hnic
  · have hother := (h e).mono (le_refl _) (hserves e he)
    simpa [TimedHosts.act, update_of_ne he] using hother

/-- Time passes. -/
theorem Inv.advance (h : Inv s) (hdue : s.Due time) : Inv { s with now := time } := fun host =>
  (h host).mono hdue.1 id

theorem Inv.call (h : Inv s) (hserves : ∀ e, Serves s.frames e → Serves frames e) :
    Inv { s with frames := frames } := fun host => (h host).mono (le_refl _) (hserves host)

/-- An event that enters `DequeueAndTransmit`. -/
theorem Inv.enter {events : NicEvents} (h : Inv s) (hf : s.frames = [])
    (hbusy : nic.currentPkt.isSome → events.transmitComplete ≠ []) :
    Inv (s.act host nic events [.nic (.dequeueAndTransmit host)]) := by
  refine h.act (fun e _ he => ?_) ⟨hbusy, .inl (serves_cons.mpr (.inl rfl))⟩
  rw [hf] at he
  exact absurd he not_serves_nil

/-- `DequeueAndTransmit` goes on, or calls the callback. -/
theorem Inv.choose (h : Inv s) (hf : s.frames = .nic frame :: rest)
    (hframe : (TimedFrame.nic frame).serves = some host)
    (hserves : ∀ e, Serves rest e → Serves frames e)
    (hhost : Serves frames host) (hcurrent : nic.currentPkt = (s.nics host).currentPkt) :
    Inv (s.act host nic (s.events host) frames) := by
  refine h.act (fun e hne he => ?_) ⟨fun hbusy => ?_, .inl hhost⟩
  · rw [hf, serves_cons, hframe] at he
    rcases he with he | he
    · exact absurd (Option.some.inj he).symm hne
    · exact hserves e he
  · rw [hcurrent] at hbusy
    exact (h host).busy hbusy

/-- A frame ends of a network card that cannot transmit. -/
theorem Inv.leave (h : Inv s) (hf : s.frames = .nic frame :: rest)
    (hframe : (TimedFrame.nic frame).serves = some host) (hready : ¬(s.nics host).Ready) :
    Inv { s with frames := rest } := by
  intro e
  refine ⟨(h e).busy, ?_⟩
  by_cases he : e = host
  · exact .inr fun hready' => absurd (he ▸ hready') hready
  · refine (h e).covered.imp_left fun hserves => ?_
    rw [hf, serves_cons, hframe] at hserves
    exact hserves.resolve_left fun hserves => he (Option.some.inj hserves).symm

/-- A send queue changes. -/
theorem Inv.changeQp (h : Inv s) (hqp : (s.nics host).qpGrp[idx]? = some qp) (hk : qp.Keeps qp')
    (hdata : triggers = true ∨ (qp'.hasDataToSend = true → qp.hasDataToSend = true))
    (hserves : ∀ e, Serves s.frames e → Serves frames e) :
    Inv (s.changeQp host idx qp' triggers frames) := by
  refine h.act (fun e _ => hserves e) ⟨fun hbusy => ?_, ?_⟩
  · have hcomplete := (h host).busy hbusy
    split
    · exact hcomplete
    · exact hcomplete
  · exact (h host).covered.imp (hserves host) fun hcov hready => (hcov hready).changeQp hqp hk hdata

/-- The calls in a frame of code make no difference. -/
theorem serves_code (hf : s.frames = .code calls :: rest) (calls' : List QpCall) (e : Nat)
    (he : Serves s.frames e) : Serves (.code calls' :: rest) e := by
  rw [hf, serves_cons] at he
  exact serves_cons.mpr he

theorem Inv.step (h : Inv s) (hs : Step s c s') : Inv s' := by
  cases hs with
  | event hf hdue =>
    refine (h.advance hdue).call fun e he => ?_
    rw [hf] at he
    exact absurd he not_serves_nil
  | triggerTransmit hf hdue | nextSend hf hdue => exact (h.advance hdue).enter hf (h _).busy
  | transmitComplete hf hdue =>
    refine (h.advance hdue).enter hf fun hbusy => ?_
    cases hbusy
  | resume hf hdue => exact (h.advance hdue).enter hf (h _).busy
  | @pause time host qIndex _ hf hdue =>
    have hadvance := h.advance hdue
    refine hadvance.act (fun _ _ => id) ⟨(h _).busy, ?_⟩
    · rcases (hadvance host).covered with hserves | hcov
      · rw [hf] at hserves
        exact absurd hserves not_serves_nil
      · exact .inr fun hready => (hcov hready).pause qIndex
  | registerQp hf =>
    exact h.act (fun e _ he => serves_cons.mpr (.inr (hf ▸ he)))
      ⟨(h _).busy, .inl (serves_cons.mpr (.inl rfl))⟩
  | postSend hf _ hqp => exact h.changeQp hqp ⟨rfl, rfl⟩ (.inl rfl) fun _ => id
  | postSendUnreliable hf _ hqp => exact h.changeQp hqp ⟨rfl, rfl⟩ (.inl rfl) fun _ => id
  | enqueueHighPrioQ hf =>
    refine h.act (fun _ _ => id) ⟨(h _).busy, ?_⟩
    exact (h _).covered.imp_right fun hcov hready => (hcov hready).enqueueHighPrioQ _ _
  | receiveAck hf => exact h.call (serves_code hf _)
  | onRetrTimeout hf _ hqp => exact h.changeQp hqp ⟨rfl, rfl⟩ (.inr id) (serves_code hf _)
  | setRate hf hqp =>
    refine h.changeQp hqp (.setRate _ _) (.inr ?_) fun _ => id
    rw [SendQueue.hasDataToSend_setRate]
    exact id
  | sqCall hf hqp hrun =>
    obtain ⟨hk, hdata⟩ := SqCall.run_spec hrun
    exact h.changeQp hqp hk hdata (serves_code hf _)
  | leave hf =>
    refine h.call fun e he => ?_
    rw [hf, serves_cons] at he
    exact he.resolve_left (Option.some_ne_none e ∘ Eq.symm)
  | busy hf hready => exact h.leave hf rfl hready
  | nothing hf hready hnext =>
    refine h.act (fun e hne he => ?_) ⟨fun hbusy => ?_, .inr fun _ => ?_⟩
    · rw [hf, serves_cons] at he
      exact he.resolve_left fun he => hne (Option.some.inj he).symm
    · rw [hready.2] at hbusy
      cases hbusy
    · exact Nic.covered_of_getNextQindex_none hnext _
  | highPrio hf | reliable hf | unreliable hf | afterOnSend hf =>
    exact h.choose hf rfl (fun e he => serves_cons.mpr (.inr he)) (serves_cons.mpr (.inl rfl)) rfl
  | onSend hf =>
    refine h.choose hf rfl (fun e he => ?_) ?_ rfl
    · exact serves_cons.mpr (.inr (serves_cons.mpr (.inr he)))
    · exact serves_cons.mpr (.inr (serves_cons.mpr (.inl rfl)))
  | transmitStart hf =>
    refine h.act (fun e hne he => ?_) ⟨fun _ => ?_, .inr fun hready => ?_⟩
    · rw [hf, serves_cons] at he
      exact he.resolve_left fun he => hne (Option.some.inj he).symm
    · exact List.append_ne_nil_of_right_ne_nil _ (List.cons_ne_nil _ _)
    · have hcurrent := hready.2
      rw [Nic.currentPkt_pktSent] at hcurrent
      cases hcurrent

theorem Idle.inv (h : Idle s) : Inv s := by
  intro host
  rw [h.nics host]
  refine ⟨fun hbusy => ?_, .inr fun _ => ⟨fun hack => absurd rfl hack, fun _ hqp => ?_⟩⟩
  · cases hbusy
  · exact absurd hqp List.not_mem_nil

theorem inv_of_reachable (h : machine.Reachable s) : Inv s :=
  h.invariant Idle.inv fun _ h hs => h.step hs

/-! ## No event is late -/

/-- The pending events are not in the past. -/
def Future (s : TimedHosts) : Prop := ∀ host t, (s.events host).Pending t → s.now ≤ t

theorem Future.act {events : NicEvents} (h : Future s)
    (hnew : ∀ t, events.Pending t → (s.events host).Pending t ∨ s.now ≤ t) :
    Future (s.act host nic events frames) := by
  intro e t ht
  by_cases he : e = host
  · subst he
    have ht : events.Pending t := by simpa [TimedHosts.act] using ht
    exact (hnew t ht).elim (h e t) id
  · exact h e t (by simpa [TimedHosts.act, update_of_ne he] using ht)

theorem Future.changeQp (h : Future s) (host idx : Nat) (qp : SendQueue) (triggers : Bool)
    (frames : List TimedFrame) : Future (s.changeQp host idx qp triggers frames) := by
  refine h.act fun t ht => ?_
  split at ht
  · exact ht.of_triggerDevTransmit
  · exact .inl ht

theorem Future.step (h : Future s) (hs : Step s c s') : Future s' := by
  have hadvance : ∀ {time}, s.Due time → Future { s with now := time } := fun hdue => hdue.2
  cases hs with
  | event _ hdue => exact hadvance hdue
  | triggerTransmit _ hdue =>
    refine (hadvance hdue).act fun t ht => .inl ?_
    exact ht.imp_left List.mem_of_mem_erase
  | nextSend _ hdue =>
    refine (hadvance hdue).act fun t ht => .inl ?_
    rcases ht with ht | ht | ht
    · exact .inl ht
    · cases ht
    · exact .inr (.inr ht)
  | transmitComplete _ hdue =>
    refine (hadvance hdue).act fun t ht => .inl ?_
    exact ht.imp_right (.imp_right List.mem_of_mem_erase)
  | pause _ hdue | resume _ hdue => exact (hadvance hdue).act fun t ht => .inl ht
  | postSend | postSendUnreliable | onRetrTimeout | setRate | sqCall => exact h.changeQp _ _ _ _ _
  | enqueueHighPrioQ => exact h.act fun t ht => ht.of_triggerDevTransmit
  | receiveAck | leave | busy => exact h
  | registerQp | highPrio | reliable | unreliable | onSend | afterOnSend =>
    exact h.act fun t ht => .inl ht
  | nothing => exact h.act fun t ht => Nic.pending_of_scheduleNextSend ht
  | transmitStart =>
    refine h.act fun t ht => ?_
    rcases ht with ht | ht | ht
    · exact .inl (.inl ht)
    · exact .inl (.inr (.inl ht))
    · rcases List.mem_append.mp ht with ht | ht
      · exact .inl (.inr (.inr ht))
      · rw [List.mem_singleton.mp ht]
        exact .inr (Nat.le_add_right ..)

/-- An event that is pending has yet to take place. -/
theorem pending_future (h : machine.Reachable s) (ht : (s.events host).Pending t) : s.now ≤ t := by
  refine h.invariant (I := Future) (fun h0 host t ht => ?_) (fun _ h hs => h.step hs) host t ht
  rw [h0.events host] at ht
  rcases ht with ht | ht | ht
  · exact absurd ht List.not_mem_nil
  · cases ht
  · exact absurd ht List.not_mem_nil

/-- **No wake-up is lost**: between events, a network card whose link is up and that is `BUSY` has a
`TransmitComplete`; if it is `READY`, an event that calls `DequeueAndTransmit` is pending where an
ACK may be sent, and for each queue pair that has data and is not paused, one is pending in time. No
pending event is in the past. -/
theorem no_lost_wake_up (h : machine.Reachable s) (hf : s.frames = []) (host : Nat)
    (hlink : (s.nics host).linkUp = true) :
    (∀ t, (s.events host).Pending t → s.now ≤ t) ∧
    ((s.nics host).currentPkt.isSome → (s.events host).transmitComplete ≠ []) ∧
    ((s.nics host).currentPkt = none →
      ((s.nics host).ackQ ≠ [] → (s.nics host).paused s.ackQIdx = false →
        ∃ t, (s.events host).Pending t) ∧
      ∀ qp ∈ (s.nics host).qpGrp, qp.hasDataToSend = true →
        (s.nics host).isPaused qp.getPg = false →
        ∃ t, (s.events host).Pending t ∧ t ≤ max s.now qp.base.nextAvail) := by
  have hinv := inv_of_reachable h host
  refine ⟨fun t ht => pending_future h ht, hinv.busy, fun hready => ?_⟩
  rcases hinv.covered with hserves | hcov
  · rw [hf] at hserves
    exact absurd hserves not_serves_nil
  · exact ⟨(hcov ⟨hlink, hready⟩).acks, (hcov ⟨hlink, hready⟩).queuePairs⟩

/-- Hosts of which only one is used. -/
def oneHost (nic : Nic) (events : NicEvents) (frames : List TimedFrame) : TimedHosts where
  ackQIdx := 3
  nics := update (fun _ => {}) 0 nic
  events := update (fun _ => {}) 0 events
  frames := frames

theorem act_oneHost (nic nic' : Nic) (events events' : NicEvents)
    (frames frames' : List TimedFrame) :
    (oneHost nic events frames).act 0 nic' events' frames' = oneHost nic' events' frames' := by
  simp [oneHost, act]

/-- A queue pair is registered, and a request is posted to it. -/
theorem reachable_posted {sq : RdmaReliableSQ} (hpg : sq.pg < 8) (hempty : sq.toSend.isEmpty = true)
    (havail : sq.nextAvail = 0) (sr : SendRequest) :
    machine.Reachable (oneHost { qpGrp := [.reliable (sq.postSend sr)] }
      { triggerTransmit := [0] } []) := by
  have hdata : sq.hasDataToSend = false := by simp [RdmaReliableSQ.hasDataToSend, hempty]
  have hidle : Idle (oneHost {} {} []) := by
    refine ⟨rfl, fun host => ?_, fun host => ?_⟩
    · simp [oneHost]
    · simp [oneHost]
  have hdue : (oneHost {} {} []).Due 0 := ⟨le_refl _, fun _ t _ => t.zero_le⟩
  have hevent : machine.Reachable (oneHost {} {} [.code []]) :=
    (Machine.Reachable.init hidle).step (.event (s := oneHost {} {} []) rfl hdue)
  have hregister : machine.Reachable (oneHost { qpGrp := [.reliable sq] } {}
      [.nic (.dequeueAndTransmit 0), .code []]) := by
    rw [← act_oneHost {} _ {} _ [.code []]]
    exact hevent.step (.registerQp rfl codeRuns_nil hpg)
  have hnothing : machine.Reachable (oneHost { qpGrp := [.reliable sq] } {} [.code []]) := by
    have hnext : Nic.getNextQindex { qpGrp := [.reliable sq] } 3 0 = none := by
      simp [Nic.getNextQindex, Nic.maySend, SendQueue.isReadyToSend, RdmaReliableSQ.isReadyToSend,
        hdata]
    have hwake : Nic.scheduleNextSend { qpGrp := [.reliable sq] } 0 {} = {} := by
      simp [Nic.scheduleNextSend, Nic.nextAvailTime, SendQueue.hasDataToSend, hdata]
    have hstate : (oneHost { qpGrp := [.reliable sq] } {}
        [.nic (.dequeueAndTransmit 0), .code []]).act 0 { qpGrp := [.reliable sq] }
        (Nic.scheduleNextSend { qpGrp := [.reliable sq] } 0 {}) [.code []] =
        oneHost { qpGrp := [.reliable sq] } {} [.code []] := by
      rw [hwake, act_oneHost]
    exact hstate ▸ hregister.step (.nothing rfl ⟨rfl, rfl⟩ hnext)
  have hpost : Step (oneHost { qpGrp := [.reliable sq] } {} [.code []]) (.postSend 0 0 sr) _ :=
    .postSend rfl codeRuns_nil rfl
  have hstate : (oneHost { qpGrp := [.reliable sq] } {} [.code []]).changeQp 0 0
      (.reliable (sq.postSend sr)) true [.code []] =
      oneHost { qpGrp := [.reliable (sq.postSend sr)] } { triggerTransmit := [0] } [.code []] := by
    have hevents : NicEvents.triggerDevTransmit {} 0 sq.nextAvail = { triggerTransmit := [0] } := by
      rw [havail]
      rfl
    rw [← hevents]
    exact act_oneHost { qpGrp := [.reliable sq] } _ {} _ [.code []] _
  have hposted : machine.Reachable (oneHost { qpGrp := [.reliable (sq.postSend sr)] }
      { triggerTransmit := [0] } [.code []]) := hstate ▸ hnothing.step hpost
  exact hposted.step (.leave rfl)

theorem no_lost_wake_up_posted : ∃ s qp, machine.Reachable s ∧ qp ∈ (s.nics 0).qpGrp ∧
    qp.hasDataToSend = true ∧
    ∃ t, (s.events 0).Pending t ∧ s.now ≤ t ∧ t ≤ max s.now qp.base.nextAvail := by
  let sq : RdmaReliableSQ := { mtu := 1000, pg := 3 }
  let posted := sq.postSend { payloadSize := 1 }
  have hposted : machine.Reachable (oneHost { qpGrp := [.reliable posted] }
      { triggerTransmit := [0] } []) := reachable_posted (by decide) rfl rfl _
  have hmem : SendQueue.reliable posted ∈ [.reliable posted] := List.mem_singleton_self _
  obtain ⟨hfuture, -, hready⟩ := no_lost_wake_up hposted rfl 0 rfl
  obtain ⟨t, ht, hle⟩ := (hready rfl).2 (.reliable posted) hmem rfl rfl
  exact ⟨_, .reliable posted, hposted, hmem, rfl, t, ht, hfuture t ht, hle⟩

end TimedHosts
end Roce
