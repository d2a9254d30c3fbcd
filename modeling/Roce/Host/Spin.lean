import Roce.Host.WakeUps
import Roce.Lib.RoundRobin

/-! # A network card that wakes itself up at once

`DequeueAndTransmit` asks `IsReadyToSend` of the queue pairs, which also looks at the window. When
it finds nothing to send, it asks only for data and for the rate timer, and schedules `m_nextSend`
at once for a queue pair whose window is full. -/

namespace Roce

open Function

/-- The queue pair has data and its rate timer has expired, but its window is full. -/
def SendQueue.heldBack (now : Nat) : SendQueue → Bool
  | reliable sq => sq.hasDataToSend && now ≥ sq.nextAvail && sq.isWinBound
  | unreliable _ => false

/-- `UpdateNextAvail` scheduled `m_nextSend`. -/
def NicEvents.Schedules (events events' : NicEvents) (time : Nat) : Prop :=
  events'.nextSend = some time ∧ events.nextSend ≠ some time

namespace Nic

variable {nic : Nic} {events : NicEvents} {now time t : Nat}

/-- The smallest of the times is one of them. -/
theorem exists_of_foldl_min {l : List α} {p : α → Bool} {f : α → Nat} {b : WithTop Nat}
    (h : l.foldl (fun t x => if p x then min ↑(f x) t else t) b ≤ ↑time) :
    b ≤ ↑time ∨ ∃ x ∈ l, p x = true ∧ f x ≤ time := by
  induction l generalizing b with
  | nil => exact .inl h
  | cons y l ih =>
    rw [List.foldl_cons] at h
    rcases ih h with ht | ⟨x, hx, hp, hle⟩
    · split at ht
      next hp =>
        rcases min_le_iff.mp ht with hy | ht
        · exact .inr ⟨y, List.mem_cons_self, hp, WithTop.coe_le_coe.mp hy⟩
        · exact .inl ht
      next => exact .inl ht
    · exact .inr ⟨x, List.mem_cons_of_mem _ hx, hp, hle⟩

/-- Some queue pair that is not paused has data, and its rate timer has expired. -/
theorem nextAvailTime_le_iff : nic.nextAvailTime ≤ ↑time ↔
    ∃ qp ∈ nic.qpGrp, (qp.hasDataToSend && !nic.isPaused qp.getPg) = true ∧
      qp.base.nextAvail ≤ time := by
  constructor
  · intro h
    refine (exists_of_foldl_min h).resolve_left fun htop => ?_
    exact absurd (WithTop.coe_lt_top time) (not_lt.mpr htop)
  · rintro ⟨qp, hqp, hp, hle⟩
    exact ((foldl_min_le ⊤).2 qp hqp hp).trans (WithTop.coe_le_coe.mpr hle)

/-- No queue pair may send when there is nothing to send. -/
theorem maySend_of_getNextQindex_none (h : nic.getNextQindex ackQIdx now = none)
    (hqp : qp ∈ nic.qpGrp) : nic.maySend now qp = false := by
  unfold getNextQindex at h
  split at h
  next => cases h
  next =>
    obtain ⟨i, hi, rfl⟩ := List.mem_iff_getElem.mp hqp
    have hturn := RoundRobin.eq_false_of_find (Option.map_eq_none_iff.mp h) hi
    rwa [List.getElem?_eq_getElem hi, Option.any_some] at hturn

/-- A queue pair that could send but for its window. -/
theorem heldBack_iff (h : nic.getNextQindex ackQIdx now = none) (hqp : qp ∈ nic.qpGrp)
    (hpaused : nic.isPaused qp.getPg = false) :
    qp.heldBack now = true ↔ qp.hasDataToSend = true ∧ qp.base.nextAvail ≤ now := by
  have hmay := maySend_of_getNextQindex_none h hqp
  rw [maySend, hpaused] at hmay
  cases qp with
  | reliable sq =>
    simp only [SendQueue.isReadyToSend, RdmaReliableSQ.isReadyToSend] at hmay
    simp only [SendQueue.heldBack, SendQueue.hasDataToSend, SendQueue.base]
    grind
  | unreliable sq =>
    simp only [SendQueue.isReadyToSend, RdmaUnreliableSQ.isReadyToSend] at hmay
    simp only [SendQueue.heldBack, SendQueue.hasDataToSend, SendQueue.base]
    grind

/-- Some queue pair that is not paused is held back by its window only. -/
def HeldBack (nic : Nic) (now : Nat) : Prop :=
  ∃ qp ∈ nic.qpGrp, nic.isPaused qp.getPg = false ∧ qp.heldBack now = true

theorem nextAvailTime_le_iff_heldBack (h : nic.getNextQindex ackQIdx now = none) :
    nic.nextAvailTime ≤ ↑now ↔ nic.HeldBack now := by
  rw [nextAvailTime_le_iff]
  constructor
  · rintro ⟨qp, hqp, hp, hle⟩
    rw [Bool.and_eq_true, Bool.not_eq_true'] at hp
    exact ⟨qp, hqp, hp.2, (heldBack_iff h hqp hp.2).mpr ⟨hp.1, hle⟩⟩
  · rintro ⟨qp, hqp, hpaused, hheld⟩
    obtain ⟨hdata, hle⟩ := (heldBack_iff h hqp hpaused).mp hheld
    exact ⟨qp, hqp, by simp [hdata, hpaused], hle⟩

/-- `UpdateNextAvail` schedules an event at this time, if none is pending that is as early. -/
theorem schedules_updateNextAvail (hle : now ≤ t) :
    events.Schedules (events.updateNextAvail now t) time ↔
      time = t ∧ ∀ pending, events.nextSend = some pending → t < pending := by
  unfold NicEvents.updateNextAvail NicEvents.Schedules
  rw [if_neg (Nat.not_lt.mpr hle)]
  cases hnext : events.nextSend with
  | none => simp [eq_comm]
  | some pending => grind

/-- At the end of `DequeueAndTransmit`, `UpdateNextAvail` is called where some queue pair has
data. -/
theorem schedules_scheduleNextSend : events.Schedules (nic.scheduleNextSend now events) time ↔
    max nic.nextAvailTime ↑now = ↑time ∧
      ∀ pending, events.nextSend = some pending → time < pending := by
  have hle : ↑now ≤ max nic.nextAvailTime ↑now := le_max_right ..
  unfold scheduleNextSend
  generalize max nic.nextAvailTime ↑now = b at hle
  cases b with
  | top => simp [NicEvents.Schedules]
  | coe b =>
    refine (schedules_updateNextAvail (WithTop.coe_le_coe.mp hle)).trans ⟨?_, ?_⟩
    · rintro ⟨rfl, hpending⟩
      exact ⟨rfl, hpending⟩
    · rintro ⟨heq, hpending⟩
      cases WithTop.coe_injective heq
      exact ⟨rfl, hpending⟩

/-- `m_nextSend` is scheduled at this instant if a queue pair is held back and `m_nextSend` is not
pending as early. -/
theorem schedules_now_iff (h : nic.getNextQindex ackQIdx now = none) :
    (∀ time, events.Schedules (nic.scheduleNextSend now events) time → now < time) ↔
      (∃ pending ≤ now, events.nextSend = some pending) ∨ ¬nic.HeldBack now := by
  rw [← nextAvailTime_le_iff_heldBack h]
  constructor
  · intro hlater
    by_contra hnot
    obtain ⟨hpending, hheld⟩ := not_or.mp hnot
    have hnow : events.Schedules (nic.scheduleNextSend now events) now := by
      refine schedules_scheduleNextSend.mpr ⟨max_eq_right (not_not.mp hheld), fun t ht => ?_⟩
      exact Nat.lt_of_not_le fun hle => hpending ⟨t, hle, ht⟩
    exact absurd (hlater now hnow) (Nat.lt_irrefl now)
  · rintro hcond time hs
    obtain ⟨hmax, hpending⟩ := schedules_scheduleNextSend.mp hs
    have hle : now ≤ time := WithTop.coe_le_coe.mp ((le_max_right ..).trans hmax.le)
    rcases hcond with ⟨t, ht, hnext⟩ | hheld
    · exact absurd (hpending t hnext) (by omega)
    · refine Nat.lt_of_le_of_ne hle fun heq => hheld ?_
      rw [heq, ← hmax]
      exact le_max_left ..

theorem scheduleNextSend_heldBack (h : nic.getNextQindex ackQIdx now = none)
    (hheld : nic.HeldBack now) (hnext : events.nextSend = some now) :
    nic.scheduleNextSend now { events with nextSend := none } = events := by
  have hmax : max nic.nextAvailTime ↑now = some now :=
    max_eq_right ((nextAvailTime_le_iff_heldBack h).mpr hheld)
  rw [scheduleNextSend, hmax]
  simp [NicEvents.updateNextAvail, ← hnext]

end Nic

namespace TimedHosts

variable {s s' : TimedHosts} {host : Nat}

/-- `DequeueAndTransmit` that finds nothing to send. -/
theorem Step.of_nothing (hs : Step s (.dequeueAndTransmit host) s') (hready : (s.nics host).Ready)
    (hnone : (s.nics host).getNextQindex s.ackQIdx s.now = none) :
    ∃ rest, s.frames = .nic (.dequeueAndTransmit host) :: rest ∧
      s' = s.act host (s.nics host) ((s.nics host).scheduleNextSend s.now (s.events host))
        rest := by
  cases hs with
  | busy _ hbusy => exact absurd hready hbusy
  | nothing hf => exact ⟨_, hf, rfl⟩
  | highPrio _ _ hnext | reliable _ _ hnext | unreliable _ _ hnext | onSend _ _ hnext =>
    rw [hnone] at hnext
    cases hnext

/-- The first packet of a request is sent, for 80 ns, and `TransmitComplete` enters
`DequeueAndTransmit`. -/
theorem reachable_sent {sq : RdmaReliableSQ} (hpg : sq.pg < 8) (hempty : sq.toSend.isEmpty = true)
    (havail : sq.nextAvail = 0) (hready : (sq.postSend sr).isReadyToSend 0 = true)
    (hnext : (sq.postSend sr).getNextPacket = some (p, sq')) :
    machine.Reachable { oneHost { qpGrp := [.reliable { sq' with nextAvail := 80 }] } {}
      [.nic (.dequeueAndTransmit 0)] with now := 80 } := by
  have htrigger : machine.Reachable (oneHost { qpGrp := [.reliable (sq.postSend sr)] } {}
      [.nic (.dequeueAndTransmit 0)]) := by
    have hdue : (oneHost
        { qpGrp := [.reliable (sq.postSend sr)] } { triggerTransmit := [0] } []).Due
        0 := ⟨le_refl _, fun _ t _ => t.zero_le⟩
    have hstep : Step _ (.triggerTransmit 0 0) _ :=
      .triggerTransmit rfl hdue (List.mem_singleton_self 0)
    exact act_oneHost _ _ _ _ [] _ ▸ (reachable_posted hpg hempty havail sr).step hstep
  have hchosen : machine.Reachable (oneHost { qpGrp := [.reliable sq'] } {}
      [.nic (.transmitStart 0 (.data p) (some 0))]) := by
    have hqindex : Nic.getNextQindex { qpGrp := [.reliable (sq.postSend sr)] } 3 0 =
      some (.qp 0) := by
      simp [Nic.getNextQindex, Nic.maySend, SendQueue.isReadyToSend, hready, Nic.isPaused]
    have hstep : Step (oneHost { qpGrp := [.reliable (sq.postSend sr)] } {}
        [.nic (.dequeueAndTransmit 0)]) (.dequeueAndTransmit 0) _ :=
      .reliable rfl ⟨rfl, rfl⟩ hqindex rfl hnext
    exact act_oneHost _ _ _ _ _ _ ▸ htrigger.step hstep
  have hstarted : machine.Reachable (oneHost {
      qpGrp := [.reliable { sq' with nextAvail := 80 }]
      currentPkt := some (.data p), transmitting := [.data p] }
      { transmitComplete := [80] } []) := by
    have hstep : Step (oneHost { qpGrp := [.reliable sq'] } {}
        [.nic (.transmitStart 0 (.data p) (some 0))]) (.transmitStart 80 80) _ := .transmitStart rfl
    exact act_oneHost _ _ _ _ _ _ ▸ hchosen.step hstep
  have hdue : (oneHost {
      qpGrp := [.reliable { sq' with nextAvail := 80 }]
      currentPkt := some (.data p), transmitting := [.data p] }
      { transmitComplete := [80] } []).Due 80 := by
    refine ⟨Nat.zero_le _, fun host t ht => ?_⟩
    by_cases hhost : host = 0
    · subst hhost
      have ht : t = 80 := by simpa [NicEvents.Pending, oneHost, eq_comm] using ht
      exact ht.ge
    · simp [NicEvents.Pending, oneHost, hhost] at ht
  have hstep : Step _ (.transmitComplete 0 80) _ :=
    .transmitComplete rfl hdue (List.mem_singleton_self 80) rfl
  have hstate := hstarted.step hstep
  exact congrArg (fun s : TimedHosts => { s with now := 80 }) (act_oneHost _ _ _ _ [] _) ▸ hstate

/-- **When a network card does not wake itself up at once**: the event that `UpdateNextAvail`
schedules when there is nothing to send is later than now, unless there is a queue pair, not paused,
whose window alone holds it back and `m_nextSend` is not yet pending at this instant. -/
theorem wakes_later_iff (hs : Step s (.dequeueAndTransmit host) s') (hready : (s.nics host).Ready)
    (hnone : (s.nics host).getNextQindex s.ackQIdx s.now = none) :
    (∀ time, (s.events host).Schedules (s'.events host) time → s.now < time) ↔
      (∃ pending ≤ s.now, (s.events host).nextSend = some pending) ∨
        ¬(s.nics host).HeldBack s.now := by
  obtain ⟨rest, -, rfl⟩ := hs.of_nothing hready hnone
  rw [← Nic.schedules_now_iff hnone]
  simp [act]

/-- A queue pair with data, limited by its rate. -/
theorem wakes_later_limited : ∃ s s', Step s (.dequeueAndTransmit 0) s' ∧
    (s'.events 0).nextSend = some 100 ∧
    ∀ time, (s.events 0).Schedules (s'.events 0) time → s.now < time := by
  let sq := RdmaReliableSQ.postSend { mtu := 1000, pg := 3, nextAvail := 100 } { payloadSize := 1 }
  let t := oneHost { qpGrp := [.reliable sq] } {} [.nic (.dequeueAndTransmit 0)]
  have hnone : (t.nics 0).getNextQindex t.ackQIdx t.now = none := by decide
  have hstep : Step t (.dequeueAndTransmit 0) _ := .nothing rfl ⟨rfl, rfl⟩ hnone
  refine ⟨t, _, hstep, by decide, (wakes_later_iff hstep ⟨rfl, rfl⟩ hnone).mpr (.inr ?_)⟩
  rintro ⟨qp, hqp, -, hheld⟩
  rw [List.mem_singleton.mp hqp] at hheld
  cases hheld

/-- A window of 1000 bytes, and a request of 2000: the second packet has to wait for an ACK, and the
wake-up takes place at once. -/
theorem not_wakes_later : ¬∀ s s' host, machine.Reachable s → Step s (.dequeueAndTransmit host) s' →
    (s.nics host).Ready → (s.nics host).getNextQindex s.ackQIdx s.now = none →
    ∀ time, (s.events host).Schedules (s'.events host) time → s.now < time := by
  intro hlater
  let sq : RdmaReliableSQ := { mtu := 1000, pg := 3, win := 1000 }
  have hsent : ((sq.postSend { payloadSize := 2000 }).getNextPacket.any fun x =>
      x.2.hasDataToSend && x.2.isWinBound) = true := by decide +kernel
  obtain ⟨⟨p, sq'⟩, hnext, hheld⟩ := (Option.any_eq_true _ _).mp hsent
  rw [Bool.and_eq_true] at hheld
  let waiting : RdmaReliableSQ := { sq' with nextAvail := 80 }
  let t := {
    oneHost { qpGrp := [.reliable waiting] } {} [.nic (.dequeueAndTransmit 0)] with now := 80 }
  have hdata : waiting.hasDataToSend = true := hheld.1
  have hfull : waiting.isWinBound = true := hheld.2
  have hreach : machine.Reachable t := reachable_sent (by decide) rfl rfl (by decide) hnext
  have hnone : (t.nics 0).getNextQindex t.ackQIdx t.now = none := by
    simp [t, oneHost, Nic.getNextQindex, Nic.maySend, SendQueue.isReadyToSend,
      RdmaReliableSQ.isReadyToSend, hfull]
  have hstep : Step t (.dequeueAndTransmit 0) _ := .nothing rfl ⟨rfl, rfl⟩ hnone
  have hheld : (t.nics 0).HeldBack t.now :=
    ⟨_, List.mem_singleton_self _, by simp [Nic.isPaused, t, oneHost],
      by simp [SendQueue.heldBack, t, hdata, hfull, waiting]⟩
  have hcond : (∃ pending ≤ t.now, (t.events 0).nextSend = some pending) ∨
      ¬(t.nics 0).HeldBack t.now := by
    apply (Nic.schedules_now_iff hnone).mp
    intro time hs
    refine hlater t _ 0 hreach hstep ⟨rfl, rfl⟩ hnone time ?_
    simpa [act] using hs
  rcases hcond with ⟨pending, -, hpending⟩ | hfree
  · cases hpending
  · exact hfree hheld

/-- While a queue pair is held back by its window, `m_nextSend` leads to the same state. -/
theorem spin (hf : s.frames = []) (hdue : s.Due s.now) (hready : (s.nics host).Ready)
    (hnone : (s.nics host).getNextQindex s.ackQIdx s.now = none)
    (hheld : (s.nics host).HeldBack s.now) (hnext : (s.events host).nextSend = some s.now) :
    machine.Run s [.nextSend host s.now, .dequeueAndTransmit host] s := by
  let t := s.act host (s.nics host) { s.events host with nextSend := none }
    [.nic (.dequeueAndTransmit host)]
  have hexpire : Step s (.nextSend host s.now) t := .nextSend hf hdue hnext
  have hnic : t.nics host = s.nics host := update_self ..
  have hnothing : Step t (.dequeueAndTransmit host) _ :=
    .nothing rfl (hnic ▸ hready) (hnic ▸ hnone)
  have hevents : (t.nics host).scheduleNextSend t.now (t.events host) = s.events host := by
    rw [hnic, show t.events host = _ from update_self ..]
    exact Nic.scheduleNextSend_heldBack hnone hheld hnext
  have hback : t.act host (t.nics host) (s.events host) [] = s := by
    simp [t, act, ← hf]
  rw [hevents, hback] at hnothing
  exact (Machine.Run.single hexpire).append (.single hnothing)

/-- **The simulation does not go on**: the two steps repeat, any number of times, at one instant. -/
theorem spins (hf : s.frames = []) (hdue : s.Due s.now) (hready : (s.nics host).Ready)
    (hnone : (s.nics host).getNextQindex s.ackQIdx s.now = none)
    (hheld : (s.nics host).HeldBack s.now) (hnext : (s.events host).nextSend = some s.now)
    (n : Nat) :
    machine.Run s
      (List.replicate n [.nextSend host s.now, .dequeueAndTransmit host]).flatten s := by
  induction n with
  | zero => exact .nil
  | succ n ih =>
    rw [List.replicate_succ, List.flatten_cons]
    exact (spin hf hdue hready hnone hheld hnext).append ih

end TimedHosts
end Roce
