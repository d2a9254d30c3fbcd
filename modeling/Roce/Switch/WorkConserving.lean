import Roce.Switch.EgressService
import Roce.Switch.PfcFrames

/-! # The ports of a switch do not idle

Between two events, a port that is up and not busy has no packet that it may send: its queue 0 is
empty, and the others are empty or paused. -/

namespace Roce

open Function

namespace SwitchNode

variable {s s' t : SwitchNode} {except except' : Port → Prop} {p : SwitchPacket} {a : Arrival}

/-- What a switch does not change of its devices while it forwards packets. -/
structure SameDevices (s s' : SwitchNode) : Prop where
  linkUp : ∀ port, (s'.devices port).linkUp = (s.devices port).linkUp
  qbbEnabled : ∀ port, (s'.devices port).qbbEnabled = (s.devices port).qbbEnabled
  paused : ∀ port, (s'.devices port).paused = (s.devices port).paused
  maxSize : ∀ port, (s'.devices port).queue.maxSize = (s.devices port).queue.maxSize

theorem SameDevices.of_eq (h : s'.devices = s.devices) : SameDevices s s' :=
  ⟨fun _ => by rw [h], fun _ => by rw [h], fun _ => by rw [h], fun _ => by rw [h]⟩

theorem SameDevices.trans (h : SameDevices s t) (h' : SameDevices t s') : SameDevices s s' :=
  ⟨fun e => (h'.linkUp e).trans (h.linkUp e), fun e => (h'.qbbEnabled e).trans (h.qbbEnabled e),
    fun e => (h'.paused e).trans (h.paused e), fun e => (h'.maxSize e).trans (h.maxSize e)⟩

theorem SameDevices.setDevice {device : SwitchDevice}
    (hup : device.linkUp = (s.devices port).linkUp)
    (hqbb : device.qbbEnabled = (s.devices port).qbbEnabled)
    (hpaused : device.paused = (s.devices port).paused)
    (hmax : device.queue.maxSize = (s.devices port).queue.maxSize) :
    SameDevices s (s.setDevice port device) := by
  have hdevice : ∀ e, (s.setDevice port device).devices e =
      if e = port then device else s.devices e := fun e => update_apply ..
  constructor <;> intro e <;> rw [hdevice] <;> split
  all_goals first
    | rfl
    | next he => rw [he]; assumption

/-- A port that is up and not busy has nothing that it may send. -/
def Settled (s : SwitchNode) (port : Port) : Prop :=
  (s.devices port).linkUp = true → (s.devices port).currentPkt = none →
    (s.devices port).queue.dequeueRR (s.devices port).paused = none

/-- The counters of the queues are right and have room for a PFC frame, and the ports are settled,
unless one is about to transmit. -/
structure Working (except : Port → Prop) (s : SwitchNode) : Prop where
  counted : ∀ port, (s.devices port).queue.Counted
  room : ∀ port, (s.devices port).queue.maxSize + 31 < 2 ^ 32
  settled : ∀ port, ¬except port → s.Settled port

namespace Working

theorem mono (h : Working except s) (hsub : ∀ e, except e → except' e) : Working except' s :=
  ⟨h.counted, h.room, fun port hport => h.settled port fun he => hport (hsub port he)⟩

theorem of_eq (h : Working except s) (hdevices : s'.devices = s.devices) : Working except s' := by
  constructor
  case counted => exact hdevices ▸ h.counted
  case room => exact hdevices ▸ h.room
  case settled =>
    intro port hport
    rw [Settled, hdevices]
    exact h.settled port hport

/-- One device changes. -/
theorem setDevice {device : SwitchDevice} (h : Working except s) (hcounted : device.queue.Counted)
    (hmax : device.queue.maxSize = (s.devices port).queue.maxSize) :
    Working (fun e => except e ∨ e = port) (s.setDevice port device) := by
  have hdevice : ∀ e, (s.setDevice port device).devices e =
      if e = port then device else s.devices e := fun e => update_apply ..
  constructor
  case counted =>
    intro e
    rw [hdevice]
    split
    · exact hcounted
    · exact h.counted e
  case room =>
    intro e
    rw [hdevice]
    split
    · rw [hmax]
      exact h.room port
    · exact h.room e
  case settled =>
    intro e he
    rw [not_or] at he
    rw [Settled, hdevice, if_neg he.2]
    exact h.settled e he.1

/-- A port that transmits is busy. -/
theorem busy (h : Working (fun e => except e ∨ e = port) s)
    (hbusy : (s.devices port).currentPkt.isSome) : Working except s := by
  refine ⟨h.counted, h.room, fun e he => ?_⟩
  by_cases heq : e = port
  · subst heq
    intro _ hidle
    rw [hidle] at hbusy
    cases hbusy
  · exact h.settled e (not_or.mpr ⟨he, heq⟩)

/-- A port that is settled anyway. -/
theorem settle (h : Working except s) (hport : s.Settled port) :
    Working (fun e => except e ∧ e ≠ port) s := by
  refine ⟨h.counted, h.room, fun e he => ?_⟩
  by_cases heq : e = port
  · exact heq ▸ hport
  · exact h.settled e fun hexcept => he ⟨hexcept, heq⟩

theorem enqueue (h : Working except s) (hpos : 0 < p.size)
    (hfits : (s.devices port).queue.maxSize + p.size < 2 ^ 32) (qIndex : Priority) :
    Working (fun e => except e ∨ e = port) (s.enqueue port qIndex p) ∧
      SameDevices s (s.enqueue port qIndex p) := by
  unfold SwitchNode.enqueue
  split
  next queue hq =>
    have hmax : queue.maxSize = (s.devices port).queue.maxSize := by
      unfold BEgressQueue.enqueue at hq
      split at hq
      · cases hq
        rfl
      · cases hq
    exact ⟨h.setDevice ((h.counted port).enqueue hpos hfits hq) hmax, .setDevice rfl rfl rfl hmax⟩
  next =>
    have hrefused : Working except { s with refused := s.refused ++ [⟨port, qIndex, p⟩] } :=
      h.of_eq rfl
    exact ⟨hrefused.mono fun _ he => Or.inl he, .of_eq rfl⟩

theorem dequeue (h : Working except s) (hd : s.dequeue port = some (held, s')) :
    Working (fun e => except e ∨ e = port) s' ∧ SameDevices s s' := by
  obtain ⟨⟨p, queue⟩, hq, hd⟩ := Option.bind_eq_some_iff.mp hd
  have hmax : queue.maxSize = (s.devices port).queue.maxSize := by
    obtain ⟨_, -, hq⟩ := Option.bind_eq_some_iff.mp hq
    obtain ⟨_, -, hq⟩ := Option.bind_eq_some_iff.mp hq
    cases hq
    rfl
  cases hd
  have hset : Working (fun e => except e ∨ e = port)
      (s.setDevice port { s.devices port with queue }) :=
    h.setDevice ((h.counted port).dequeueRR hq) hmax
  have hsame : SameDevices s (s.setDevice port { s.devices port with queue }) :=
    .setDevice rfl rfl rfl hmax
  exact ⟨hset.of_eq rfl, hsame.trans (.of_eq rfl)⟩

end Working

/-! ## The calls -/

/-- A function that leaves its port settled. -/
def KeepsWorking (transmit : Port → SwitchNode → Option SwitchNode) : Prop :=
  ∀ {except port s s'}, Working except s → transmit port s = some s' →
    Working (fun e => except e ∧ e ≠ port) s' ∧ SameDevices s s'

section
variable {transmit : Port → SwitchNode → Option SwitchNode} (ht : KeepsWorking transmit)
include ht

theorem Working.switchSend (h : Working except s)
    (hs : switchSend transmit port qIndex p s = some s')
    (hpos : 0 < p.size) (hfits : (s.devices port).queue.maxSize + p.size < 2 ^ 32) :
    Working except s' ∧ SameDevices s s' := by
  obtain ⟨hqueued, hsame⟩ := h.enqueue hpos hfits qIndex
  obtain ⟨hsent, hsame'⟩ := ht hqueued hs
  exact ⟨hsent.mono fun e he => he.1.resolve_right he.2, hsame.trans hsame'⟩

theorem Working.sendPfc (h : Working except s)
    (hs : sendPfc transmit port qIndex type s = some s') :
    Working except s' ∧ SameDevices s s' := by
  have halloc : Working except s.alloc := h.of_eq rfl
  obtain ⟨hsent, hsame⟩ := halloc.switchSend ht hs (Nat.succ_pos 30) (h.room port)
  have hdevices : SameDevices s s.alloc := .of_eq rfl
  exact ⟨hsent, hdevices.trans hsame⟩

theorem Working.checkAndSendPfc (h : Working except s)
    (hs : checkAndSendPfc transmit inDev qIndex s = some s') :
    Working except s' ∧ SameDevices s s' := by
  obtain ⟨-, t, hsend, rfl⟩ | ⟨-, rfl⟩ := checkAndSendPfc_cases hs
  · obtain ⟨hsent, hsame⟩ := h.sendPfc ht hsend
    exact ⟨hsent.of_eq rfl, hsame.trans (.of_eq rfl)⟩
  · exact ⟨h, .of_eq rfl⟩

theorem Working.checkAndSendResume (h : Working except s)
    (hs : checkAndSendResume transmit inDev qIndex s = some s') :
    Working except s' ∧ SameDevices s s' := by
  obtain ⟨-, t, hsend, rfl⟩ | ⟨-, rfl⟩ := checkAndSendResume_cases hs
  · obtain ⟨hsent, hsame⟩ := h.sendPfc ht hsend
    exact ⟨hsent.of_eq rfl, hsame.trans (.of_eq rfl)⟩
  · exact ⟨h, .of_eq rfl⟩

theorem Working.switchNotifyDequeue (h : Working except s)
    (hs : switchNotifyDequeue transmit held s = some s') :
    Working except s' ∧ SameDevices s s' := by
  obtain ⟨-, rfl⟩ | ⟨-, inDev, t, -, hrelease, hs⟩ := switchNotifyDequeue_cases hs
  · exact ⟨h, .of_eq rfl⟩
  · have hdevices : t.devices = s.devices := by
      obtain ⟨_, _, _, -, -, -, rfl⟩ := release_spec hrelease
      rfl
    obtain ⟨hsent, hsame⟩ := (h.of_eq hdevices).checkAndSendResume ht hs
    exact ⟨hsent, (SameDevices.of_eq hdevices).trans hsame⟩

end

/-- `TransmitStart` makes the port busy. -/
theorem Working.transmitStart (h : Working (fun e => except e ∨ e = port) s)
    (hs : transmitStart port p s = some s') : Working except s' ∧ SameDevices s s' := by
  obtain ⟨-, rfl⟩ := transmitStart_cases hs
  have hset : Working (fun e => (except e ∨ e = port) ∨ e = port)
      (s.setDevice port { s.devices port with currentPkt := some p }) :=
    h.setDevice (h.counted port) rfl
  have honly : Working (fun e => except e ∨ e = port)
      (s.setDevice port { s.devices port with currentPkt := some p }) :=
    hset.mono fun e he => he.elim id Or.inr
  refine ⟨honly.busy ?_, .setDevice rfl rfl rfl rfl⟩
  dsimp only [SwitchNode.setDevice]
  rw [update_self]
  rfl

theorem keepsWorking_dequeueAndTransmit (fuel : Nat) : KeepsWorking (dequeueAndTransmit fuel) := by
  induction fuel with
  | zero => exact fun _ hs => nomatch hs
  | succ fuel ih =>
    intro except port s s' h hs
    unfold dequeueAndTransmit at hs
    split at hs
    next hbusy =>
      cases hs
      refine ⟨h.settle fun hup hidle => ?_, .of_eq rfl⟩
      rw [hup, hidle] at hbusy
      cases hbusy
    next =>
      split at hs
      next hd =>
        cases hs
        refine ⟨h.settle fun _ _ => Option.eq_none_iff_forall_ne_some.mpr fun a ha => ?_,
          .of_eq rfl⟩
        exact absurd (Option.bind_eq_none_iff.mp hd a ha) (Option.some_ne_none _)
      next held t hd =>
        obtain ⟨u, hnotify, hs⟩ := Option.bind_eq_some_iff.mp hs
        obtain ⟨hdequeued, hsame⟩ := h.dequeue hd
        obtain ⟨hnotified, hsame'⟩ := hdequeued.switchNotifyDequeue ih hnotify
        have hworking : Working (fun e => (except e ∧ e ≠ port) ∨ e = port) u := by
          refine hnotified.mono fun e he => ?_
          by_cases heq : e = port
          · exact .inr heq
          · exact .inl ⟨he.resolve_right heq, heq⟩
        obtain ⟨hsent, hsame''⟩ := hworking.transmitStart hs
        exact ⟨hsent, (hsame.trans hsame').trans hsame''⟩

section
variable {transmit : Port → SwitchNode → Option SwitchNode} (ht : KeepsWorking transmit)
include ht

theorem Working.sendToDev (h : Working except s) (hs : sendToDev transmit ch junk p s = some s')
    (hpos : 0 < p.size) (hfits : ∀ port, (s.devices port).queue.maxSize + p.size < 2 ^ 32) :
    Working except s' ∧ SameDevices s s' := by
  obtain rfl | ⟨port, qIndex, inDev, -, -, ⟨-, hs⟩ | ⟨-, -, t, hpfc, hs⟩⟩ := sendToDev_cases hs
  · exact ⟨h, .of_eq rfl⟩
  · have hcount : Working except (s.countBytes inDev ⟨port, qIndex, p⟩) := h.of_eq rfl
    have hdevices : SameDevices s (s.countBytes inDev ⟨port, qIndex, p⟩) := .of_eq rfl
    obtain ⟨hsent, hsame⟩ := hcount.switchSend ht hs hpos (hfits port)
    exact ⟨hsent, hdevices.trans hsame⟩
  · have hcharge : Working except (s.charge inDev ⟨port, qIndex, p⟩) := h.of_eq rfl
    have hdevices : SameDevices s (s.charge inDev ⟨port, qIndex, p⟩) := .of_eq rfl
    obtain ⟨hpaused, hsame⟩ := hcharge.checkAndSendPfc ht hpfc
    have hcount : Working except (t.countBytes inDev ⟨port, qIndex, p⟩) := hpaused.of_eq rfl
    have hdevices' : SameDevices t (t.countBytes inDev ⟨port, qIndex, p⟩) := .of_eq rfl
    have hmax := (hdevices.trans hsame).maxSize port
    obtain ⟨hsent, hsame'⟩ := hcount.switchSend ht hs hpos (hmax ▸ hfits port)
    exact ⟨hsent, ((hdevices.trans hsame).trans hdevices').trans hsame'⟩

theorem Working.sendAll {tosend : List Held} (h : Working except s)
    (hpos : ∀ held ∈ tosend, 0 < held.packet.size)
    (hfits : ∀ held ∈ tosend, ∀ port, (s.devices port).queue.maxSize + held.packet.size < 2 ^ 32)
    (hs : tosend.foldlM
      (fun s h => SwitchNode.switchSend transmit h.port h.qIndex h.packet s) s = some s') :
    Working except s' ∧ SameDevices s s' := by
  induction tosend generalizing s with
  | nil =>
    cases hs
    exact ⟨h, .of_eq rfl⟩
  | cons held tosend ih =>
    rw [List.foldlM_cons] at hs
    obtain ⟨t, hsend, hs⟩ := Option.bind_eq_some_iff.mp hs
    obtain ⟨hfirst, hsame⟩ := h.switchSend ht hsend (hpos held List.mem_cons_self)
      (hfits held List.mem_cons_self held.port)
    obtain ⟨hrest, hsame'⟩ := ih hfirst (fun x hx => hpos x (List.mem_cons_of_mem _ hx))
      (fun x hx port => by rw [hsame.maxSize]; exact hfits x (List.mem_cons_of_mem _ hx) port) hs
    exact ⟨hrest, hsame.trans hsame'⟩

theorem Working.sendMultiToDevs {port : Port} (h : Working except s)
    (hs : sendMultiToDevs transmit ch junk p port s = some s') (hpos : 0 < p.size)
    (hfits : ∀ port, (s.devices port).queue.maxSize + p.size < 2 ^ 32) :
    Working except s' ∧ SameDevices s s' := by
  obtain rfl | ⟨group, qIndex, inDev, t, tosend, u, -, -, -, hadmit, hpfc, hs⟩ :=
    sendMultiToDevs_cases hs
  · exact ⟨h, .of_eq rfl⟩
  · obtain ⟨hdevices, hsize⟩ : t.devices = s.devices ∧ ∀ held ∈ tosend,
      held.packet.size = p.size := by
      refine foldlM_invariant (I := fun _ (st : SwitchNode × List Held) =>
        st.1.devices = s.devices ∧ ∀ held ∈ st.2, held.packet.size = p.size) ?_
        ⟨rfl, fun _ h => absurd h List.not_mem_nil⟩ hadmit
      rintro idx - st st' ⟨hsame, hold⟩ hs
      have hnew : ∀ port, ∀ held ∈ st.2 ++ [⟨port, qIndex, { p with ptr := st.1.nextPtr }⟩],
          held.packet.size = p.size := by
        intro port held hmem
        rcases List.mem_append.mp hmem with hmem | hmem
        · exact hold held hmem
        · rw [List.mem_singleton.mp hmem]
      obtain ⟨port, ⟨-, rfl⟩ | ⟨-, rfl⟩ | ⟨-, -, rfl⟩⟩ := admitCopy_cases hs
      · exact ⟨hsame, hnew port⟩
      · exact ⟨hsame, hold⟩
      · exact ⟨hsame, hnew port⟩
    have hu : Working except u ∧ SameDevices s u := by
      obtain ⟨-, rfl⟩ | ⟨-, hpfc⟩ := hpfc
      · exact ⟨h.of_eq hdevices, .of_eq hdevices⟩
      · obtain ⟨hpaused, hsame⟩ := (h.of_eq hdevices).checkAndSendPfc ht hpfc
        exact ⟨hpaused, (SameDevices.of_eq hdevices).trans hsame⟩
    obtain ⟨hsent, hsame⟩ := hu.1.sendAll ht (fun held hmem => by rw [hsize held hmem]; exact hpos)
      (fun held hmem e => by rw [hsize held hmem, hu.2.maxSize]; exact hfits e) hs
    exact ⟨hsent, hu.2.trans hsame⟩

end

/-! ## The events -/

/-- Without the port, or with more that is paused, nothing more may be sent. -/
theorem Settled.pause (h : s.Settled port) (hcounted : (s.devices port).queue.Counted)
    (qIndex : Priority) : (s.setPaused port qIndex true).Settled port := by
  intro hup hidle
  dsimp only [setPaused, SwitchNode.setDevice] at hup hidle ⊢
  rw [update_self] at hup hidle ⊢
  have hnone := h hup hidle
  rw [← Option.not_isSome_iff_eq_none, hcounted.dequeueRR_isSome] at hnone ⊢
  intro hmay
  refine hnone (hmay.imp id fun ⟨q, hq, hpaused⟩ => ⟨q, hq, ?_⟩)
  dsimp only at hpaused
  rw [update_apply] at hpaused
  split at hpaused
  · cases hpaused
  · exact hpaused

theorem Working.setPaused (h : Working except s) (port : Port) (qIndex : Priority) (value : Bool) :
    Working (fun e => except e ∨ e = port) (s.setPaused port qIndex value) :=
  h.setDevice (h.counted port) rfl

/-- The sizes of what arrives have room in the counters of the queues. -/
def Room (s : SwitchNode) : SwitchEvent → Prop
  | .receive _ a => 0 < a.size ∧ ∀ port, (s.devices port).queue.maxSize + a.size < 2 ^ 32
  | .transmitComplete _ => True

instance (s : SwitchNode) : (e : SwitchEvent) → Decidable (s.Room e)
  | .receive _ a => inferInstanceAs
    (Decidable (0 < a.size ∧ ∀ port, (s.devices port).queue.maxSize + a.size < 2 ^ 32))
  | .transmitComplete _ => .isTrue trivial

section
variable {transmit : Port → SwitchNode → Option SwitchNode} (ht : KeepsWorking transmit)
include ht

/-- After an event, all ports are settled again. -/
theorem Working.onEvent (h : Working (fun _ => False) s) (hroom : s.Room e)
    (hs : onEvent transmit e s = some s') : Working (fun _ => False) s' := by
  cases e with
  | receive port a =>
    obtain rfl | rfl | hs | ⟨-, hs⟩ | ⟨-, hs⟩ := receive_cases hs
    · exact h
    · have hset := h.setPaused port a.pfc.qIndex true
      have hport := (h.settled port id).pause (h.counted port) a.pfc.qIndex
      exact (hset.settle hport).mono fun e he => he.1.elim id he.2
    · have hset := h.setPaused port a.pfc.qIndex false
      exact (ht hset hs).1.mono fun e he => he.1.elim id he.2
    · have halloc : Working (fun _ => False) s.alloc := h.of_eq rfl
      exact (halloc.sendMultiToDevs ht hs hroom.1 hroom.2).1
    · have halloc : Working (fun _ => False) s.alloc := h.of_eq rfl
      exact (halloc.sendToDev ht hs hroom.1 hroom.2).1
  | transmitComplete port =>
    have hset : Working (fun e => False ∨ e = port)
        (s.setDevice port { s.devices port with currentPkt := none }) :=
          h.setDevice (h.counted port) rfl
    exact (ht hset (transmitComplete_eq hs)).1.mono fun e he => he.1.elim id he.2

/-- Other packets than PFC frames pause and resume nothing. -/
theorem Working.receive (h : Working except s) (hroom : s.Room (.receive port a))
    (hprot : a.ch.l3Prot ≠ 0xFE) (hs : SwitchNode.receive transmit port a s = some s') :
      SameDevices s s' := by
  have halloc : Working except s.alloc := h.of_eq rfl
  have hdevices : SameDevices s s.alloc := .of_eq rfl
  unfold SwitchNode.receive at hs
  rw [if_neg hprot] at hs
  split at hs
  · cases hs
    exact .of_eq rfl
  · unfold switchReceiveFromDevice at hs
    split at hs
    · exact hdevices.trans (halloc.sendMultiToDevs ht hs hroom.1 hroom.2).2
    · exact hdevices.trans (halloc.sendToDev ht hs hroom.1 hroom.2).2

theorem Working.transmitComplete (h : Working except s)
    (hs : SwitchNode.transmitComplete transmit port s = some s') : SameDevices s s' := by
  have hset : Working (fun e => except e ∨ e = port)
      (s.setDevice port { s.devices port with currentPkt := none }) :=
        h.setDevice (h.counted port) rfl
  have hsame : SameDevices s (s.setDevice port { s.devices port with currentPkt := none }) :=
    .setDevice rfl rfl rfl rfl
  exact hsame.trans (ht hset (transmitComplete_eq hs)).2

/-- A PFC frame changes what is paused at its port. -/
theorem Working.frame (h : Working except s) (hup : (s.devices port).linkUp = true)
    (hcorrupt : a.corrupt = false) (hqbb : (s.devices port).qbbEnabled = true)
    (hprot : a.ch.l3Prot = 0xFE) (hs : SwitchNode.receive transmit port a s = some s') :
    ∃ paused, a.pfc.receive (s.devices port).paused = some paused ∧
      SameDevices (s.setDevice port { s.devices port with paused }) s' := by
  unfold SwitchNode.receive at hs
  rw [hup, hcorrupt, if_neg (by decide), if_pos hprot, hqbb, if_neg (by decide)] at hs
  unfold PauseHeader.receive
  split at hs
  next htime =>
    cases hs
    exact ⟨_, if_pos htime, .of_eq rfl⟩
  next htime =>
    unfold SwitchNode.resume at hs
    split at hs
    next hpaused =>
      exact ⟨_, (if_neg htime).trans (if_pos hpaused),
        (ht (h.setPaused port a.pfc.qIndex false) hs).2⟩
    next => cases hs

end

/-! ## Healthy switches -/

/-- A switch with PFC on all ports whose books are right, and which has refused nothing. -/
structure Healthy (s : SwitchNode) : Prop where
  up : ∀ port, (s.devices port).linkUp = true ∧ (s.devices port).qbbEnabled = true
  booked : Booked s [] []
  covers : Covers (fun _ => False) s []
  agrees : Agrees s s.mmu.paused
  working : Working (fun _ => False) s
  refused : s.refused = []

/-- The switch has room for the event, and refuses nothing. -/
structure Unhindered (s : SwitchNode) (e : SwitchEvent) : Prop where
  supported : s.Supported e
  room : s.Room e
  accepts : ∀ fuel s', onEvent (dequeueAndTransmit fuel) e s = some s' → s'.refused = []

/-- What arrives is not a multicast packet that makes its queue pause. -/
def calm (s : SwitchNode) : SwitchEvent → Bool
  | .receive port a => !a.multicast || (List.finRange 8).all fun qIndex =>
    !s.mmu.checkShouldPause (port, qIndex)
  | .transmitComplete _ => true

theorem justified_of_calm {s : SwitchNode} (h : s.calm e = true) : s.Justified e := by
  cases e with
  | transmitComplete => trivial
  | receive port a =>
    intro hmulti group qIndex _ _ _ _ hpause
    rw [calm, hmulti, Bool.not_true, Bool.false_or] at h
    have hnot := List.all_eq_true.mp h qIndex (List.mem_finRange qIndex)
    rw [hpause] at hnot
    cases hnot

/-- `Unhindered` of a step that refuses nothing. -/
theorem unhindered_of_step {s s' : SwitchNode} (hfits : s.Fits e) (hcalm : s.calm e = true)
    (hroom : s.Room e) (hs : onEvent (dequeueAndTransmit fuel) e s = some s')
    (hnone : s'.refused = []) : s.Unhindered e := by
  refine ⟨⟨hfits, justified_of_calm hcalm⟩, hroom, fun fuel' s'' hs' => ?_⟩
  rw [← onEvent_unique hs hs']
  exact hnone

/-- The ports stay up. -/
theorem Working.up (h : Working (fun _ => False) s)
    (hup : ∀ port, (s.devices port).linkUp = true ∧ (s.devices port).qbbEnabled = true)
    (hroom : s.Room e) (hs : SwitchNode.onEvent (dequeueAndTransmit fuel) e s = some s')
    (port : Port) :
    (s'.devices port).linkUp = true ∧ (s'.devices port).qbbEnabled = true := by
  have ht : KeepsWorking (dequeueAndTransmit fuel) := keepsWorking_dequeueAndTransmit fuel
  have hsame : ∀ {t}, SameDevices t s' →
      (∀ port, (t.devices port).linkUp = true ∧ (t.devices port).qbbEnabled = true) →
      (s'.devices port).linkUp = true ∧ (s'.devices port).qbbEnabled = true := by
    intro t hsame hup
    rw [hsame.linkUp, hsame.qbbEnabled]
    exact hup port
  have hset : ∀ {port device}, device.linkUp = (s.devices port).linkUp →
      device.qbbEnabled = (s.devices port).qbbEnabled → ∀ e,
      ((s.setDevice port device).devices e).linkUp = true ∧
        ((s.setDevice port device).devices e).qbbEnabled = true := by
    intro port device hlink hqbb e
    dsimp only [SwitchNode.setDevice]
    rw [update_apply]
    split
    · rw [hlink, hqbb]
      exact hup port
    · exact hup e
  cases e with
  | receive port a =>
    by_cases hprot : a.ch.l3Prot = 0xFE
    · cases hcorrupt : a.corrupt with
      | true =>
        have hs : SwitchNode.receive (dequeueAndTransmit fuel) port a s = some s' := hs
        rw [SwitchNode.receive, hcorrupt, Bool.or_true, if_pos rfl] at hs
        cases hs
        exact hup _
      | false =>
        obtain ⟨paused, -, hframe⟩ := h.frame ht (hup port).1 hcorrupt (hup port).2 hprot hs
        exact hsame hframe (hset rfl rfl)
    · exact hsame (h.receive ht hroom hprot hs) hup
  | transmitComplete port => exact hsame (h.transmitComplete ht hs) hup

/-- An event leaves a switch healthy. -/
theorem Healthy.onEvent (h : Healthy s) (he : s.Unhindered e)
    (hs : SwitchNode.onEvent (dequeueAndTransmit fuel) e s = some s') : Healthy s' := by
  have hrefused := he.accepts fuel s' hs
  have hnone : s'.NoneRefused := fun held hmem => by
    rw [hrefused] at hmem
    exact absurd hmem List.not_mem_nil
  have ht := keepsPauses_dequeueAndTransmit fuel
  constructor
  case up => exact h.working.up h.up he.room hs
  case booked => exact h.booked.onEvent ht.books he.supported.1 hs
  case covers => exact h.covers.onEvent ht h.booked he.supported.1 he.supported.2 hs hrefused
  case agrees => exact h.agrees.onEvent hs hnone
  case working => exact h.working.onEvent (keepsWorking_dequeueAndTransmit fuel) he.room hs
  case refused => exact hrefused

/-- A new switch with PFC on all ports, and queues of any size. -/
structure Equipped (s : SwitchNode) : Prop extends Idle s where
  up : ∀ port, (s.devices port).linkUp = true ∧ (s.devices port).qbbEnabled = true
  timed : ∀ port, 0 < (s.devices port).pauseMicroSeconds
  queue : ∀ port, ∃ maxSize, (s.devices port).queue = { maxSize } ∧ 0 < maxSize ∧
    maxSize + 31 < 2 ^ 32

theorem Equipped.healthy (h : Equipped s) : Healthy s := by
  have hcounted : ∀ port, (s.devices port).queue.Counted := by
    intro port
    obtain ⟨maxSize, hqueue, hpos, -⟩ := h.queue port
    rw [hqueue]
    have hset : ({} : BEgressQueue).setMaxSize maxSize = some { maxSize } := by
      rw [BEgressQueue.setMaxSize, if_neg (Nat.pos_iff_ne_zero.mp hpos), if_neg (Nat.not_lt_zero _)]
    exact BEgressQueue.counted_setMaxSize hset
  constructor
  case up => exact h.up
  case booked => exact h.toIdle.booked
  case covers =>
    intro slot hslot
    obtain ⟨cfg, hmmu⟩ := h.mmu
    rw [hmmu] at hslot
    cases hslot
  case agrees => exact h.toIdle.agrees h.timed
  case working =>
    refine ⟨hcounted, fun port => ?_, fun port _ _ _ => ?_⟩
    · obtain ⟨maxSize, hqueue, -, hroom⟩ := h.queue port
      rw [hqueue]
      exact hroom
    · rw [← Option.not_isSome_iff_eq_none, (hcounted port).dequeueRR_isSome]
      rintro (hne | ⟨qIndex, hne, -⟩) <;> exact hne (h.queues port _)
  case refused => exact h.refused

theorem Healthy.nothing_ready (h : Healthy s) (hidle : (s.devices port).currentPkt = none) :
    ¬((s.devices port).queue.queues 0 ≠ [] ∨ ∃ qIndex,
      (s.devices port).queue.queues qIndex ≠ [] ∧ (s.devices port).paused qIndex = false) := by
  rw [← (h.working.counted port).dequeueRR_isSome, Option.not_isSome_iff_eq_none]
  exact h.working.settled port id (h.up port).1 hidle

/-- No packet of the priority 0 waits at a port that does nothing. -/
theorem Healthy.urgent (h : Healthy s) (hidle : (s.devices port).currentPkt = none) :
    s.queueAt (port, 0) = [] := by
  by_contra hwaits
  exact h.nothing_ready hidle (.inl hwaits)

/-- What waits at a port that does nothing is paused. -/
theorem Healthy.paused (h : Healthy s) (hidle : (s.devices port).currentPkt = none)
    (hwaits : s.queueAt (port, qIndex) ≠ []) : (s.devices port).paused qIndex = true := by
  by_contra hpaused
  exact h.nothing_ready hidle (.inr ⟨qIndex, hwaits, Bool.not_eq_true _ ▸ hpaused⟩)

end SwitchNode
end Roce
