import Roce.Lib.Count
import Roce.Switch.Node
import Mathlib.Data.List.ProdSigma

/-! # The counters of a switch and its queues

The counters of a switch are raised before a packet is enqueued and lowered when it leaves, for the
priorities other than 0. So they count the packets in the queues and those that `Enqueue` refused.
On the priority 0 the bytes of unicast packets are counted and never subtracted. -/

namespace Roce

open Function

def Held.slot (h : Held) : Slot := (h.port, h.qIndex)

/-- What a packet is charged to at the ingress. -/
def Held.charge (h : Held) : Slot × Nat := ((h.packet.flowId.getD 0, h.qIndex), h.packet.size)

def Held.size (h : Held) : Nat := h.packet.size

/-- The entry of `m_bytes` for a packet. -/
def Held.Via (inDev outDev : Port) (qIndex : Priority) (h : Held) : Prop :=
  h.packet.flowId = some inDev ∧ h.port = outDev ∧ h.qIndex = qIndex

instance : DecidablePred (Held.Via inDev outDev qIndex) := fun _ =>
  inferInstanceAs (Decidable (_ ∧ _ ∧ _))

namespace SwitchNode

/-! ## The packets in the queues -/

def slots : List Slot := List.finRange 257 ×ˢ List.finRange 8

theorem nodup_slots : slots.Nodup := (List.nodup_finRange 257).product (List.nodup_finRange 8)

theorem mem_slots (slot : Slot) : slot ∈ slots :=
  List.mem_product.mpr ⟨List.mem_finRange _, List.mem_finRange _⟩

def queueAt (s : SwitchNode) (slot : Slot) : List SwitchPacket :=
  (s.devices slot.1).queue.queues slot.2

def heldAt (s : SwitchNode) (slot : Slot) : List Held :=
  (s.queueAt slot).map (Held.mk slot.1 slot.2)

/-- The packets in all queues. -/
def queued (s : SwitchNode) : List Held := slots.flatMap s.heldAt

/-- The packets whose counters were raised, if they are not on the priority 0. -/
def kept (s : SwitchNode) : List Held := s.queued ++ s.refused

variable {s s' : SwitchNode}

theorem heldAt_setDevice {queue : BEgressQueue} {xs : List SwitchPacket}
    (h : queue.queues = update (s.devices port).queue.queues qIndex xs) :
    (s.setDevice port { s.devices port with queue }).heldAt =
      update s.heldAt (port, qIndex) (xs.map (Held.mk port qIndex)) := by
  funext ⟨port', qIndex'⟩
  by_cases hp : port' = port
  · subst hp
    by_cases hq : qIndex' = qIndex
    · simp [heldAt, queueAt, setDevice, h, hq]
    · simp [heldAt, queueAt, setDevice, h, hq]
  · have hne : (port', qIndex') ≠ (port, qIndex) := fun heq => hp (Prod.mk.inj heq).1
    rw [update_of_ne hne]
    simp [heldAt, queueAt, setDevice, hp]

/-- Nothing but the queues and the lists of packets changes. -/
structure SameCounters (s s' : SwitchNode) : Prop where
  mmu : s'.mmu = s.mmu
  bytes : s'.bytes = s.bytes
  egressLasts : s'.egressLasts = s.egressLasts
  nextPtr : s'.nextPtr = s.nextPtr

theorem enqueue_perm (port : Port) (qIndex : Priority) (p : SwitchPacket) (s : SwitchNode) :
    (s.enqueue port qIndex p).kept.Perm (⟨port, qIndex, p⟩ :: s.kept) ∧
      (s.enqueue port qIndex p).dequeued = s.dequeued ∧
        SameCounters s (s.enqueue port qIndex p) := by
  unfold enqueue
  split
  next queue hq =>
    have hheld := heldAt_setDevice (BEgressQueue.enqueue_spec hq)
    have hperm := flatMap_update_perm nodup_slots (mem_slots (port, qIndex)) s.heldAt
      ((s.queueAt (port, qIndex) ++ [p]).map (Held.mk port qIndex))
    rw [List.map_append, List.append_assoc] at hperm
    have hperm := (List.perm_append_left_iff _).mp hperm
    refine ⟨?_, rfl, rfl, rfl, rfl, rfl⟩
    have hkept := hperm.append_right s.refused
    rw [← List.map_append] at hkept
    rw [kept, queued, hheld]
    exact hkept
  next =>
    refine ⟨?_, rfl, rfl, rfl, rfl, rfl⟩
    have hkept := List.perm_append_singleton (Held.mk port qIndex p) s.kept
    rw [kept, List.append_assoc] at hkept
    exact hkept

theorem dequeue_perm (h : s.dequeue port = some (held, s')) :
    s.queued.Perm (held :: s'.queued) ∧ s'.refused = s.refused ∧
      s'.dequeued = s.dequeued ++ [held] ∧ SameCounters s s' := by
  obtain ⟨⟨p, queue⟩, hq, h⟩ := Option.bind_eq_some_iff.mp h
  cases h
  obtain ⟨hhead, hqueues⟩ := BEgressQueue.dequeueRR_spec hq
  have hheld := heldAt_setDevice hqueues
  have hperm := flatMap_update_perm nodup_slots (mem_slots (port, queue.qlast)) s.heldAt
    ((queue.queues queue.qlast).map (Held.mk port queue.qlast))
  have hfirst : s.heldAt (port, queue.qlast) =
      ⟨port, queue.qlast, p⟩ :: (queue.queues queue.qlast).map (Held.mk port queue.qlast) := by
    rw [heldAt, queueAt, hhead, List.map_cons]
  rw [hfirst, ← hheld] at hperm
  refine ⟨?_, rfl, rfl, rfl, rfl, rfl, rfl⟩
  exact ((List.perm_append_left_iff _).mp (List.perm_middle.trans hperm)).symm

/-! ## What the counters count -/

/-- The packets of the priorities other than 0. -/
def admitted (l : List Held) : List Held := l.filter (·.qIndex ≠ 0)

/-- The unicast packets of the priority 0. -/
def unicastZero (l : List Held) : List Held :=
  l.filter fun h => h.qIndex = 0 ∧ h.packet.multicast = false

variable {h held : Held} {l pending counted : List Held}

@[simp] theorem admitted_append : admitted (l ++ l') = admitted l ++ admitted l' :=
  List.filter_append ..

@[simp] theorem unicastZero_nil : unicastZero [] = [] := rfl

@[simp] theorem unicastZero_append : unicastZero (l ++ l') = unicastZero l ++ unicastZero l' :=
  List.filter_append ..

theorem admitted_cons (hq : h.qIndex ≠ 0) : admitted (h :: l) = h :: admitted l :=
  List.filter_cons_of_pos (by simpa using hq)

theorem admitted_cons_zero (hq : h.qIndex = 0) : admitted (h :: l) = admitted l :=
  List.filter_cons_of_neg (by simpa using hq)

theorem unicastZero_cons (hq : h.qIndex = 0) (hm : h.packet.multicast = false) :
    unicastZero (h :: l) = h :: unicastZero l :=
  List.filter_cons_of_pos (by simp [hq, hm])

theorem unicastZero_cons_of_ne (hq : h.qIndex ≠ 0) : unicastZero (h :: l) = unicastZero l :=
  List.filter_cons_of_neg (by simp [hq])

theorem unicastZero_cons_multicast (hm : h.packet.multicast = true) :
    unicastZero (h :: l) = unicastZero l :=
  List.filter_cons_of_neg (by simp [hm])

theorem admitted_perm (hperm : l.Perm l') : (admitted l).Perm (admitted l') := hperm.filter _

theorem unicastZero_perm (hperm : l.Perm l') : (unicastZero l).Perm (unicastZero l') :=
  hperm.filter _

theorem admitted_middle (hq : h.qIndex ≠ 0) :
    (admitted (l ++ h :: l')).Perm (h :: admitted (l ++ l')) :=
  admitted_cons hq ▸ admitted_perm List.perm_middle

theorem admitted_middle_zero (hq : h.qIndex = 0) :
    (admitted (l ++ h :: l')).Perm (admitted (l ++ l')) :=
  (admitted_perm List.perm_middle).trans (.of_eq (admitted_cons_zero hq))

/-- The counters that a packet is charged to agree with the packets of the list. -/
structure Charged (s : SwitchNode) (l : List Held) : Prop where
  ledger : Ledger s.mmu (l.map Held.charge)
  egress : ∀ slot, s.mmu.egressBytes slot = u32 (tally Held.size (·.slot = slot) l)
  lasts : ∀ ptr, s.egressLasts ptr = if ptr ∈ l.map (·.packet.ptr) then some 1 else none
  nodup : (l.map (·.packet.ptr)).Nodup
  fresh : ∀ h ∈ l, h.packet.ptr < s.nextPtr
  tagged : ∀ h ∈ l, h.packet.flowId.isSome
  small : tally Held.size (fun _ => True) l < 2 ^ 32

/-- The counters agree with the packets in the queues and those that were refused, except that those
of `pending` are already charged and those of `counted` already counted in `m_bytes`. -/
structure Booked (s : SwitchNode) (pending counted : List Held) : Prop where
  charged : Charged s (admitted (s.kept ++ pending))
  bytes : ∀ i o q, s.bytes (i, o, q) = u32 (tally Held.size (Held.Via i o q)
    (admitted (s.kept ++ counted) ++ unicastZero (s.kept ++ s.dequeued ++ counted)))

theorem Charged.congr (h : Charged s l) (hmmu : s'.mmu = s.mmu)
    (hlasts : s'.egressLasts = s.egressLasts)
    (hptr : s.nextPtr ≤ s'.nextPtr) (hperm : l.Perm l') : Charged s' l' where
  ledger := hmmu ▸ h.ledger.perm (hperm.map _)
  egress slot := by rw [hmmu, h.egress, tally_perm hperm]
  lasts ptr := by
    have hmem : ptr ∈ l.map (·.packet.ptr) ↔ ptr ∈ l'.map (·.packet.ptr) := (hperm.map _).mem_iff
    rw [hlasts, h.lasts]
    simp only [hmem]
  nodup := (hperm.map _).nodup_iff.mp h.nodup
  fresh held hh := Nat.lt_of_lt_of_le (h.fresh held (hperm.mem_iff.mpr hh)) hptr
  tagged held hh := h.tagged held (hperm.mem_iff.mpr hh)
  small := (tally_perm hperm).symm.trans_lt h.small

/-- The lists of the packets that count stay the same. -/
theorem Booked.congr (h : Booked s pending counted) (hsame : SameCounters s s')
    (hpending : (admitted (s.kept ++ pending)).Perm (admitted (s'.kept ++ pending')))
    (hcounted : (admitted (s.kept ++ counted)).Perm (admitted (s'.kept ++ counted')))
    (hzero : (unicastZero (s.kept ++ s.dequeued ++ counted)).Perm
      (unicastZero (s'.kept ++ s'.dequeued ++ counted'))) : Booked s' pending' counted' where
  charged := h.charged.congr hsame.mmu hsame.egressLasts (Nat.le_of_eq hsame.nextPtr.symm) hpending
  bytes i o q := by rw [hsame.bytes, h.bytes, tally_perm (hcounted.append hzero)]

/-- A packet is enqueued, or refused. -/
theorem Booked.enqueue
    (h : Booked s (Held.mk port qIndex p :: pending) (Held.mk port qIndex p :: counted)) :
    Booked (s.enqueue port qIndex p) pending counted := by
  obtain ⟨hperm, hdeq, hsame⟩ := enqueue_perm port qIndex p s
  have hall : ∀ l, (s.kept ++ Held.mk port qIndex p :: l).Perm
    ((s.enqueue port qIndex p).kept ++ l) :=
    fun l => List.perm_middle.trans (hperm.symm.append_right l)
  refine h.congr hsame (admitted_perm (hall _)) (admitted_perm (hall _)) (unicastZero_perm ?_)
  rw [hdeq, List.append_assoc, List.append_assoc]
  exact (List.Perm.append_left _ List.perm_middle).trans (hall _)

theorem kept_perm_of_dequeue (hd : s.dequeue port = some (held, s')) :
    s.kept.Perm (held :: s'.kept) := by
  obtain ⟨hperm, hrefused, -⟩ := dequeue_perm hd
  rw [kept, kept, hrefused]
  exact hperm.append_right _

/-- A packet that is not on the priority 0 leaves its queue. -/
theorem Booked.dequeue (h : Booked s pending counted) (hd : s.dequeue port = some (held, s'))
    (hq : held.qIndex ≠ 0) : Booked s' (held :: pending) (held :: counted) := by
  obtain ⟨-, -, hdeq, hsame⟩ := dequeue_perm hd
  have hkept := kept_perm_of_dequeue hd
  have hall : ∀ l, (admitted (s.kept ++ l)).Perm (admitted (s'.kept ++ held :: l)) := fun l =>
    admitted_perm ((hkept.append_right l).trans List.perm_middle.symm)
  have hzero := unicastZero_perm hkept
  rw [unicastZero_cons_of_ne hq] at hzero
  refine h.congr hsame (hall _) (hall _) ?_
  simp only [hdeq, unicastZero_append, unicastZero_cons_of_ne hq, unicastZero_nil, List.append_nil]
  exact (hzero.append_right _).append_right _

/-- A packet of the priority 0 leaves its queue. -/
theorem Booked.dequeue_zero (h : Booked s pending counted) (hd : s.dequeue port = some (held, s'))
    (hq : held.qIndex = 0) : Booked s' pending counted := by
  obtain ⟨-, -, hdeq, hsame⟩ := dequeue_perm hd
  have hkept := kept_perm_of_dequeue hd
  have hadm := admitted_perm hkept
  rw [admitted_cons_zero hq] at hadm
  have hall : ∀ l, (admitted (s.kept ++ l)).Perm (admitted (s'.kept ++ l)) := fun l => by
    simp only [admitted_append]
    exact hadm.append_right _
  refine h.congr hsame (hall _) (hall _) (unicastZero_perm (List.Perm.append_right _ ?_))
  rw [hdeq, ← List.append_assoc]
  exact (hkept.append_right _).trans (List.perm_append_singleton held _).symm

theorem charge_eq (hflow : held.packet.flowId = some inDev) :
    held.charge = ((inDev, held.qIndex), held.packet.size) := by
  rw [Held.charge, hflow, Option.getD_some]

theorem chargedBytes_charge (l : List Held) :
    chargedBytes (l.map Held.charge) = tally Held.size (fun _ => True) l :=
  tally_map Held.charge

/-- A packet that was admitted is charged. -/
theorem Charged.charge (h : Charged s l) (hflow : held.packet.flowId = some inDev)
    (hcheck : s.mmu.checkIngressAdmission (inDev, held.qIndex) held.packet.size = true)
    (hnew : held.packet.ptr ∉ l.map (·.packet.ptr)) (hptr : held.packet.ptr < s.nextPtr)
    (hsmall : tally Held.size (fun _ => True) l + held.packet.size < 2 ^ 32) :
    Charged (s.charge inDev held) (held :: l) := by
  have hledger := h.ledger.accept hcheck (by rwa [chargedBytes_charge])
  constructor
  case ledger =>
    rw [List.map_cons, charge_eq hflow]
    exact ⟨hledger.charged, hledger.shared, hledger.headroom⟩
  case egress =>
    intro slot
    have hold : (s.mmu.updateIngressAdmission (inDev, held.qIndex) held.packet.size).egressBytes =
        s.mmu.egressBytes := egressBytes_updateIngressAdmission
    rw [tally_cons]
    by_cases hslot : held.slot = slot
    · subst hslot
      rw [if_pos rfl, Nat.add_comm, ← u32_add_u32, ← h.egress, ← hold]
      exact update_self ..
    · rw [if_neg hslot, Nat.zero_add, ← h.egress, ← hold]
      exact update_of_ne (Ne.symm hslot) ..
  case lasts =>
    intro ptr
    simp only [SwitchNode.charge, List.map_cons, List.mem_cons, update_apply, h.lasts]
    by_cases hp : ptr = held.packet.ptr
    · rw [if_pos hp, if_pos (.inl hp)]
    · simp only [hp, if_false, false_or]
  case nodup => exact List.nodup_cons.mpr ⟨hnew, h.nodup⟩
  case fresh => exact List.forall_mem_cons.mpr ⟨hptr, h.fresh⟩
  case tagged => exact List.forall_mem_cons.mpr ⟨by rw [hflow, Option.isSome_some], h.tagged⟩
  case small =>
    rw [tally_cons, if_pos trivial, Nat.add_comm]
    exact hsmall

theorem release_spec (h : s.release held = some s') : ∃ inDev x mmu,
    held.packet.flowId = some inDev ∧ s.egressLasts held.packet.ptr = some x ∧
    (if x - 1 = 0 then s.mmu.removeFromIngressAdmission (inDev, held.qIndex) held.packet.size
      else some s.mmu) = some mmu ∧
    s' = { s with
      mmu := mmu.removeFromEgressAdmission (held.port, held.qIndex) held.packet.size
      egressLasts := update s.egressLasts held.packet.ptr none
      bytes := update s.bytes (inDev, held.port, held.qIndex)
        (sub32 (s.bytes (inDev, held.port, held.qIndex)) held.packet.size) } := by
  obtain ⟨inDev, hflow, h⟩ := Option.bind_eq_some_iff.mp h
  obtain ⟨x, hx, h⟩ := Option.bind_eq_some_iff.mp h
  obtain ⟨mmu, hmmu, h⟩ := Option.bind_eq_some_iff.mp h
  exact ⟨inDev, x, mmu, hflow, hx, hmmu, (Option.some.inj h).symm⟩

/-- A packet that leaves is not charged any more. -/
theorem Charged.release (h : Charged s (held :: l)) (hrel : s.release held = some s') :
    Charged s' l ∧ held.size < 2 ^ 32 := by
  obtain ⟨inDev, x, mmu, hflow, hx, hmmu, rfl⟩ := release_spec hrel
  have hlast := h.lasts held.packet.ptr
  rw [if_pos (List.mem_map_of_mem List.mem_cons_self), hx] at hlast
  cases hlast
  rw [if_pos (Int.sub_self 1)] at hmmu
  obtain ⟨hnew, hnodup⟩ := List.nodup_cons.mp h.nodup
  have hsmall := h.small
  rw [tally_cons, if_pos trivial] at hsmall
  have hsize : held.size < 2 ^ 32 := by omega
  have hmem : ((inDev, held.qIndex), held.packet.size) ∈ (held :: l).map Held.charge :=
    charge_eq hflow ▸ List.mem_map_of_mem List.mem_cons_self
  obtain ⟨mmu', hmmu', -, hledger⟩ := h.ledger.remove hmem
  cases hmmu.symm.trans hmmu'
  rw [List.map_cons, charge_eq hflow, List.erase_cons_head] at hledger
  refine ⟨?_, hsize⟩
  constructor
  case ledger => exact ⟨hledger.charged, hledger.shared, hledger.headroom⟩
  case egress =>
    intro slot
    have hold := egressBytes_removeFromIngressAdmission hmmu
    have hslot := h.egress slot
    rw [tally_cons] at hslot
    by_cases hs : held.slot = slot
    · subst hs
      rw [if_pos rfl] at hslot
      have hsub : sub32 (s.mmu.egressBytes held.slot) held.packet.size = _ :=
        hslot ▸ sub32_u32_add _ hsize
      rw [← hsub, ← hold]
      exact update_self ..
    · rw [if_neg hs, Nat.zero_add] at hslot
      rw [← hslot, ← hold]
      exact update_of_ne (Ne.symm hs) ..
  case lasts =>
    intro ptr
    have hlast := h.lasts ptr
    simp only [update_apply]
    by_cases hp : ptr = held.packet.ptr
    · rw [if_pos hp, if_neg (hp ▸ hnew)]
    · simp only [List.map_cons, List.mem_cons, hp, false_or] at hlast
      rw [if_neg hp, hlast]
  case nodup => exact hnodup
  case fresh => exact fun x hx => h.fresh x (List.mem_cons_of_mem _ hx)
  case tagged => exact fun x hx => h.tagged x (List.mem_cons_of_mem _ hx)
  case small => omega

/-- The packets that `m_bytes` counts. -/
theorem counted_perm (kept dequeued : List Held)
    (hbook : held.qIndex ≠ 0 ∨ held.packet.multicast = false) :
    (admitted (kept ++ held :: counted) ++ unicastZero (kept ++ dequeued ++ held :: counted)).Perm
      (held :: (admitted (kept ++ counted) ++ unicastZero (kept ++ dequeued ++ counted))) := by
  have hadm : (kept ++ held :: counted).Perm (held :: (kept ++ counted)) := List.perm_middle
  have hzero : (kept ++ dequeued ++ held :: counted).Perm (held :: (kept ++ dequeued ++ counted)) :=
    List.perm_middle
  by_cases hq : held.qIndex = 0
  · have hadm := admitted_perm hadm
    have hzero := unicastZero_perm hzero
    rw [admitted_cons_zero hq] at hadm
    rw [unicastZero_cons hq (hbook.resolve_left fun hne => hne hq)] at hzero
    exact (hadm.append hzero).trans List.perm_middle
  · have hadm := admitted_perm hadm
    have hzero := unicastZero_perm hzero
    rw [admitted_cons hq] at hadm
    rw [unicastZero_cons_of_ne hq] at hzero
    exact hadm.append hzero

theorem Booked.alloc (h : Booked s pending counted) : Booked s.alloc pending counted :=
  ⟨h.charged.congr rfl rfl (Nat.le_succ _) (.refl _), h.bytes⟩

/-- A new packet that was admitted is charged. -/
theorem Booked.charge (h : Booked s pending counted) (hflow : held.packet.flowId = some inDev)
    (hq : held.qIndex ≠ 0) (hptr : held.packet.ptr = s.nextPtr)
    (hcheck : s.mmu.checkIngressAdmission (inDev, held.qIndex) held.packet.size = true)
    (hsmall : tally Held.size (fun _ => True) (admitted (s.kept ++ pending)) + held.packet.size <
      2 ^ 32) :
    Booked (s.alloc.charge inDev held) (held :: pending) counted := by
  refine ⟨?_, h.bytes⟩
  have hnew : held.packet.ptr ∉ (admitted (s.kept ++ pending)).map (·.packet.ptr) := by
    intro hmem
    obtain ⟨x, hx, heq⟩ := List.mem_map.mp hmem
    have := h.charged.fresh x hx
    omega
  exact (h.alloc.charged.charge hflow hcheck hnew (hptr ▸ Nat.lt_succ_self _) hsmall).congr rfl rfl
    (Nat.le_refl _) (admitted_middle hq).symm

/-- The bytes of a packet are counted. -/
theorem Booked.countBytes (h : Booked s pending counted) (hflow : held.packet.flowId = some inDev)
    (hbook : held.qIndex ≠ 0 ∨ held.packet.multicast = false) :
    Booked (s.countBytes inDev held) pending (held :: counted) := by
  refine ⟨h.charged.congr rfl rfl (Nat.le_refl _) (.refl _), fun i o q => ?_⟩
  have hold := h.bytes i o q
  refine Eq.trans ?_ (congrArg u32 (tally_perm (counted_perm s.kept s.dequeued hbook))).symm
  rw [tally_cons]
  by_cases hvia : Held.Via i o q held
  · obtain ⟨hi, rfl, rfl⟩ := hvia
    cases hflow.symm.trans hi
    rw [if_pos ⟨hflow, rfl, rfl⟩, Nat.add_comm, ← u32_add_u32, ← hold]
    exact update_self ..
  · have hne : (i, o, q) ≠ (inDev, held.port, held.qIndex) := by
      rintro ⟨⟩
      exact hvia ⟨hflow, rfl, rfl⟩
    rw [if_neg hvia, Nat.zero_add, ← hold]
    exact update_of_ne hne ..

/-- The counters of a packet that leaves are lowered. -/
theorem Booked.release (h : Booked s (held :: pending) (held :: counted)) (hq : held.qIndex ≠ 0)
    (hrel : s.release held = some s') : Booked s' pending counted := by
  obtain ⟨hcharged, hsize⟩ :=
    (h.charged.congr rfl rfl (Nat.le_refl _) (admitted_middle hq)).release hrel
  obtain ⟨inDev, x, mmu, hflow, -, -, rfl⟩ := release_spec hrel
  refine ⟨hcharged, fun i o q => ?_⟩
  have hold := (h.bytes i o q).trans
    (congrArg u32 (tally_perm (counted_perm s.kept s.dequeued (.inl hq))))
  rw [tally_cons] at hold
  by_cases hvia : Held.Via i o q held
  · obtain ⟨hi, rfl, rfl⟩ := hvia
    cases hflow.symm.trans hi
    rw [if_pos ⟨hflow, rfl, rfl⟩] at hold
    have hsub : sub32 (s.bytes (inDev, held.port, held.qIndex)) held.packet.size = _ :=
      hold ▸ sub32_u32_add _ hsize
    exact Eq.trans (update_self ..) hsub
  · have hne : (i, o, q) ≠ (inDev, held.port, held.qIndex) := by
      rintro ⟨⟩
      exact hvia ⟨hflow, rfl, rfl⟩
    rw [if_neg hvia, Nat.zero_add] at hold
    exact Eq.trans (update_of_ne hne ..) hold

/-- A packet of the priority 0 that is not a unicast packet counts nowhere. -/
theorem Booked.silent (h : Booked s pending counted) (hq : held.qIndex = 0)
    (hnot : held.packet.flowId = none ∨ held.packet.multicast = true) :
    Booked s (held :: pending) (held :: counted) := by
  refine ⟨h.charged.congr rfl rfl (Nat.le_refl _) (admitted_middle_zero hq).symm, fun i o q => ?_⟩
  rw [h.bytes, tally_append, tally_append, tally_perm (admitted_middle_zero hq)]
  have hmiddle : (unicastZero (s.kept ++ s.dequeued ++ held :: counted)).Perm
      (unicastZero (held :: (s.kept ++ s.dequeued ++ counted))) := unicastZero_perm List.perm_middle
  rw [tally_perm hmiddle]
  cases hm : held.packet.multicast with
  | true => rw [unicastZero_cons_multicast hm]
  | false =>
    have hnone : ¬Held.Via i o q held := fun hvia => by
      rcases hnot with hnot | hnot
      · exact Option.some_ne_none _ (hvia.1.symm.trans hnot)
      · exact Bool.false_ne_true (hm.symm.trans hnot)
    rw [unicastZero_cons hq hm, tally_cons, if_neg hnone, Nat.zero_add]

/-- A packet of the priority 0 is charged to nothing. -/
theorem Booked.pending_zero (h : Booked s pending counted) (hq : held.qIndex = 0) :
    Booked s (held :: pending) counted := by
  exact ⟨h.charged.congr rfl rfl (Nat.le_refl _) (admitted_middle_zero hq).symm, h.bytes⟩

end SwitchNode
end Roce
