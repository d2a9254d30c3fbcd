import Roce.Lib.Machine
import Roce.QueuePair.UnreliableQP
import Mathlib.Data.List.Basic
import Mathlib.Data.List.Infix
import Mathlib.Tactic.Common

/-! # How an unreliable send queue serves its requests

`Conforms` says what the packets of a sequence of requests have to look like: each request is cut
in order into pieces of at most one MTU, with the notifications its flag asks for. The queue meets
it exactly for requests of at most one MTU whose immediate value, without the flag, is 0: every
request is treated as if the flag was set, and the last fragment of a larger request carries the
size of the whole request. -/

namespace Roce
namespace RdmaUnreliableSQ

/-- A queue as constructed. -/
structure Fresh (s : RdmaUnreliableSQ) : Prop where
  mtu_pos : 0 < s.mtu
  toSend : s.toSend = []
  posted : s.posted = []
  sent : s.sent = []

/-- What can happen to the queue. -/
inductive Event where
  | post (sr : SendRequest) (flags : SendFlags)
  | emit (cb : Posts)

inductive Step : RdmaUnreliableSQ → Event → RdmaUnreliableSQ → Prop
  | post : Step s (.post sr flags) (s.postSend sr flags)
  | emit : s.getNextPacket cb = some (p, s') → Step s (.emit cb) s'

/-- The queue, started in `s₀`. -/
def queue (s₀ : RdmaUnreliableSQ) : Machine RdmaUnreliableSQ Event := ⟨(· = s₀), Step⟩

/-! ## What the packets should be -/

/-- The immediate value that a packet brings to the receiver's `m_onRecv`, if it is called. -/
def notified (e : Emission) : Option UInt32 :=
  (RdmaUnreliableRQ.receiveUdp true e.packet).join.map (·.imm)

/-- The notifications of a request that is sent in `k` packets. -/
def notifications (sr : SendRequest) (k : Nat) : SendFlags → List (Option UInt32)
  | .none => List.replicate (k - 1) none ++ [some sr.imm]
  | .fragmentAsImmediate => (List.range k).map (some <| UInt32.ofNat ·)

/-- `g` is the whole of the packets of the request `w`. -/
structure GroupOk (mtu : Nat) (w : SendRequest × SendFlags) (g : List Emission) : Prop where
  size : ∀ e ∈ g, 1 ≤ e.packet.size ∧ e.packet.size ≤ mtu
  sum : (g.map (·.packet.size)).sum = w.1.payloadSize.toNat
  called : g.map (·.called) = List.replicate (g.length - 1) false ++ [w.1.onSend]
  notified : g.map notified = notifications w.1 g.length w.2

/-- The packets `es` serve the requests `ws` in order: all packets of the first ones, and the first
packets of the next one. -/
inductive Conforms (mtu : Nat) : List (SendRequest × SendFlags) → List Emission → Prop
  | idle : Conforms mtu ws []
  | begun : GroupOk mtu w (g ++ rest) → rest ≠ [] → Conforms mtu (w :: ws) g
  | served : GroupOk mtu w g → Conforms mtu ws es → Conforms mtu (w :: ws) (g ++ es)

/-- All packets of all requests. -/
inductive AllServed (mtu : Nat) : List (SendRequest × SendFlags) → List Emission → Prop
  | nil : AllServed mtu [] []
  | cons : GroupOk mtu w g → AllServed mtu ws es → AllServed mtu (w :: ws) (g ++ es)

/-- While the requests of `reqs` are posted, the packets conform, and when the queue is empty every
posted request was served. -/
def Serves (s₀ : RdmaUnreliableSQ) (reqs : List (SendRequest × SendFlags)) : Prop :=
  ∀ s, (queue s₀).Reachable s → s.posted <+: reqs →
    Conforms s.mtu s.posted s.sent ∧ (!s.hasDataToSend → AllServed s.mtu s.posted s.sent)

/-- A request that one packet serves as its flag asks for. -/
def Fits (mtu : Nat) (w : SendRequest × SendFlags) : Prop :=
  w.1.payloadSize.toNat ≤ mtu ∧ (w.2 = .none → w.1.imm = 0)

instance (mtu : Nat) (w : SendRequest × SendFlags) : Decidable (Fits mtu w) :=
  inferInstanceAs (Decidable (_ ∧ _))

/-! ## What the code does -/

/-- The bitwise or makes the flag true for every request. -/
theorem postSend_toSend (s : RdmaUnreliableSQ) (sr : SendRequest) (flags : SendFlags) :
    (s.postSend sr flags).toSend =
      s.toSend ++ [{ sr, fragmentAsImmediate := true }] := by
  cases flags <;> rfl

/-- The work element of a request that was not touched yet. -/
def newWork (w : SendRequest × SendFlags) : WorkElement :=
  { sr := w.1, fragmentAsImmediate := true }

theorem foldl_postSend (s : RdmaUnreliableSQ) (l : List (SendRequest × SendFlags)) :
    l.foldl (fun s x => s.postSend x.1 x.2) s =
      { s with toSend := s.toSend ++ l.map newWork, posted := s.posted ++ l } := by
  induction l generalizing s with
  | nil => simp
  | cons w l ih =>
    rw [List.foldl_cons, ih, postSend_toSend]
    simp [postSend, newWork]

/-- What the call of the `on_send` of a request posts. -/
def posts (cb : Posts) (sr : SendRequest) : List (SendRequest × SendFlags) :=
  if sr.onSend then cb sr else []

/-- The call of `on_send` posts requests and does nothing else. -/
theorem callOnSend_eq (s : RdmaUnreliableSQ) (cb : Posts) (sr : SendRequest) :
    s.callOnSend cb sr =
      { s with
        toSend := s.toSend ++ (posts cb sr).map newWork
        posted := s.posted ++ posts cb sr } := by
  unfold callOnSend posts
  split
  · exact foldl_postSend s _
  · simp

/-- The emission of the last packet of a request. -/
def lastEmission (s : RdmaUnreliableSQ) (work : WorkElement) : Emission :=
  ⟨s.packetAt work.sr work.sr.payloadSize.toNat true
    (if work.fragmentAsImmediate then work.sentFragments else work.sr.imm), work.sr.onSend⟩

/-- **`GetNextPacket`**, on the last packet of a request: it is as large as the whole request. -/
theorem getNextPacket_last {s : RdmaUnreliableSQ} (cb : Posts) (h : s.toSend = work :: rest)
    (hle : (work.sr.payloadSize - work.bytesSent).toNat ≤ s.mtu) :
    ∃ s', s.getNextPacket cb = some ((s.lastEmission work).packet, s') ∧ s'.mtu = s.mtu ∧
      s'.toSend = rest ++ (posts cb work.sr).map newWork ∧
      s'.posted = s.posted ++ posts cb work.sr ∧
      s'.sent = s.sent ++ [s.lastEmission work] := by
  have hcall := callOnSend_eq { s with toSend := rest } cb work.sr
  simp only [getNextPacket, h, Nat.not_lt.mpr hle, ↓reduceIte, hcall]
  exact ⟨_, rfl, rfl, rfl, rfl, rfl⟩

/-- On any other packet, `GetNextPacket` advances the work element. -/
theorem getNextPacket_more {s : RdmaUnreliableSQ} (cb : Posts) (h : s.toSend = work :: rest)
    (hgt : s.mtu < (work.sr.payloadSize - work.bytesSent).toNat) :
    ∃ p s', s.getNextPacket cb = some (p, s') ∧ s'.mtu = s.mtu ∧ s'.posted = s.posted ∧
      s'.toSend = { work with
        bytesSent := work.bytesSent + UInt32.ofNat s.mtu
        sentFragments := work.sentFragments + 1 } :: rest ∧
      s.sent <+: s'.sent := by
  simp only [getNextPacket, h, hgt, ↓reduceIte]
  exact ⟨_, _, rfl, rfl, rfl, rfl, List.prefix_append ..⟩

theorem getNextPacket_frame {s s' : RdmaUnreliableSQ} {cb : Posts}
    (h : s.getNextPacket cb = some (p, s')) : s.posted <+: s'.posted ∧ s'.mtu = s.mtu := by
  obtain ⟨work, rest, -, ⟨-, -, rfl⟩ | ⟨-, -, rfl⟩⟩ := getNextPacket_cases h
  · exact ⟨List.prefix_rfl, rfl⟩
  · rw [callOnSend_eq]
    exact ⟨List.prefix_append .., rfl⟩

theorem Step.frame {s s' : RdmaUnreliableSQ} (h : Step s e s') :
    s.posted <+: s'.posted ∧ s'.mtu = s.mtu := by
  cases h with
  | post => exact ⟨List.prefix_append .., rfl⟩
  | emit hp => exact getNextPacket_frame hp

/-! ## Requests that fit -/

theorem AllServed.snoc (h : AllServed mtu ws es) (hg : GroupOk mtu w g) :
    AllServed mtu (ws ++ [w]) (es ++ g) := by
  induction h with
  | nil => simpa using AllServed.cons hg .nil
  | cons h _ ih => rw [List.append_assoc]; exact .cons h ih

theorem AllServed.conforms (h : AllServed mtu ws es) (us : List (SendRequest × SendFlags)) :
    Conforms mtu (ws ++ us) es := by
  induction h with
  | nil => exact .idle
  | cons h _ ih => exact .served h ih

/-- The single packet of a request that fits. -/
theorem groupOk_of_fits (s : RdmaUnreliableSQ) (h : Fits s.mtu w)
    (hpos : 1 ≤ w.1.payloadSize.toNat) : GroupOk s.mtu w [s.lastEmission (newWork w)] := by
  obtain ⟨hle, himm⟩ := h
  constructor
  case size =>
    intro e he
    obtain rfl := List.mem_singleton.mp he
    exact ⟨hpos, hle⟩
  case sum => exact Nat.add_zero _
  case called => rfl
  case notified =>
    obtain ⟨sr, flags⟩ := w
    cases flags with
    | none =>
      change [some (0 : UInt32)] = [some sr.imm]
      rw [himm rfl]
    | fragmentAsImmediate => rfl

/-- The posted requests are the served ones, followed by the ones in the queue. -/
structure Inv (s : RdmaUnreliableSQ) : Prop where
  split : ∃ d u, s.posted = d ++ u ∧ s.toSend = u.map newWork ∧ AllServed s.mtu d s.sent

theorem Inv.post {s : RdmaUnreliableSQ} (h : Inv s) (sr : SendRequest) (flags : SendFlags) :
    Inv (s.postSend sr flags) := by
  obtain ⟨d, u, hpost, hts, hserved⟩ := h.split
  refine ⟨d, u ++ [(sr, flags)], ?_, ?_, hserved⟩
  · rw [← List.append_assoc, ← hpost]
    rfl
  · rw [postSend_toSend, hts, List.map_append]
    rfl

theorem Inv.emit {s s' : RdmaUnreliableSQ} {cb : Posts} (h : Inv s)
    (hp : s.getNextPacket cb = some (p, s'))
    (hfits : ∀ w ∈ s.posted, Fits s.mtu w ∧ 1 ≤ w.1.payloadSize.toNat) : Inv s' := by
  obtain ⟨d, u, hpost, hts, hserved⟩ := h.split
  cases u with
  | nil =>
    rw [getNextPacket, hts] at hp
    cases hp
  | cons w u =>
    obtain ⟨hfit, hpos⟩ := hfits w (by rw [hpost]; simp)
    obtain ⟨t, ht, hmtu, htoSend, hposted, hsent⟩ :=
      getNextPacket_last cb hts (by simpa [newWork] using hfit.1)
    rw [ht, Option.some.injEq, Prod.mk.injEq] at hp
    obtain ⟨-, rfl⟩ := hp
    refine ⟨d ++ [w], u ++ posts cb w.1, ?_, ?_, ?_⟩
    · rw [hposted, hpost]
      simp [newWork]
    · rw [htoSend, List.map_append]
      rfl
    · rw [hmtu, hsent]
      exact hserved.snoc (groupOk_of_fits s hfit hpos)

theorem Inv.step {s s' : RdmaUnreliableSQ} (h : Inv s) (hst : Step s e s')
    (hfits : ∀ w ∈ s'.posted, Fits s.mtu w ∧ 1 ≤ w.1.payloadSize.toNat) : Inv s' := by
  cases hst with
  | post => exact h.post _ _
  | emit hp => exact h.emit hp fun w hw => hfits w ((getNextPacket_frame hp).1.subset hw)

theorem serves_of_fits {s₀ : RdmaUnreliableSQ} (h₀ : Fresh s₀)
    (hpos : ∀ w ∈ reqs, 1 ≤ w.1.payloadSize.toNat) (hfits : ∀ w ∈ reqs, Fits s₀.mtu w) :
    Serves s₀ reqs := by
  intro s hs hpre
  have hmtu : s.mtu = s₀.mtu := hs.invariant (I := fun s => s.mtu = s₀.mtu)
    (fun h => by rw [h]) (fun _ ih hst => (Step.frame hst).2.trans ih)
  obtain ⟨hsm, d, u, hpost, hts, hserved⟩ : s.mtu = s₀.mtu ∧ Inv s := by
    refine hs.invariant_of_bound (B := fun s => s.posted <+: reqs)
      (I := fun s => s.mtu = s₀.mtu ∧ Inv s) ?_ ?_ ?_ hpre
    · rintro _ rfl
      refine ⟨rfl, [], [], h₀.posted, h₀.toSend, ?_⟩
      rw [h₀.sent]
      exact .nil
    · exact fun hst hpre => (Step.frame hst).1.trans hpre
    · intro s e t _ hi hst hpre
      refine ⟨(Step.frame hst).2.trans hi.1, hi.2.step hst fun w hw => ?_⟩
      rw [hi.1]
      exact ⟨hfits w (hpre.subset hw), hpos w (hpre.subset hw)⟩
  refine ⟨hpost ▸ hserved.conforms u, fun hempty => ?_⟩
  have hnil : u = [] := by
    cases u with
    | nil => rfl
    | cons w u => rw [hasDataToSend, hts] at hempty; exact absurd hempty (by simp)
  rw [hpost, hnil, List.append_nil]
  exact hserved

/-! ## Requests that do not fit -/

/-- Callbacks that post nothing. -/
def silent : Posts := fun _ => []

theorem run_post (s₀ s : RdmaUnreliableSQ) (reqs : List (SendRequest × SendFlags)) :
    ∃ es, (queue s₀).Run s es
      { s with toSend := s.toSend ++ reqs.map newWork, posted := s.posted ++ reqs } := by
  rw [← foldl_postSend]
  induction reqs generalizing s with
  | nil => exact ⟨[], .nil⟩
  | cons w reqs ih =>
    obtain ⟨es, hrun⟩ := ih (s.postSend w.1 w.2)
    have hpost : (queue s₀).Run s [.post w.1 w.2] (s.postSend w.1 w.2) :=
      .single (show Step s (.post w.1 w.2) _ from .post)
    exact ⟨_, hpost.append hrun⟩

/-- The last packet of the request at the head of the queue leaves. -/
theorem run_last (s₀ : RdmaUnreliableSQ) {s : RdmaUnreliableSQ} (h : s.toSend = work :: rest)
    (hle : (work.sr.payloadSize - work.bytesSent).toNat ≤ s.mtu) :
    ∃ es s', (queue s₀).Run s es s' ∧ s'.mtu = s.mtu ∧ s'.posted = s.posted ∧
      s'.toSend = rest ∧ s'.sent = s.sent ++ [s.lastEmission work] := by
  obtain ⟨s', hp, hmtu, hts, hpost, hsent⟩ := getNextPacket_last silent h hle
  have hnil : posts silent work.sr = [] := by
    unfold posts
    split <;> rfl
  rw [hnil, List.append_nil] at hpost
  rw [hnil, List.map_nil, List.append_nil] at hts
  exact ⟨_, s', .single (show Step s (.emit silent) s' from .emit hp), hmtu, hpost, hts, hsent⟩

/-- The packets of the requests that fit leave, one for each. -/
theorem run_fits (s₀ : RdmaUnreliableSQ) {s : RdmaUnreliableSQ}
    {l : List (SendRequest × SendFlags)} (h : s.toSend = l.map newWork ++ rest)
    (hle : ∀ w ∈ l, w.1.payloadSize.toNat ≤ s.mtu) :
    ∃ es s' g, (queue s₀).Run s es s' ∧ s'.mtu = s.mtu ∧ s'.posted = s.posted ∧
      s'.toSend = rest ∧ s'.sent = s.sent ++ g ∧
      List.Forall₂ (fun w e => e.packet.size = w.1.payloadSize.toNat ∧ notified e = some 0)
        l g := by
  induction l generalizing s with
  | nil => exact ⟨[], s, [], .nil, rfl, rfl, h, (List.append_nil _).symm, .nil⟩
  | cons w l ih =>
    obtain ⟨es, t, hrun, hmtu, hpost, hts, hsent⟩ := run_last s₀
      (show s.toSend = newWork w :: (l.map newWork ++ rest) from h)
      (by simpa [newWork] using hle w List.mem_cons_self)
    obtain ⟨es', s', g, hrun', hmtu', hpost', hts', hsent', hg⟩ := ih hts
      fun x hx => hmtu ▸ hle x (List.mem_cons_of_mem _ hx)
    refine ⟨es ++ es', s', s.lastEmission (newWork w) :: g, hrun.append hrun',
      hmtu'.trans hmtu, hpost'.trans hpost, hts', ?_, .cons ⟨rfl, rfl⟩ hg⟩
    rw [hsent', hsent, List.append_assoc]
    rfl

/-- A request that is larger than one MTU is served in the end, and its last packet is as large as
the request. -/
theorem run_large (s₀ : RdmaUnreliableSQ) {s : RdmaUnreliableSQ} (hmtu : 0 < s.mtu)
    (h : s.toSend = work :: rest) :
    ∃ es s', (queue s₀).Run s es s' ∧ s'.mtu = s.mtu ∧ s'.posted = s.posted ∧
      ∃ e ∈ s'.sent, e.packet.size = work.sr.payloadSize.toNat := by
  induction hk : (work.sr.payloadSize - work.bytesSent).toNat using Nat.strongRecOn
    generalizing s work with
  | ind k ih =>
    rcases Nat.lt_or_ge s.mtu (work.sr.payloadSize - work.bytesSent).toNat with hgt | hle
    · obtain ⟨p, t, hp, hm, hpost, hts, -⟩ := getNextPacket_more silent h hgt
      -- the remaining bytes get fewer by one MTU
      have hlt : (work.sr.payloadSize - (work.bytesSent + UInt32.ofNat s.mtu)).toNat < k := by
        have h1 := work.sr.payloadSize.toNat_lt
        have h2 := work.bytesSent.toNat_lt
        simp only [UInt32.toNat_sub, UInt32.toNat_add, UInt32.toNat_ofNat'] at hk hgt ⊢
        omega
      obtain ⟨es, s', hrun, hm', hpost', he⟩ := ih _ hlt (hm ▸ hmtu) hts rfl
      exact ⟨_, s', (Machine.Run.single (show Step s (.emit silent) t from .emit hp)).append hrun,
        hm'.trans hm, hpost'.trans hpost, he⟩
    · obtain ⟨es, s', hrun, hm, hpost, -, hsent⟩ := run_last s₀ h hle
      refine ⟨es, s', hrun, hm, hpost, s.lastEmission work, ?_, rfl⟩
      rw [hsent]
      exact List.mem_append_right _ List.mem_cons_self

theorem Conforms.size_le (h : Conforms mtu ws es) (he : e ∈ es) : e.packet.size ≤ mtu := by
  induction h with
  | idle => cases he
  | begun hg _ => exact (hg.size e (List.mem_append_left _ he)).2
  | served hg _ ih =>
    rcases List.mem_append.mp he with he | he
    · exact (hg.size e he).2
    · exact ih he

/-- A group of packets whose first one is as large as the request consists of this one. -/
theorem GroupOk.eq_singleton (h : GroupOk mtu w (e :: g))
    (he : e.packet.size = w.1.payloadSize.toNat) : g = [] := by
  cases g with
  | nil => rfl
  | cons e' g =>
    have hsum := h.sum
    have hpos := (h.size e' (by simp)).1
    simp only [List.map_cons, List.sum_cons] at hsum
    omega

theorem Conforms.first (h : Conforms mtu (w :: ws) (e :: es))
    (he : e.packet.size = w.1.payloadSize.toNat) : GroupOk mtu w [e] ∧ Conforms mtu ws es := by
  generalize hl : e :: es = l at h
  cases h with
  | idle => cases hl
  | begun hg hne =>
    subst hl
    have hnil := hg.eq_singleton he
    exact absurd (List.append_eq_nil_iff.mp hnil).2 hne
  | @served _ g _ es' hg hrest =>
    cases g with
    | nil =>
      have hlen := congrArg List.length hg.called
      simp at hlen
    | cons e' g =>
      rw [List.cons_append, List.cons.injEq] at hl
      obtain ⟨rfl, rfl⟩ := hl
      obtain rfl := hg.eq_singleton he
      exact ⟨hg, hrest⟩

/-- Requests that fit are served one by one, whatever comes after them. -/
theorem Conforms.drop_fits {l ws : List (SendRequest × SendFlags)} {g es : List Emission}
    (h : Conforms mtu (l ++ ws) (g ++ es))
    (hg : List.Forall₂ (fun w e => e.packet.size = w.1.payloadSize.toNat ∧ notified e = some 0)
      l g) : Conforms mtu ws es := by
  induction hg with
  | nil => exact h
  | cons he _ ih => exact ih (h.first he.1).2

theorem exists_first_not {reqs : List (SendRequest × SendFlags)} (h : ¬∀ w ∈ reqs, Fits mtu w) :
    ∃ l w r, reqs = l ++ w :: r ∧ (∀ x ∈ l, Fits mtu x) ∧ ¬Fits mtu w := by
  induction reqs with
  | nil => exact absurd (fun _ hw => nomatch hw) h
  | cons w reqs ih =>
    by_cases hw : Fits mtu w
    · obtain ⟨l, w', r, rfl, hl, hw'⟩ := ih fun hall => h fun x hx => by
        rcases List.mem_cons.mp hx with rfl | hx
        · exact hw
        · exact hall x hx
      refine ⟨w :: l, w', r, rfl, fun x hx => ?_, hw'⟩
      rcases List.mem_cons.mp hx with rfl | hx
      · exact hw
      · exact hl x hx
    · exact ⟨[], w, reqs, rfl, fun _ hx => (nomatch hx), hw⟩

/-- The first request that does not fit is not served as it should be. -/
theorem not_serves {s₀ : RdmaUnreliableSQ} (h₀ : Fresh s₀) (h : ¬∀ w ∈ reqs, Fits s₀.mtu w) :
    ¬Serves s₀ reqs := by
  intro hserves
  obtain ⟨l, w, r, rfl, hl, hw⟩ := exists_first_not h
  obtain ⟨es₁, hrun₁⟩ := run_post s₀ s₀ (l ++ [w])
  rw [h₀.toSend, h₀.posted, List.nil_append, List.nil_append] at hrun₁
  obtain ⟨es₂, s₂, g, hrun₂, hmtu, hpost, hts, hsent, hg⟩ := run_fits s₀ (l := l)
    (s := { s₀ with toSend := (l ++ [w]).map newWork, posted := l ++ [w] })
    (List.map_append ..) (fun x hx => (hl x hx).1)
  have hreach : (queue s₀).Reachable s₂ := Machine.Reachable.run (.run (.init rfl) hrun₁) hrun₂
  have hpre : l ++ [w] <+: l ++ w :: r := ⟨r, by simp⟩
  rw [h₀.sent, List.nil_append] at hsent
  rcases Nat.lt_or_ge s₀.mtu w.1.payloadSize.toNat with hbig | hle
  · obtain ⟨es₃, s₃, hrun₃, hmtu₃, hpost₃, e, he, hsize⟩ :=
      run_large s₀ (hmtu ▸ h₀.mtu_pos) hts
    have hconf := (hserves s₃ (hreach.run hrun₃) (by rw [hpost₃, hpost]; exact hpre)).1
    have hle := hconf.size_le he
    rw [hmtu₃, hmtu, hsize] at hle
    exact absurd hbig (Nat.not_lt.mpr hle)
  · obtain ⟨es₃, s₃, hrun₃, hmtu₃, hpost₃, -, hsent₃⟩ := run_last s₀ hts
      (by rw [hmtu]; simpa [newWork] using hle)
    have hconf := (hserves s₃ (hreach.run hrun₃) (by rw [hpost₃, hpost]; exact hpre)).1
    rw [hpost₃, hpost, hsent₃, hsent] at hconf
    have hgroup := ((hconf.drop_fits hg).first rfl).1.notified
    refine hw ⟨hle, fun hnone => ?_⟩
    -- the notification brings 0 instead of the immediate value
    rw [hnone] at hgroup
    change [some (0 : UInt32)] = [some w.1.imm] at hgroup
    simpa using hgroup.symm

/-- **An unreliable queue serves its requests exactly when each of them fits.** -/
theorem serves_iff {s₀ : RdmaUnreliableSQ} (h₀ : Fresh s₀)
    (reqs : List (SendRequest × SendFlags)) (hpos : ∀ w ∈ reqs, 1 ≤ w.1.payloadSize.toNat) :
    Serves s₀ reqs ↔ ∀ w ∈ reqs, Fits s₀.mtu w := by
  constructor
  · intro hserves
    by_contra hnot
    exact not_serves h₀ hnot hserves
  · exact serves_of_fits h₀ hpos

theorem Fresh.new (h : 0 < mtu) : Fresh { mtu } := ⟨h, rfl, rfl, rfl⟩

theorem serves_small :
    Serves { mtu := 1000 } [({ payloadSize := 1000 }, .none), ({ payloadSize := 7 }, .none)] :=
  (serves_iff (.new (by decide)) _ (by decide)).mpr (by decide)

theorem not_serves_2500 : ¬∀ s₀, Fresh s₀ → ∀ reqs : List (SendRequest × SendFlags),
    (∀ w ∈ reqs, 1 ≤ w.1.payloadSize.toNat) → Serves s₀ reqs := by
  intro h
  exact not_serves (show Fresh { mtu := 1000 } from .new (by decide)) (by decide)
    (h _ (.new (by decide)) [({ payloadSize := 2500 }, .none)] (by decide))

end RdmaUnreliableSQ
end Roce
