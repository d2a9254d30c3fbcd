import Roce.Allgather.Ring

/-! # One link of the ring

A link is a node `s`, its right neighbour `r`, and the messages between them: the request of `r`,
the blocks of `s`, and their ACKs. `LinkOk` is what holds of a link between two events, and there
is one lemma for everything that can change one of its sides. -/

namespace Roce
namespace AgRing

/-- What holds of a link, where `M` are the blocks that `r` has to recover. -/
structure LinkOk (M : List Nat) (s r : AgRuntime) (q qa : List RecoverRequest)
    (bl ba : List Transfer) : Prop where
  multicast : r.state = .multicast → r.toRecover.keys = [] ∧ q = [] ∧ qa = [] ∧
    s.hasRecvRecoverReq = false ∧ r.hasRecoveredAll = false
  unasked : s.hasRecvRecoverReq = false → s.recSent = [] ∧ s.recSentAll = false ∧ qa = [] ∧ ba = []
  asking : r.state ≠ .multicast → s.hasRecvRecoverReq = false →
    (∃ x, q = [x] ∧ (x.onSend = true ↔ M = [])) ∧ r.toRecover.keys = M ∧ r.hasRecoveredAll = false
  asked : s.hasRecvRecoverReq = true → q = [] ∧ (qa = [] ∨
    ∃ x, qa = [x] ∧ (x.onSend = true ↔ M = []) ∧ (M = [] → r.hasRecoveredAll = false))
  flight_nodup : (bl.map (·.block)).Nodup
  flight : ∀ b ∈ bl.map (·.block), b ∈ s.recSent ∧ b ∈ r.toRecover.keys
  sent : ∀ b ∈ s.recSent, b ∈ r.toRecover.keys → b ∈ bl.map (·.block)
  sentAll : s.recSentAll = true → r.toRecover.keys = []
  sentAll_of : s.hasRecvRecoverReq = true → r.toRecover.keys = [] → s.recSentAll = true ∨ ba ≠ []
  missing : ∀ b ∈ r.toRecover.keys, b ∈ M
  recovered : r.hasRecoveredAll = true → r.toRecover.keys = []
  recovered_of : r.state ≠ .multicast → r.toRecover.keys = [] →
    r.hasRecoveredAll = true ∨ (M = [] ∧ (q ≠ [] ∨ qa ≠ []))

namespace LinkOk

variable {M : List Nat} {s s' r r' : AgRuntime} {q qa : List RecoverRequest}
  {bl ba : List Transfer}

/-- The left side of a link is what it has sent and what it was asked. -/
theorem left_congr (h : LinkOk M s r q qa bl ba) (h1 : s'.hasRecvRecoverReq = s.hasRecvRecoverReq)
    (h2 : s'.recSent = s.recSent) (h3 : s'.recSentAll = s.recSentAll) :
    LinkOk M s' r q qa bl ba := by
  obtain ⟨a1, a2, a3, a4, a5, a6, a7, a8, a9, a10, a11, a12⟩ := h
  rw [← h1] at a1 a2 a3 a4 a9
  rw [← h2] at a2 a6 a7
  rw [← h3] at a2 a8 a9
  exact ⟨a1, a2, a3, a4, a5, a6, a7, a8, a9, a10, a11, a12⟩

/-- The right side of a link is what it misses, and whether it has left the multicast phase. -/
theorem right_congr (h : LinkOk M s r q qa bl ba) (h1 : r'.toRecover = r.toRecover)
    (h2 : r'.hasRecoveredAll = r.hasRecoveredAll)
    (h3 : r'.state = .multicast ↔ r.state = .multicast) : LinkOk M s r' q qa bl ba := by
  obtain ⟨a1, a2, a3, a4, a5, a6, a7, a8, a9, a10, a11, a12⟩ := h
  rw [← h1] at a1 a3 a6 a7 a8 a9 a10 a11 a12
  rw [← h2] at a1 a3 a4 a11 a12
  rw [← h3] at a1
  rw [ne_eq, ← h3] at a3 a12
  exact ⟨a1, a2, a3, a4, a5, a6, a7, a8, a9, a10, a11, a12⟩

/-- The right node leaves the multicast phase and sends its request. -/
theorem leave (h : LinkOk M s r q qa bl ba) (hm : r.state = .multicast)
    (hr : r'.state = .recovery) (hT : r'.toRecover.keys = M)
    (hall : r'.hasRecoveredAll = r.hasRecoveredAll) (x : RecoverRequest)
    (hx : x.onSend = true ↔ M = []) : LinkOk M s r' (q ++ [x]) qa bl ba := by
  obtain ⟨hnil, rfl, rfl, hreq, hrec⟩ := h.multicast hm
  obtain ⟨hsent, hsentAll, -, rfl⟩ := h.unasked hreq
  have hbl : bl.map (·.block) = [] := by
    refine List.eq_nil_iff_forall_not_mem.mpr fun b hb => ?_
    have := (h.flight b hb).1
    rw [hsent] at this
    cases this
  constructor
  case multicast => rw [hr]; exact fun h => nomatch h
  case unasked => exact fun _ => ⟨hsent, hsentAll, rfl, rfl⟩
  case asking => exact fun _ _ => ⟨⟨x, rfl, hx⟩, hT, hall.trans hrec⟩
  case asked => rw [hreq]; exact fun h => nomatch h
  case flight_nodup => exact h.flight_nodup
  case flight => rw [hbl]; exact fun _ hb => nomatch hb
  case sent => rw [hsent]; exact fun _ hb => nomatch hb
  case sentAll => rw [hsentAll]; exact fun h => nomatch h
  case sentAll_of => rw [hreq]; exact fun h => nomatch h
  case missing => rw [hT]; exact fun _ hb => hb
  case recovered => rw [hall, hrec]; exact fun h => nomatch h
  case recovered_of => exact fun _ hnil => .inr ⟨hT ▸ hnil, .inl (by simp)⟩

/-- The left node receives the request. -/
theorem request (h : LinkOk M s r (x :: q) qa bl ba) (hs : s'.hasRecvRecoverReq = true)
    (hsent : s'.recSent = s.recSent)
    (hall : s'.recSentAll = (s.recSentAll || r.toRecover.isEmpty)) :
    LinkOk M s' r q (qa ++ [x]) bl ba := by
  have hne : r.state ≠ .multicast := fun hm => nomatch (h.multicast hm).2.1
  have hreq : s.hasRecvRecoverReq = false := by
    cases hreq : s.hasRecvRecoverReq
    · rfl
    · exact nomatch (h.asked hreq).1
  obtain ⟨⟨x', hx', hiff⟩, hT, hrec⟩ := h.asking hne hreq
  obtain ⟨rfl, rfl⟩ : x = x' ∧ q = [] := by simpa using hx'
  obtain ⟨hnil, hsentAll, rfl, rfl⟩ := h.unasked hreq
  rw [hsentAll, Bool.false_or] at hall
  constructor
  case multicast => exact fun hm => absurd hm hne
  case unasked => rw [hs]; exact fun h => nomatch h
  case asking => rw [hs]; exact fun _ h => nomatch h
  case asked => exact fun _ => ⟨rfl, .inr ⟨x, rfl, hiff, fun _ => hrec⟩⟩
  case flight_nodup => exact h.flight_nodup
  case flight => rw [hsent]; exact h.flight
  case sent => rw [hsent]; exact h.sent
  case sentAll => rw [hall]; exact OrdMap.isEmpty_iff.mp
  case sentAll_of => rw [hall]; exact fun _ hT => .inl (OrdMap.isEmpty_iff.mpr hT)
  case missing => exact h.missing
  case recovered => exact h.recovered
  case recovered_of => exact fun _ hT' => .inr ⟨hT ▸ hT', .inr (by simp)⟩

/-- The request calls back exactly when there is nothing to recover. -/
theorem onSend_iff (h : LinkOk M s r q (x :: qa) bl ba) : x.onSend = true ↔ M = [] := by
  cases hreq : s.hasRecvRecoverReq
  · exact nomatch (h.unasked hreq).2.2.1
  · obtain ⟨x', hx', hiff, -⟩ := (h.asked hreq).2.resolve_left (by simp)
    obtain ⟨rfl, -⟩ : x = x' ∧ qa = [] := by simpa using hx'
    exact hiff

/-- The right node receives the ACK of its request; it has recovered everything if it misses
nothing and the request told it to look. -/
theorem requestAck (h : LinkOk M s r q (x :: qa) bl ba) (hT : r'.toRecover = r.toRecover)
    (hst : r'.state = .multicast ↔ r.state = .multicast)
    (hall : r'.hasRecoveredAll =
      (r.hasRecoveredAll || (x.onSend && r.toRecover.isEmpty))) :
    LinkOk M s r' q qa bl ba := by
  have hne : r.state ≠ .multicast := fun hm => nomatch (h.multicast hm).2.2.1
  have hreq : s.hasRecvRecoverReq = true := by
    cases hreq : s.hasRecvRecoverReq
    · exact nomatch (h.unasked hreq).2.2.1
    · rfl
  obtain ⟨rfl, hqa⟩ := h.asked hreq
  obtain ⟨x', hx', hiff, hrec⟩ := hqa.resolve_left (by simp)
  obtain ⟨rfl, rfl⟩ : x = x' ∧ qa = [] := by simpa using hx'
  constructor
  case multicast => rw [hst]; exact fun hm => absurd hm hne
  case unasked => rw [hreq]; exact fun h => nomatch h
  case asking => rw [hreq]; exact fun _ h => nomatch h
  case asked => exact fun _ => ⟨rfl, .inl rfl⟩
  case flight_nodup => exact h.flight_nodup
  case flight => rw [hT]; exact h.flight
  case sent => rw [hT]; exact h.sent
  case sentAll => rw [hT]; exact h.sentAll
  case sentAll_of => rw [hT]; exact h.sentAll_of
  case missing => rw [hT]; exact h.missing
  case recovered =>
    rw [hT, hall, Bool.or_eq_true, Bool.and_eq_true]
    rintro (hr | ⟨-, hempty⟩)
    · exact h.recovered hr
    · exact OrdMap.isEmpty_iff.mp hempty
  case recovered_of =>
    intro hne' hnil
    rw [ne_eq, hst] at hne'
    rw [hT] at hnil
    left
    rw [hall]
    rcases h.recovered_of hne' hnil with hr | ⟨hM, -⟩
    · rw [hr, Bool.true_or]
    · rw [hiff.mpr hM, OrdMap.isEmpty_iff.mpr hnil, Bool.and_true, Bool.or_true]

/-- The right node receives a block. -/
theorem block (h : LinkOk M s r q qa (b :: bl) ba)
    (hT : r'.toRecover = r.toRecover.erase b.block)
    (hst : r'.state = .multicast ↔ r.state = .multicast)
    (hall : r'.hasRecoveredAll = (r.hasRecoveredAll || (r.toRecover.erase b.block).isEmpty)) :
    LinkOk M s r' q qa bl (ba ++ [b]) := by
  obtain ⟨hbsent, hbT⟩ := h.flight b.block (by simp)
  have hTne : r.toRecover.keys ≠ [] := fun hnil => by rw [hnil] at hbT; cases hbT
  have hne : r.state ≠ .multicast := fun hm => hTne (h.multicast hm).1
  have hreq : s.hasRecvRecoverReq = true := by
    cases hreq : s.hasRecvRecoverReq
    · rw [(h.unasked hreq).1] at hbsent
      cases hbsent
    · rfl
  have hrec : r.hasRecoveredAll = false := by
    cases hrec : r.hasRecoveredAll
    · rfl
    · exact absurd (h.recovered hrec) hTne
  rw [hrec, Bool.false_or] at hall
  obtain ⟨hbnot, hnodup⟩ := List.nodup_cons.mp h.flight_nodup
  constructor
  case multicast => rw [hst]; exact fun hm => absurd hm hne
  case unasked => rw [hreq]; exact fun h => nomatch h
  case asking => rw [hreq]; exact fun _ h => nomatch h
  case asked =>
    refine fun _ => ⟨(h.asked hreq).1, ?_⟩
    rcases (h.asked hreq).2 with hqa | ⟨x, hqa, hiff, -⟩
    · exact .inl hqa
    · -- a node that misses a block has something to recover
      refine .inr ⟨x, hqa, hiff, fun hM => ?_⟩
      have := h.missing b.block hbT
      rw [hM] at this
      cases this
  case flight_nodup => exact hnodup
  case flight =>
    intro c hc
    obtain ⟨h1, h2⟩ := h.flight c (List.mem_cons_of_mem _ hc)
    rw [hT, OrdMap.mem_keys_erase]
    refine ⟨h1, fun heq => ?_, h2⟩
    have hmem : b.block ∈ bl.map (·.block) := heq ▸ hc
    exact hbnot hmem
  case sent =>
    intro c hc hcT
    rw [hT, OrdMap.mem_keys_erase] at hcT
    rcases List.mem_cons.mp (h.sent c hc hcT.2) with heq | hmem
    · exact absurd heq hcT.1
    · exact hmem
  case sentAll => exact fun hs => absurd (h.sentAll hs) hTne
  case sentAll_of => exact fun _ _ => .inr (by simp)
  case missing =>
    intro c hc
    rw [hT] at hc
    exact h.missing c (OrdMap.mem_keys_erase.mp hc).2
  case recovered => rw [hall, hT]; exact OrdMap.isEmpty_iff.mp
  case recovered_of => rw [hall, hT]; exact fun _ hnil => .inl (OrdMap.isEmpty_iff.mpr hnil)

/-- The left node receives the ACK of a block. -/
theorem blockAck (h : LinkOk M s r q qa bl (b :: ba))
    (hreq : s'.hasRecvRecoverReq = s.hasRecvRecoverReq) (hsent : s'.recSent = s.recSent)
    (hall : s'.recSentAll = (s.recSentAll || r.toRecover.isEmpty)) :
    LinkOk M s' r q qa bl ba := by
  have hasked : s.hasRecvRecoverReq = true := by
    cases hasked : s.hasRecvRecoverReq
    · exact nomatch (h.unasked hasked).2.2.2
    · rfl
  rw [hasked] at hreq
  constructor
  case multicast =>
    intro hm
    have := (h.multicast hm).2.2.2.1
    rw [hasked] at this
    cases this
  case unasked => rw [hreq]; exact fun h => nomatch h
  case asking => rw [hreq]; exact fun _ h => nomatch h
  case asked => exact fun _ => h.asked hasked
  case flight_nodup => exact h.flight_nodup
  case flight => rw [hsent]; exact h.flight
  case sent => rw [hsent]; exact h.sent
  case sentAll =>
    rw [hall, Bool.or_eq_true]
    rintro (hs | hempty)
    · exact h.sentAll hs
    · exact OrdMap.isEmpty_iff.mp hempty
  case sentAll_of =>
    rw [hall]
    intro _ hnil
    rw [OrdMap.isEmpty_iff.mpr hnil, Bool.or_true]
    exact .inl rfl
  case missing => exact h.missing
  case recovered => exact h.recovered
  case recovered_of => exact h.recovered_of

/-- The left node posts blocks. -/
theorem post (h : LinkOk M s r q qa bl ba) (cfg : AgConfig)
    (hreq : s'.hasRecvRecoverReq = s.hasRecvRecoverReq) (hall : s'.recSentAll = s.recSentAll)
    (hsent : s'.recSent = s.recSent ++ (s.posting cfg r.toRecover).map (·.block)) :
    LinkOk M s' r q qa (bl ++ s.posting cfg r.toRecover) ba := by
  have hnew : ∀ b ∈ (s.posting cfg r.toRecover).map (·.block), s.hasRecvRecoverReq = true ∧
      b ∈ r.toRecover.keys ∧ b ∉ s.recSent := by
    intro b hb
    obtain ⟨h1, -, h2, h3, -⟩ := AgRuntime.mem_posting.mp hb
    exact ⟨h1, h2, h3⟩
  constructor
  case multicast => rw [hreq]; exact h.multicast
  case unasked =>
    rw [hreq, hall, hsent]
    intro hno
    have hnil : (s.posting cfg r.toRecover).map (·.block) = [] :=
      List.eq_nil_iff_forall_not_mem.mpr fun b hb => by
        have := (hnew b hb).1
        rw [hno] at this
        cases this
    rw [hnil, List.append_nil]
    exact h.unasked hno
  case asking => rw [hreq]; exact h.asking
  case asked => rw [hreq]; exact h.asked
  case flight_nodup =>
    rw [List.map_append]
    refine List.nodup_append.mpr ⟨h.flight_nodup, AgRuntime.posting_nodup .., ?_⟩
    rintro b hb _ hb' rfl
    exact (hnew b hb').2.2 (h.flight b hb).1
  case flight =>
    intro b hb
    rw [List.map_append] at hb
    rw [hsent]
    rcases List.mem_append.mp hb with hb | hb
    · exact ⟨List.mem_append_left _ (h.flight b hb).1, (h.flight b hb).2⟩
    · exact ⟨List.mem_append_right _ hb, (hnew b hb).2.1⟩
  case sent =>
    intro b hb hbT
    rw [hsent] at hb
    rw [List.map_append]
    rcases List.mem_append.mp hb with hb | hb
    · exact List.mem_append_left _ (h.sent b hb hbT)
    · exact List.mem_append_right _ hb
  case sentAll => rw [hall]; exact h.sentAll
  case sentAll_of => rw [hreq, hall]; exact h.sentAll_of
  case missing => exact h.missing
  case recovered => exact h.recovered
  case recovered_of => exact h.recovered_of

end LinkOk

/-! ## `TryUpdateState` on a link -/

/-- A finished node has recovered all and sent all, and a node in recovery has not. -/
structure NodeOk (rt : AgRuntime) : Prop where
  finished : rt.state = .finished → rt.hasRecoveredAll = true ∧ rt.recSentAll = true
  recovery : rt.state = .recovery → rt.hasRecoveredAll = false ∨ rt.recSentAll = false

/-- `s` has sent every block that `r` misses and that it has. -/
def UpToDate (s r : AgRuntime) : Prop :=
  ∀ b ∈ r.toRecover.keys, b ∉ s.toRecover.keys → b ∈ s.recSent

/-- What `TryUpdateState` leaves alone. -/
structure SameBut (rt rt' : AgRuntime) : Prop where
  toRecover : rt'.toRecover = rt.toRecover
  hasRecoveredAll : rt'.hasRecoveredAll = rt.hasRecoveredAll
  hasRecvRecoverReq : rt'.hasRecvRecoverReq = rt.hasRecvRecoverReq
  recSentAll : rt'.recSentAll = rt.recSentAll
  block : rt'.block = rt.block
  recv : rt'.recv = rt.recv
  multicast : rt'.state = .multicast ↔ rt.state = .multicast

theorem SameBut.trans {rt u v : AgRuntime} (h : SameBut rt u) (h' : SameBut u v) :
    SameBut rt v :=
  ⟨h'.1.trans h.1, h'.2.trans h.2, h'.3.trans h.3, h'.4.trans h.4, h'.5.trans h.5,
    h'.6.trans h.6, h'.7.trans h.7⟩

/-- **`TryUpdateState`** on the left node of a link: whatever it was called for, the node is up to
date afterwards. -/
theorem LinkOk.tryUpdateState {M : List Nat} {rt r : AgRuntime} {q qa : List RecoverRequest}
    {bl ba : List Transfer} (h : LinkOk M rt r q qa bl ba) (cfg : AgConfig) (sh : AgShared)
    (hok : rt.state ≠ .recovery → NodeOk rt) :
    ∃ rt' sh' posted, rt.tryUpdateState cfg r.toRecover sh = (rt', sh', posted) ∧
      LinkOk M rt' r q qa (bl ++ posted) ba ∧ NodeOk rt' ∧ SameBut rt rt' ∧
      (rt'.state ≠ .multicast → rt'.hasRecvRecoverReq = true → UpToDate rt' r) := by
  by_cases hst : rt.state = .recovery
  · obtain ⟨sh', heq⟩ := AgRuntime.tryUpdateState_eq cfg r.toRecover sh hst
    refine ⟨_, sh', _, heq, h.post cfg rfl rfl rfl, ?_, ⟨rfl, rfl, rfl, rfl, rfl, rfl, ?_⟩,
      fun _ hreq b hb hnot => ?_⟩
    · cases hrec : rt.hasRecoveredAll <;> cases hsent : rt.recSentAll <;>
        constructor <;> simp
    · rw [hst]
      cases rt.hasRecoveredAll <;> cases rt.recSentAll <;> simp
    · cases hall : rt.recSentAll
      · by_cases hmem : b ∈ rt.recSent
        · exact List.mem_append_left _ hmem
        · exact List.mem_append_right _
            (AgRuntime.mem_posting.mpr ⟨hreq, hall, hb, hmem, hnot⟩)
      · rw [h.sentAll hall] at hb
        cases hb
  · refine ⟨rt, sh, [], ?_, by rwa [List.append_nil], hok hst,
      ⟨rfl, rfl, rfl, rfl, rfl, rfl, Iff.rfl⟩, fun hne _ b hb _ => ?_⟩
    · rw [AgRuntime.tryUpdateState, if_pos hst]
    · -- a finished node has sent all
      have hfin : rt.state = .finished := by
        cases hs : rt.state
        · exact absurd hs hne
        · exact absurd hs hst
        · rfl
      rw [h.sentAll ((hok hst).finished hfin).2] at hb
      cases hb

end AgRing
end Roce
