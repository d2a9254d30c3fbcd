import Roce.Lib.Tiling
import Roce.QueuePair.ReliableSQ
import Mathlib.Data.List.Infix
import Mathlib.Tactic.Common

/-! # What the functions of `RdmaReliableSQ` do

One specification for each function, below the bound of 2^64 posted bytes that keeps PSNs from
wrapping. The invariant they share is `Laid`: the posted requests tile the PSNs from 0 to
`m_next_op_first_psn`, and `m_to_send` holds the ones that are not completed yet. -/

namespace Roce

/-- The end of a request, before the truncation to 64 bits. -/
def SendRequest.endPsn (r : SendRequest) : Nat := r.firstPsn + r.payloadSize.toNat

/-- Total payload of the posted requests. -/
def totalBytes (l : List SendRequest) : Nat := (l.map (·.payloadSize.toNat)).sum

@[simp] theorem totalBytes_nil : totalBytes [] = 0 := rfl

@[simp] theorem totalBytes_append (l l' : List SendRequest) :
    totalBytes (l ++ l') = totalBytes l + totalBytes l' := by simp [totalBytes]

@[simp] theorem totalBytes_singleton (r : SendRequest) :
    totalBytes [r] = r.payloadSize.toNat := by simp [totalBytes]

theorem totalBytes_mono {l l' : List SendRequest} (h : l <+: l') :
    totalBytes l ≤ totalBytes l' := by
  obtain ⟨t, rfl⟩ := h
  rw [totalBytes_append]
  exact Nat.le_add_right ..

theorem Tiles.totalBytes_eq {l : List SendRequest}
    (h : Tiles SendRequest.firstPsn SendRequest.endPsn a l b) : a + totalBytes l = b := by
  induction l generalizing a with
  | nil => exact h
  | cons r l ih =>
    obtain ⟨rfl, _, ht⟩ := h
    have := ih ht
    simp only [totalBytes, List.map_cons, List.sum_cons, SendRequest.endPsn] at this ⊢
    omega

namespace RdmaReliableSQ

/-- The posted requests tile `[0, m_next_op_first_psn)`; the completed ones, which the
acknowledged PSNs cover, come first and had their callback called; the others are in the map,
under their first PSN. -/
structure Laid (s : RdmaReliableSQ) : Prop where
  tiles : Tiles SendRequest.firstPsn SendRequest.endPsn 0 s.log.posted s.nextOpFirstPsn
  split : ∃ d, s.log.posted = d ++ s.toSend.values ∧ s.log.called = d.filter (·.onSend) ∧
    ∀ r ∈ d, r.endPsn ≤ s.sndUna
  keyed : ∀ e ∈ s.toSend.entries, e.1 = e.2.firstPsn

/-- `s'` differs from `s` by posted and completed requests only. -/
def PostsOnly (s s' : RdmaReliableSQ) : Prop :=
  s' = { s with
    toSend := s'.toSend
    nextOpFirstPsn := s'.nextOpFirstPsn
    log := { s'.log with sent := s.log.sent } }

theorem PostsOnly.refl (s : RdmaReliableSQ) : PostsOnly s s := rfl

theorem PostsOnly.trans {s t u : RdmaReliableSQ} (h : PostsOnly s t) (h' : PostsOnly t u) :
    PostsOnly s u := by
  unfold PostsOnly at h h' ⊢
  rw [h'] at *
  rw [h]

theorem PostsOnly.sndUna {s s' : RdmaReliableSQ} (h : PostsOnly s s') :
    s'.sndUna = s.sndUna := by
  rw [h]

namespace Laid

variable {s : RdmaReliableSQ}

theorem nextOp_eq (h : Laid s) : s.nextOpFirstPsn = totalBytes s.log.posted := by
  have := h.tiles.totalBytes_eq
  omega

theorem mem_posted (h : Laid s) (hr : r ∈ s.toSend.values) : r ∈ s.log.posted := by
  obtain ⟨d, hd, _⟩ := h.split
  exact hd ▸ List.mem_append_right _ hr

theorem mem_values (h : Laid s) (hr : r ∈ s.log.posted) (hlt : s.sndUna < r.endPsn) :
    r ∈ s.toSend.values := by
  obtain ⟨d, hd, _, hle⟩ := h.split
  rcases List.mem_append.mp (hd ▸ hr) with hr | hr
  · have := hle r hr; omega
  · exact hr

theorem mem_entries (h : Laid s) (hr : r ∈ s.toSend.values) :
    (r.firstPsn, r) ∈ s.toSend.entries := by
  obtain ⟨e, he, rfl⟩ := List.mem_map.mp hr
  rw [← h.keyed e he]
  exact he

theorem endPsn_le (h : Laid s) (hr : r ∈ s.log.posted) : r.endPsn ≤ s.nextOpFirstPsn :=
  (h.tiles.mem_bounds hr).2.2

theorem getEndPsn_eq (h : Laid s) (hb : totalBytes s.log.posted < 2 ^ 64)
    (hr : r ∈ s.log.posted) : r.getEndPsn = r.endPsn := by
  have h1 := h.endPsn_le hr
  have h2 := h.nextOp_eq
  exact u64_of_lt (by unfold SendRequest.endPsn at h1; omega)

/-- A PSN that is posted and not acknowledged lies in a request of the map. -/
theorem exists_cover (h : Laid s) (hlo : s.sndUna ≤ p) (hhi : p < s.nextOpFirstPsn) :
    ∃ r ∈ s.toSend.values, r.firstPsn ≤ p ∧ p < r.endPsn := by
  obtain ⟨r, hr, hcov⟩ := h.tiles.exists_cover (Nat.zero_le p) hhi
  exact ⟨r, h.mem_values hr (by omega), hcov⟩

/-- The lookup of `GetNextPacket` finds the request that a PSN lies in. -/
theorem floor?_eq (h : Laid s) (hr : r ∈ s.toSend.values) (hlo : r.firstPsn ≤ p)
    (hhi : p < r.endPsn) : s.toSend.floor? p = some (r.firstPsn, r) := by
  refine OrdMap.floor?_eq_some (h.mem_entries hr) hlo fun e he hle => ?_
  rw [h.keyed e he] at hle ⊢
  have he' : e.2 ∈ s.toSend.values := List.mem_map.mpr ⟨e, he, rfl⟩
  have hb := h.tiles.mem_bounds (h.mem_posted he')
  rcases Nat.lt_or_ge r.firstPsn e.2.firstPsn with hlt | hge
  · have := h.tiles.cover_unique (p := e.2.firstPsn) (h.mem_posted he') (h.mem_posted hr)
      ⟨Nat.le_refl _, hb.2.1⟩ ⟨Nat.le_of_lt hlt, by omega⟩
    rw [this] at hlt
    exact absurd hlt (Nat.lt_irrefl _)
  · exact hge

end Laid

/-! ## `PostSend` -/

theorem stored_size_pos (s : RdmaReliableSQ) (sr : SendRequest) :
    0 < (s.stored sr).payloadSize.toNat := by
  simp only [stored]
  split
  next => decide
  next h => exact Nat.pos_of_ne_zero fun h0 => h (UInt32.toNat_inj.mp h0)

theorem postSend_postsOnly (s : RdmaReliableSQ) (sr : SendRequest) :
    PostsOnly s (s.postSend sr) := rfl

@[simp] theorem postSend_posted (s : RdmaReliableSQ) (sr : SendRequest) :
    (s.postSend sr).log.posted = s.log.posted ++ [s.stored sr] := rfl

@[simp] theorem postSend_called (s : RdmaReliableSQ) (sr : SendRequest) :
    (s.postSend sr).log.called = s.log.called := rfl

/-- A posted request goes to the end of the map. -/
theorem Laid.postSend_entries {s : RdmaReliableSQ} (h : Laid s) (sr : SendRequest) :
    (s.postSend sr).toSend.entries =
      s.toSend.entries ++ [(s.nextOpFirstPsn, s.stored sr)] := by
  refine OrdMap.entries_insert_last fun e he => ?_
  have he' : e.2 ∈ s.toSend.values := List.mem_map.mpr ⟨e, he, rfl⟩
  have hb := h.tiles.mem_bounds (h.mem_posted he')
  rw [h.keyed e he]
  exact Nat.lt_of_lt_of_le hb.2.1 hb.2.2

theorem Laid.postSend {s : RdmaReliableSQ} (h : Laid s)
    (hb : totalBytes (s.postSend sr).log.posted < 2 ^ 64) : Laid (s.postSend sr) := by
  have hpos := s.stored_size_pos sr
  have hnext := h.nextOp_eq
  simp only [postSend_posted, totalBytes_append, totalBytes_singleton] at hb
  have hend : u64 (s.nextOpFirstPsn + (s.stored sr).payloadSize.toNat) = (s.stored sr).endPsn :=
    u64_of_lt (by omega)
  have hent := h.postSend_entries sr
  refine ⟨?_, ?_, ?_⟩
  · change Tiles _ _ 0 (s.log.posted ++ [s.stored sr]) (u64 _)
    rw [hend]
    exact h.tiles.snoc rfl (Nat.lt_add_of_pos_right hpos)
  · obtain ⟨d, hd, hc, hle⟩ := h.split
    refine ⟨d, ?_, hc, hle⟩
    rw [OrdMap.values, hent, List.map_append, postSend_posted, hd, List.append_assoc]
    rfl
  · rw [hent]
    intro e he
    rcases List.mem_append.mp he with he | he
    · exact h.keyed e he
    · cases List.mem_singleton.mp he
      rfl

theorem foldl_postSend_postsOnly (s : RdmaReliableSQ) (l : List SendRequest) :
    PostsOnly s (l.foldl postSend s) ∧ s.log.posted <+: (l.foldl postSend s).log.posted ∧
      (l.foldl postSend s).log.called = s.log.called := by
  induction l generalizing s with
  | nil => exact ⟨.refl s, List.prefix_rfl, rfl⟩
  | cons sr l ih =>
    obtain ⟨h1, h2, h3⟩ := ih (s.postSend sr)
    exact ⟨(s.postSend_postsOnly sr).trans h1, (List.prefix_append ..).trans h2, h3⟩

/-- Posting puts entries behind the ones of the map, above the PSNs posted before. -/
theorem Laid.foldl_postSend {s : RdmaReliableSQ} {l : List SendRequest} (h : Laid s)
    (hb : totalBytes (l.foldl RdmaReliableSQ.postSend s).log.posted < 2 ^ 64) :
    Laid (l.foldl RdmaReliableSQ.postSend s) ∧
      ∃ m, (l.foldl RdmaReliableSQ.postSend s).toSend.entries = s.toSend.entries ++ m ∧
        ∀ e ∈ m, s.nextOpFirstPsn ≤ e.2.firstPsn := by
  induction l generalizing s with
  | nil => exact ⟨h, [], (List.append_nil _).symm, fun _ he => nomatch he⟩
  | cons sr l ih =>
    have hp := totalBytes_mono (foldl_postSend_postsOnly (s.postSend sr) l).2.1
    have hl := h.postSend (Nat.lt_of_le_of_lt hp hb)
    obtain ⟨h1, m, hm, hge⟩ := ih hl hb
    have hle : s.nextOpFirstPsn ≤ (s.postSend sr).nextOpFirstPsn := by
      rw [hl.nextOp_eq, h.nextOp_eq]
      exact totalBytes_mono (List.prefix_append ..)
    refine ⟨h1, (s.nextOpFirstPsn, s.stored sr) :: m, ?_, fun e he => ?_⟩
    · rw [List.foldl_cons, hm, h.postSend_entries sr, List.append_assoc]
      rfl
    · rcases List.mem_cons.mp he with rfl | he
      · exact Nat.le_refl _
      · exact Nat.le_trans hle (hge e he)

/-- Posting does not look at the history of calls. -/
theorem foldl_postSend_called (s : RdmaReliableSQ) (l c : List SendRequest) :
    l.foldl postSend { s with log.called := c } =
      { l.foldl postSend s with log.called := c } := by
  induction l generalizing s with
  | nil => rfl
  | cons sr l ih => exact ih (s.postSend sr)

/-! ## `NotifyPendingCompEvents` -/

/-- One turn of the loop: the callback of the first request, then its removal. -/
def complete (s : RdmaReliableSQ) (cb : Callbacks) (key : Nat) (next : SendRequest) :
    RdmaReliableSQ :=
  { s.callOnSend cb next with toSend := (s.callOnSend cb next).toSend.erase key }

theorem callOnSend_postsOnly (s : RdmaReliableSQ) (cb : Callbacks) (next : SendRequest) :
    PostsOnly s (s.callOnSend cb next) ∧ s.log.posted <+: (s.callOnSend cb next).log.posted ∧
      (s.callOnSend cb next).log.called = s.log.called ++ [next].filter (·.onSend) := by
  unfold callOnSend
  split
  next hn =>
    obtain ⟨h1, h2, h3⟩ := foldl_postSend_postsOnly
      { s with log.called := s.log.called ++ [next] } (cb next)
    exact ⟨h1, h2, by rw [h3]; simp [hn]⟩
  next hn => exact ⟨.refl s, List.prefix_rfl, by simp [hn]⟩

theorem complete_postsOnly (s : RdmaReliableSQ) (cb : Callbacks) (key : Nat)
    (next : SendRequest) :
    PostsOnly s (s.complete cb key next) ∧
      s.log.posted <+: (s.complete cb key next).log.posted := by
  obtain ⟨h1, h2, _⟩ := s.callOnSend_postsOnly cb next
  exact ⟨h1.trans rfl, h2⟩

/-- A turn of the loop moves the first request of the map to the completed ones; what the
callback posts goes to the end of the map. -/
theorem Laid.complete {s : RdmaReliableSQ} (h : Laid s)
    (hhead : s.toSend.entries = (key, next) :: l) (hle : next.endPsn ≤ s.sndUna)
    (hb : totalBytes (s.complete cb key next).log.posted < 2 ^ 64) :
    Laid (s.complete cb key next) ∧ ∃ m, (s.complete cb key next).toSend.entries = l ++ m ∧
      ∀ e ∈ m, s.nextOpFirstPsn ≤ e.2.firstPsn := by
  -- `u` is the queue after the posts of the callback
  obtain ⟨u, hu, ⟨m, hent, hm⟩, hcu, hcomp⟩ : ∃ u, Laid u ∧
      (∃ m, u.toSend.entries = s.toSend.entries ++ m ∧ ∀ e ∈ m, s.nextOpFirstPsn ≤ e.2.firstPsn) ∧
      u.sndUna = s.sndUna ∧ s.complete cb key next =
        { u with
          toSend := u.toSend.erase key
          log.called := u.log.called ++ [next].filter (·.onSend) } := by
    by_cases hn : next.onSend
    · have hcall : s.callOnSend cb next =
          { (cb next).foldl RdmaReliableSQ.postSend s with
            log.called := s.log.called ++ [next] } := by
        rw [callOnSend, if_pos hn, foldl_postSend_called]
      have hpo := foldl_postSend_postsOnly s (cb next)
      have hb' : totalBytes ((cb next).foldl RdmaReliableSQ.postSend s).log.posted < 2 ^ 64 := by
        simpa only [RdmaReliableSQ.complete, hcall] using hb
      obtain ⟨h1, h2⟩ := h.foldl_postSend hb'
      refine ⟨_, h1, h2, hpo.1.sndUna, ?_⟩
      rw [RdmaReliableSQ.complete, hcall, hpo.2.2]
      simp [hn]
    · refine ⟨s, h, ⟨[], (List.append_nil _).symm, fun _ he => nomatch he⟩, rfl, ?_⟩
      simp [RdmaReliableSQ.complete, callOnSend, hn]
  have hl' : u.toSend.entries = (key, next) :: (l ++ m) := by rw [hent, hhead]; rfl
  have herase := OrdMap.entries_erase_head hl'
  rw [hcomp]
  refine ⟨⟨hu.tiles, ?_, ?_⟩, m, herase, hm⟩
  · obtain ⟨d, hd, hc, hdle⟩ := hu.split
    refine ⟨d ++ [next], ?_, ?_, ?_⟩
    · rw [OrdMap.values, herase, List.append_assoc]
      rw [OrdMap.values, hl'] at hd
      exact hd
    · rw [List.filter_append, ← hc]
    · intro r hr
      rcases List.mem_append.mp hr with hr | hr
      · exact hdle r hr
      · cases List.mem_singleton.mp hr
        exact hcu ▸ hle
  · rw [herase]
    intro e he
    exact hu.keyed e (hl' ▸ List.mem_cons_of_mem _ he)

/-- The loop ends with no completed request at the head of the map. -/
def HeadPending (s : RdmaReliableSQ) : Prop :=
  ∀ e ∈ s.toSend.begin?, s.sndUna < e.2.endPsn

theorem notify_postsOnly (h : notifyPendingCompEvents cb fuel s = some s') :
    PostsOnly s s' ∧ s.log.posted <+: s'.log.posted := by
  induction fuel generalizing s with
  | zero => cases h
  | succ fuel ih =>
    simp only [notifyPendingCompEvents] at h
    split at h
    · cases h
      exact ⟨.refl _, List.prefix_rfl⟩
    · next key next _ =>
      split at h
      · cases h
        exact ⟨.refl _, List.prefix_rfl⟩
      · obtain ⟨h1, h2⟩ := ih h
        obtain ⟨h3, h4⟩ := s.complete_postsOnly cb key next
        exact ⟨h3.trans h1, h4.trans h2⟩

/-- **`NotifyPendingCompEvents`** completes requests until the head of the map is pending. -/
theorem notify_spec (h : notifyPendingCompEvents cb fuel s = some s') (hs : Laid s)
    (hb : totalBytes s'.log.posted < 2 ^ 64) : Laid s' ∧ HeadPending s' := by
  induction fuel generalizing s with
  | zero => cases h
  | succ fuel ih =>
    have hb' := Nat.lt_of_le_of_lt (totalBytes_mono (notify_postsOnly h).2) hb
    simp only [notifyPendingCompEvents] at h
    split at h
    next hnone =>
      cases h
      exact ⟨hs, fun e he => by rw [hnone] at he; cases he⟩
    next key next hsome =>
      obtain ⟨l, hl⟩ := OrdMap.begin?_eq_some.mp hsome
      have hmem : next ∈ s.log.posted :=
        hs.mem_posted (List.mem_map.mpr ⟨(key, next), by rw [hl]; simp, rfl⟩)
      have hend := hs.getEndPsn_eq hb' hmem
      split at h
      next hlt =>
        cases h
        refine ⟨hs, fun e he => ?_⟩
        rw [hsome] at he
        cases he
        rwa [← hend]
      next hge =>
        have hcb := Nat.lt_of_le_of_lt (totalBytes_mono (notify_postsOnly h).2) hb
        exact ih h (hs.complete hl (by omega) hcb).1

/-- The bytes that the callbacks of `l` post. -/
def promised (cb : Callbacks) (l : List SendRequest) : Nat :=
  (((l.filter (·.onSend)).flatMap cb).map fun sr => max 1 sr.payloadSize.toNat).sum

theorem stored_size (s : RdmaReliableSQ) (sr : SendRequest) :
    (s.stored sr).payloadSize.toNat = max 1 sr.payloadSize.toNat := by
  simp only [stored]
  split
  next h => rw [h]; rfl
  next h =>
    have : sr.payloadSize.toNat ≠ 0 := fun h0 => h (UInt32.toNat_inj.mp h0)
    omega

theorem foldl_postSend_totalBytes (s : RdmaReliableSQ) (l : List SendRequest) :
    totalBytes (l.foldl postSend s).log.posted =
      totalBytes s.log.posted + (l.map fun sr => max 1 sr.payloadSize.toNat).sum := by
  induction l generalizing s with
  | nil => simp
  | cons sr l ih =>
    rw [List.foldl_cons, ih, postSend_posted, totalBytes_append, totalBytes_singleton,
      stored_size, List.map_cons, List.sum_cons, Nat.add_assoc]

theorem callOnSend_totalBytes (s : RdmaReliableSQ) (cb : Callbacks) (next : SendRequest) :
    totalBytes (s.callOnSend cb next).log.posted =
      totalBytes s.log.posted + promised cb [next] := by
  unfold callOnSend promised
  split
  next hn => rw [foldl_postSend_totalBytes]; simp [hn]
  next hn => simp [hn]

/-- The loop ends: a request posted by a callback starts above the acknowledged PSNs, so it takes
one turn for each request that was in the map before. Here `m` are the entries behind these. -/
theorem notify_terminates {s : RdmaReliableSQ} (hs : Laid s) (hle : s.sndUna ≤ s.nextOpFirstPsn)
    (hent : s.toSend.entries = l ++ m) (hm : ∀ e ∈ m, s.sndUna < e.2.endPsn)
    (hb : totalBytes s.log.posted + promised cb (l.map (·.2)) < 2 ^ 64) :
    (notifyPendingCompEvents cb (l.length + 1) s).isSome := by
  induction l generalizing s m with
  | nil =>
    simp only [List.length_nil, notifyPendingCompEvents]
    split
    next => rfl
    next key next hsome =>
      obtain ⟨t, ht⟩ := OrdMap.begin?_eq_some.mp hsome
      have hmem : (key, next) ∈ s.toSend.entries := ht ▸ List.mem_cons_self
      have hpost : next ∈ s.log.posted := hs.mem_posted (List.mem_map_of_mem hmem)
      have hlt := hm _ (hent ▸ hmem)
      rw [hs.getEndPsn_eq (by omega) hpost, if_pos hlt]
      rfl
  | cons e l ih =>
    obtain ⟨key, next⟩ := e
    have hbegin : s.toSend.begin? = some (key, next) :=
      OrdMap.begin?_eq_some.mpr ⟨l ++ m, hent⟩
    have hpost : next ∈ s.log.posted :=
      hs.mem_posted (List.mem_map.mpr ⟨(key, next), hent ▸ List.mem_cons_self, rfl⟩)
    have hsplit : promised cb (next :: l.map (·.2)) =
        promised cb [next] + promised cb (l.map (·.2)) := by
      simp only [promised, List.filter_cons]
      split <;> simp
    rw [List.map_cons, hsplit] at hb
    simp only [List.length_cons, notifyPendingCompEvents, hbegin]
    rw [hs.getEndPsn_eq (by omega) hpost]
    split
    next => rfl
    next hge =>
      have htot : totalBytes (s.complete cb key next).log.posted =
          totalBytes s.log.posted + promised cb [next] := s.callOnSend_totalBytes cb next
      obtain ⟨hpo, hpre⟩ := s.complete_postsOnly cb key next
      have hbc : totalBytes (s.complete cb key next).log.posted < 2 ^ 64 := by omega
      obtain ⟨hs', m', hm', hge'⟩ := hs.complete hent (Nat.not_lt.mp hge) hbc
      have huna := hpo.sndUna
      have hN := hs.nextOp_eq
      have hN' := hs'.nextOp_eq
      refine ih hs' (m := m ++ m') ?_ (hm'.trans (List.append_assoc ..)) ?_ (by omega)
      · rw [huna, hN', htot]
        omega
      · rw [huna]
        intro e he
        rcases List.mem_append.mp he with he | he
        · exact hm e he
        · have hmem : e.2 ∈ (s.complete cb key next).log.posted := by
            refine hs'.mem_posted (List.mem_map_of_mem ?_)
            rw [hm']
            exact List.mem_append_right _ he
          have h1 := hge' e he
          have h2 := hs'.tiles.mem_bounds hmem
          omega

/-! ## `Acknowledge`, `Rollback`, `RecoverNack` -/

variable {s s' : RdmaReliableSQ} {cb : Callbacks} {fuel n : Nat}

theorem acknowledge_posted (h : s.acknowledge cb fuel n = some s') :
    s.log.posted <+: s'.log.posted := by
  unfold acknowledge at h
  split at h
  · obtain ⟨t, ht, hs'⟩ := Option.bind_eq_some_iff.mp h
    cases hs'
    exact (notify_postsOnly ht).2
  · cases h
    exact List.prefix_rfl

/-- **`Acknowledge`** moves the window up to the acknowledged PSN and re-arms the timer. -/
theorem acknowledge_eq (h : s.acknowledge cb fuel n = some s') (hle : s.sndUna ≤ s.sndNxt) :
    s' = { s with
      sndUna := max s.sndUna n
      sndNxt := max s.sndNxt n
      retrTo := decide (s.highestAckPsn > max s.sndUna n)
      toSend := s'.toSend
      nextOpFirstPsn := s'.nextOpFirstPsn
      log := { s'.log with sent := s.log.sent } } := by
  unfold acknowledge at h
  split at h
  next hlt =>
    obtain ⟨t, ht, hs'⟩ := Option.bind_eq_some_iff.mp h
    cases hs'
    rw [(notify_postsOnly ht).1]
    simp [scheduleRetrTimeout, Nat.max_eq_right (Nat.le_of_lt hlt)]
  next hge =>
    cases h
    have h1 : max s.sndUna n = s.sndUna := by omega
    have h2 : max s.sndNxt n = s.sndNxt := by omega
    simp [scheduleRetrTimeout, h1, h2]

/-- Raising `m_snd_una` completes nothing by itself. -/
theorem Laid.raise (hs : Laid s) (hle : s.sndUna ≤ n) (m : Nat) :
    Laid { s with sndUna := n, sndNxt := m } := by
  refine ⟨hs.tiles, ?_, hs.keyed⟩
  obtain ⟨d, hd, hc, hdle⟩ := hs.split
  exact ⟨d, hd, hc, fun r hr => Nat.le_trans (hdle r hr) hle⟩

theorem acknowledge_laid (h : s.acknowledge cb fuel n = some s') (hs : Laid s)
    (hb : totalBytes s'.log.posted < 2 ^ 64) :
    Laid s' ∧ (HeadPending s ∨ s.sndUna < n → HeadPending s') := by
  unfold acknowledge at h
  split at h
  next hlt =>
    obtain ⟨t, ht, hs'⟩ := Option.bind_eq_some_iff.mp h
    cases hs'
    have hs0 := hs.raise (Nat.le_of_lt hlt) (max s.sndNxt n)
    obtain ⟨h1, h2⟩ := notify_spec ht hs0 hb
    exact ⟨⟨h1.tiles, h1.split, h1.keyed⟩, fun _ => h2⟩
  next hge =>
    cases h
    refine ⟨⟨hs.tiles, hs.split, hs.keyed⟩, ?_⟩
    rintro (h | h)
    · exact h
    · exact absurd h hge

/-- `Acknowledge` returns: its loop takes at most one turn for each request in the map. -/
theorem acknowledge_terminates (hs : Laid s) (hn : n ≤ s.nextOpFirstPsn)
    (hb : totalBytes s.log.posted + promised cb s.toSend.values < 2 ^ 64) :
    (s.acknowledge cb (s.toSend.size + 1) n).isSome := by
  unfold acknowledge
  split
  next hlt =>
    have hs' := hs.raise (Nat.le_of_lt hlt) (max s.sndNxt n)
    have hent : s.toSend.entries = s.toSend.entries ++ [] := (List.append_nil _).symm
    obtain ⟨t, ht⟩ := Option.isSome_iff_exists.mp
      (notify_terminates hs' hn hent (fun _ he => nomatch he) hb)
    change (Option.bind (notifyPendingCompEvents cb (s.toSend.entries.length + 1) _) _).isSome
    rw [ht]
    rfl
  next => rfl

/-- After `Acknowledge` the assertion of `Rollback` holds. -/
theorem acknowledge_rollbackAssert (h : s.acknowledge cb fuel n = some s')
    (hle : s.sndUna ≤ s.sndNxt) : s'.RollbackAssert := by
  have h' := acknowledge_eq h hle
  have h1 := congrArg sndUna h'
  have h2 := congrArg sndNxt h'
  change s'.sndUna ≤ s'.sndNxt
  simp only at h1 h2
  omega

theorem rollback_eq (h : s.rollback = some s') :
    s' = { s with sndNxt := s.sndUna, highestAckPsn := s.sndUna, retrTo := false } := by
  unfold rollback at h
  split at h
  · cases h
    simp [scheduleRetrTimeout]
  · cases h

/-- **`RecoverNack`** is `Acknowledge`, then the return of the window to its lower end. -/
theorem recoverNack_eq (h : s.recoverNack cb fuel n = some s') :
    ∃ t, s.acknowledge cb fuel n = some t ∧
      s' = { t with sndNxt := t.sndUna, highestAckPsn := t.sndUna, retrTo := false } := by
  obtain ⟨t, ht, hr⟩ := Option.bind_eq_some_iff.mp h
  exact ⟨t, ht, rollback_eq hr⟩

theorem recoverNack_posted (h : s.recoverNack cb fuel n = some s') :
    s.log.posted <+: s'.log.posted := by
  obtain ⟨t, ht, rfl⟩ := recoverNack_eq h
  have hpost := acknowledge_posted ht
  exact hpost

/-! ## `GetNextPacket` -/

/-- The queue after the packet of `size` bytes at `m_snd_nxt` inside `r` has left. -/
def emitted (s : RdmaReliableSQ) (r : SendRequest) (size : Nat) : RdmaReliableSQ :=
  { s with
    sndNxt := s.sndNxt + size
    ipid := u16 (s.ipid + 1)
    highestAckPsn :=
      if (s.bthAt r s.sndNxt size).ackReq then s.sndNxt + size else s.highestAckPsn
    retrTo := (s.bthAt r s.sndNxt size).ackReq || s.retrTo
    log.sent := s.log.sent ++ [s.packetAt r size] }

theorem getNextPacket_posted (h : s.getNextPacket = some (p, s')) :
    s'.log.posted = s.log.posted := by
  obtain ⟨k, sr, size, t, -, -, hadvance, rfl⟩ := getNextPacket_cases h
  show t.log.posted = s.log.posted
  rw [(advance_frame hadvance).2]

/-- **`GetNextPacket`** finds the request `m_snd_nxt` lies in and cuts the next piece of at
most one MTU from it; no assertion fails. -/
theorem getNextPacket_eq {s : RdmaReliableSQ} (hs : Laid s)
    (hb : totalBytes s.log.posted < 2 ^ 64) (hmtu : 0 < s.mtu) (hlo : s.sndUna ≤ s.sndNxt)
    (hhi : s.sndNxt < s.nextOpFirstPsn) (hack : s.highestAckPsn ≤ s.sndNxt) :
    ∃ r ∈ s.toSend.values, r.firstPsn ≤ s.sndNxt ∧ s.sndNxt < r.endPsn ∧
      s.getNextPacket = some (s.packetAt r (min s.mtu (r.endPsn - s.sndNxt)),
        s.emitted r (min s.mtu (r.endPsn - s.sndNxt))) := by
  obtain ⟨r, hr, hfirst, hend⟩ := hs.exists_cover hlo hhi
  refine ⟨r, hr, hfirst, hend, ?_⟩
  have hN : s.nextOpFirstPsn < 2 ^ 64 := hs.nextOp_eq ▸ hb
  have hle := hs.endPsn_le (hs.mem_posted hr)
  have hsize : r.payloadSize.toNat = r.endPsn - r.firstPsn := by
    unfold SendRequest.endPsn
    omega
  have hrem : sub64 r.payloadSize.toNat (sub64 s.sndNxt r.firstPsn) = r.endPsn - s.sndNxt := by
    rw [sub64_of_le hfirst (by omega), hsize, sub64_of_le (by omega) (by omega)]
    omega
  have hne : s.toSend.isEmpty = false := by
    have := hs.mem_entries hr
    unfold OrdMap.isEmpty
    cases hl : s.toSend.entries with
    | nil => rw [hl] at this; cases this
    | cons e l => rfl
  have hnxt : u64 (s.sndNxt + min s.mtu (r.endPsn - s.sndNxt)) =
      s.sndNxt + min s.mtu (r.endPsn - s.sndNxt) := u64_of_lt (by omega)
  simp only [getNextPacket, hne, Bool.false_eq_true, ↓reduceIte, hs.floor?_eq hr hfirst hend,
    hrem, Option.bind_eq_bind, Option.bind_some]
  rw [if_neg (by omega), if_neg (by omega)]
  simp only [advance, packetAt, hnxt, emitted]
  split
  next hreq =>
    rw [if_pos (by omega)]
    cases hto : s.retrTo
    · have hlt : s.sndUna < s.sndNxt + min s.mtu (r.endPsn - s.sndNxt) := by omega
      simp [scheduleRetrTimeout, hlt, hreq]
    · simp
  next hreq => simp [hreq]

end RdmaReliableSQ
end Roce
