import Roce.Host.CleanUp
import Roce.Lib.Rotation

/-! # The queue pairs of a network card take turns

`GetNextQindex` looks for the next queue pair in the order from `m_rrlast` on, while queue pairs are
registered and finished ones are removed. A queue pair that may send waits for each other one once
at most. -/

namespace Roce

open Rotation

namespace RdmaEgressQueue

variable {α : Type u} {β : Type v} {ι : Type w}

/-- The egress queue of a network card, the names of the queue pairs that were ever registered, and
of those that sent packets, one after the other. -/
structure Turns (α : Type u) (β : Type v) (ι : Type w) where
  eq : RdmaEgressQueue α β := {}
  registered : List ι := []
  served : List ι := []

inductive TurnEvent (α : Type u) (β : Type v) where
  | register (qp : α)
  /-- The queue pairs do something else. -/
  | change (qps : List α)
  | enqueueHighPrioQ (p : β)
  /-- `DequeueAndTransmit`. -/
  | transmit (ask : TxQuery α) (paused : Nat → Bool)

/-- The queue pair that sends. -/
def sender (name : α → ι) (qps : List α) (res : Int) : Option ι :=
  if 0 ≤ res then qps[res.toNat]?.map name else none

/-- A queue pair is registered once, and there are fewer than 2^31. None that is finished is ready
to send. -/
inductive Turns.Step (name : α → ι) (ackQIdx : Nat) :
    Turns α β ι → TurnEvent α β → Turns α β ι → Prop
  | register {t : Turns α β ι} : name qp ∉ t.registered → t.eq.qpGrp.length + 1 < 2 ^ 31 →
    Step name ackQIdx t (.register qp)
      { t with eq.qpGrp := t.eq.qpGrp ++ [qp], registered := t.registered ++ [name qp] }
  | change {t : Turns α β ι} : qps.map name = t.eq.qpGrp.map name →
    Step name ackQIdx t (.change qps) { t with eq.qpGrp := qps }
  | enqueueHighPrioQ {t : Turns α β ι} :
    Step name ackQIdx t (.enqueueHighPrioQ p) { t with eq.ackQ := t.eq.ackQ ++ [p] }
  | transmit {t : Turns α β ι} :
    (∀ qp ∈ t.eq.qpGrp, ask.isFinished qp = true → ask.isReadyToSend qp = false) →
    (∀ qp, name (rdmaGetNxtPkt qp).2 = name qp) →
    t.eq.getNextQindex ask paused ackQIdx = some (res, qps) →
    Step name ackQIdx t (.transmit ask paused)
      { t with
        eq := ({ t.eq with qpGrp := qps }.dequeueQindex rdmaGetNxtPkt res).2
        served := t.served ++ (sender name qps res).toList }

def turns (name : α → ι) (ackQIdx : Nat) : Machine (Turns α β ι) (TurnEvent α β) :=
  ⟨(· = {}), Turns.Step name ackQIdx⟩

/-- Whenever a packet is looked for, the queue pair `a` may send. -/
def Turns.MaySend (name : α → ι) (a : ι) (t : Turns α β ι) : TurnEvent α β → Prop
  | .transmit ask paused => ∃ qp ∈ t.eq.qpGrp, name qp = a ∧ ask.maySend paused qp = true
  | _ => True

/-! ## What `GetNextQindex` finds -/

theorem order_of_find {l : List α} {p : α → Bool} {last idx : Nat}
    (h : ((List.range' 1 l.length).map fun i => (i + last) % l.length).find?
      (fun i => l[i]?.any p) = some idx) :
    ∃ A qp B, order l last = A ++ qp :: B ∧ l[idx]? = some qp ∧ p qp = true ∧
      ∀ x ∈ A, p x = false := by
  obtain ⟨m, hm, rfl, hp, hbefore⟩ := RoundRobin.firstAfter_of_find h
  have hturn : ∀ i < l.length, (order l last)[i]? = l[(last + i + 1) % l.length]? := by
    intro i hi
    rw [order, List.getElem?_rotate hi]
    congr 2
    omega
  obtain ⟨qp, hqp, hp⟩ := (Option.any_eq_true _ _).mp hp
  have hget := (hturn m hm).trans hqp
  obtain ⟨hlt, heq⟩ := List.getElem?_eq_some_iff.mp hget
  refine ⟨(order l last).take m, qp, (order l last).drop (m + 1), ?_, hqp, hp, fun x hx => ?_⟩
  · rw [← heq, List.getElem_cons_drop, List.take_append_drop]
  · obtain ⟨i, hi, rfl⟩ := List.mem_take_iff_getElem.mp hx
    have him : i < m := (Nat.lt_min.mp hi).1
    have hnot : ¬l[(last + i + 1) % l.length]?.any p = true := hbefore i him
    rw [← hturn i (him.trans hm), List.getElem?_eq_getElem (Nat.lt_min.mp hi).2] at hnot
    exact Bool.eq_false_iff.mpr hnot

/-- What `GetNextQindex` finds while `a` may send: an ACK, or the first queue pair that may send,
which stays at its new index, as `a` does. -/
theorem getNextQindex_turn {eq : RdmaEgressQueue α β} {ask : TxQuery α} {paused : Nat → Bool}
    (hfin : ∀ qp ∈ eq.qpGrp, ask.isFinished qp = true → ask.isReadyToSend qp = false)
    (hlen : eq.qpGrp.length < 2 ^ 31) (hlast : eq.rrlast < 2 ^ 31)
    (hnext : eq.getNextQindex ask paused ackQIdx = some (res, qps))
    (ha : qpa ∈ eq.qpGrp) (hmay : ask.maySend paused qpa = true) :
    (res = -1 ∧ qps = eq.qpGrp) ∨ ∃ (k : Nat) (A B : List α) (qp : α), res = k ∧
      order eq.qpGrp eq.rrlast = A ++ qp :: B ∧ (∀ x ∈ A, ask.maySend paused x = false) ∧
      qps.Sublist eq.qpGrp ∧ qps[k]? = some qp ∧ qpa ∈ qps := by
  cases hack : !paused ackQIdx && !eq.ackQ.isEmpty
  case true =>
    rw [getNextQindex, hack] at hnext
    cases hnext
    exact .inl ⟨rfl, rfl⟩
  case false =>
    have hstays : ∀ qp ∈ eq.qpGrp, ask.maySend paused qp = true → ask.isFinished qp = false := by
      intro qp hqp hsend
      rw [TxQuery.maySend, Bool.and_eq_true] at hsend
      cases hfinished : ask.isFinished qp
      · rfl
      · rw [hfin qp hqp hfinished] at hsend
        cases hsend.2
    obtain ⟨res', qps', hnext', hclean⟩ := getNextQindex_cleaned ask hlen hack
    obtain ⟨rfl, rfl⟩ := Prod.mk.inj (Option.some.inj (hnext.symm.trans hnext'))
    have hscan := scan_fst ask eq paused (l := List.range' 1 eq.qpGrp.length) hlen (fun q hq => by
      have := List.mem_range'_1.mp hq
      omega) 0xffffffff
    split at hscan
    next idx hfind =>
      obtain ⟨A, qp, B, horder, hget, hsend, hA⟩ := order_of_find hfind
      obtain ⟨k, hk, hqp⟩ := hclean.index idx hscan qp hget
        (hstays qp (List.mem_of_getElem? hget) hsend)
      refine .inr ⟨k, A, B, qp, hk, horder, hA, hclean.sublist, hqp, ?_⟩
      have hkept : qpa ∈ eq.qpGrp.filter (!ask.isFinished ·) :=
        List.mem_filter.mpr ⟨ha, by rw [hstays qpa ha hmay]; rfl⟩
      rw [← hclean.keeps] at hkept
      exact List.mem_of_mem_filter hkept
    next hfind =>
      obtain ⟨i, hi, rfl⟩ := List.mem_iff_getElem.mp ha
      have hnot := RoundRobin.eq_false_of_find hfind hi
      rw [List.getElem?_eq_getElem hi, Option.any_some, hmay] at hnot
      cases hnot

theorem getNextQindex_sublist {eq : RdmaEgressQueue α β} {ask : TxQuery α} {paused : Nat → Bool}
    (hlen : eq.qpGrp.length < 2 ^ 31)
    (hnext : eq.getNextQindex ask paused ackQIdx = some (res, qps)) : qps.Sublist eq.qpGrp := by
  cases hack : !paused ackQIdx && !eq.ackQ.isEmpty
  case true =>
    rw [getNextQindex, hack] at hnext
    cases hnext
    exact List.Sublist.refl _
  case false =>
    obtain ⟨res', qps', hnext', hclean⟩ := getNextQindex_cleaned ask hlen hack
    obtain ⟨rfl, rfl⟩ := Prod.mk.inj (Option.some.inj (hnext.symm.trans hnext'))
    exact hclean.sublist

/-- `DequeueQindex` leaves the names, and the place of a queue pair. -/
theorem dequeueQindex_frame {name : α → ι} {next : α → β × α}
    (hname : ∀ qp, name (next qp).2 = name qp) (eq : RdmaEgressQueue α β) (res : Int) :
    (eq.dequeueQindex next res).2.qpGrp.map name = eq.qpGrp.map name ∧
      ((eq.dequeueQindex next res).2.rrlast = eq.rrlast ∨
        (eq.dequeueQindex next res).2.rrlast < eq.qpGrp.length) := by
  unfold dequeueQindex
  split
  · exact ⟨rfl, .inl rfl⟩
  · split
    · split
      next => exact ⟨rfl, .inl rfl⟩
      next qp hget =>
        obtain ⟨hlt, heq⟩ := List.getElem?_eq_some_iff.mp hget
        refine ⟨?_, .inr hlt⟩
        rw [List.map_set, hname, ← heq, ← List.getElem_map name (h := by simpa using hlt),
          List.set_getElem_self]
    · exact ⟨rfl, .inl rfl⟩

/-- The queue pair at the index sends, and had the last turn. -/
theorem rrlast_dequeueQindex {next : α → β × α} {eq : RdmaEgressQueue α β} {k : Nat}
    (hk : eq.qpGrp[k]? = some qp) : (eq.dequeueQindex next k).2.rrlast = k := by
  have hack : ¬(k : Int) = -1 := by omega
  rw [dequeueQindex, if_neg hack, if_pos (Int.natCast_nonneg k), Int.toNat_natCast, hk]

/-! ## The invariant -/

namespace Turns

variable {name : α → ι} {t t' : Turns α β ι}

def names (name : α → ι) (t : Turns α β ι) : List ι := t.eq.qpGrp.map name

/-- The queue pairs are different ones that were registered, and the indices fit their types. -/
structure WellFormed (name : α → ι) (t : Turns α β ι) : Prop where
  nodup : (t.names name).Nodup
  registered : ∀ b ∈ t.names name, b ∈ t.registered
  length_lt : t.eq.qpGrp.length < 2 ^ 31
  last_lt : t.eq.rrlast < 2 ^ 31

theorem WellFormed.init : WellFormed name ({} : Turns α β ι) where
  nodup := List.nodup_nil
  registered _ hb := nomatch hb
  length_lt := Nat.two_pow_pos 31
  last_lt := Nat.two_pow_pos 31

theorem WellFormed.step (h : WellFormed name t) (hs : Step name ackQIdx t e t') :
    WellFormed name t' := by
  cases hs with
  | @register qp _ hnew hlen =>
    have hnames : names name { t with
        eq.qpGrp := t.eq.qpGrp ++ [qp], registered := t.registered ++ [name qp] } =
        t.names name ++ [name qp] := List.map_append
    constructor
    · rw [hnames]
      refine List.nodup_append.mpr ⟨h.nodup, List.nodup_singleton _, fun b hb c hc heq => ?_⟩
      rw [List.mem_singleton.mp hc] at heq
      exact hnew (heq ▸ h.registered b hb)
    · rw [hnames]
      intro b hb
      rcases List.mem_append.mp hb with hb | hb
      · exact List.mem_append_left _ (h.registered b hb)
      · exact List.mem_append_right _ hb
    · show (t.eq.qpGrp ++ [qp]).length < 2 ^ 31
      rwa [List.length_append]
    · exact h.last_lt
  | @change qps _ hsame =>
    have hnames : names name { t with eq.qpGrp := qps } = t.names name := hsame
    have hlen := congrArg List.length hsame
    rw [List.length_map, List.length_map] at hlen
    refine ⟨hnames ▸ h.nodup, hnames ▸ h.registered, ?_, h.last_lt⟩
    show qps.length < 2 ^ 31
    exact hlen ▸ h.length_lt
  | enqueueHighPrioQ => exact ⟨h.nodup, h.registered, h.length_lt, h.last_lt⟩
  | @transmit next ask paused res qps _ hfin hname hnext =>
    have hsub := getNextQindex_sublist h.length_lt hnext
    obtain ⟨hnames, hlast⟩ := dequeueQindex_frame hname { t.eq with qpGrp := qps } res
    have hsubnames : (qps.map name).Sublist (t.names name) := hsub.map name
    have hlen : (({ t.eq with qpGrp := qps } : RdmaEgressQueue α β).dequeueQindex next
        res).2.qpGrp.length = qps.length := by simpa using congrArg List.length hnames
    have hlt := Nat.lt_of_le_of_lt hsub.length_le h.length_lt
    have hnames : names name { t with
        eq := (({ t.eq with qpGrp := qps } : RdmaEgressQueue α β).dequeueQindex next res).2
        served := t.served ++ (sender name qps res).toList } = qps.map name := hnames
    constructor
    · exact hnames ▸ hsubnames.nodup h.nodup
    · exact fun b hb => h.registered b (hsubnames.subset (hnames ▸ hb))
    · exact hlen ▸ hlt
    · rcases hlast with hlast | hlast
      · exact hlast ▸ h.last_lt
      · exact hlast.trans hlt

theorem wellFormed (h : (turns name ackQIdx).Reachable t) : WellFormed name t := by
  refine h.invariant (I := WellFormed name) ?_ fun _ hw hs => hw.step hs
  rintro _ rfl
  exact .init

section
variable [DecidableEq ι] {a : ι} {log : List ι}

/-- Since a moment the queue pairs in `log` have sent. Those after the last turn of `a` are not
ahead of it any more. -/
structure Fair (name : α → ι) (a : ι) (t : Turns α β ι) (log : List ι) : Prop where
  mem : ∀ b ∈ log, b ∈ t.registered
  last_lt : log ≠ [] → t.eq.rrlast < t.eq.qpGrp.length
  behind : ∀ m, m <:+ log → a ∉ m → ∀ b ∈ m, b ∉ ahead a (order (t.names name) t.eq.rrlast)
  once : ∀ m, m <:+: log → a ∉ m → m.Nodup

theorem Fair.nil (t : Turns α β ι) : Fair name a t [] where
  mem _ hb := nomatch hb
  last_lt h := absurd rfl h
  behind m hm _ b hb := by
    rw [List.suffix_nil.mp hm] at hb
    cases hb
  once m hm _ := by
    rw [List.infix_nil.mp hm]
    exact List.nodup_nil

/-- Nobody gets ahead. -/
theorem Fair.frame (h : Fair name a t log) (hnames : t'.names name = t.names name)
    (hlast : t'.eq.rrlast = t.eq.rrlast) (hregistered : t'.registered = t.registered) :
    Fair name a t' log := by
  have hlen : t'.eq.qpGrp.length = t.eq.qpGrp.length := by
    simpa [names] using congrArg List.length hnames
  refine ⟨hregistered ▸ h.mem, ?_, ?_, h.once⟩
  · rw [hlast, hlen]
    exact h.last_lt
  · rw [hnames, hlast]
    exact h.behind

/-- The queue pair that is registered gets ahead at most, and has not sent yet. -/
theorem Fair.register (h : Fair name a t log) (hnew : name qp ∉ t.registered) :
    Fair name a { t with
      eq.qpGrp := t.eq.qpGrp ++ [qp], registered := t.registered ++ [name qp] } log where
  mem b hb := List.mem_append_left _ (h.mem b hb)
  last_lt hlog := by
    show t.eq.rrlast < (t.eq.qpGrp ++ [qp]).length
    rw [List.length_append]
    exact Nat.lt_add_right _ (h.last_lt hlog)
  behind m hm ham b hb hahead := by
    have hlog : log ≠ [] := by
      rintro rfl
      rw [List.suffix_nil.mp hm] at hb
      cases hb
    have hlast : t.eq.rrlast < (t.names name).length := by
      rw [names, List.length_map]
      exact h.last_lt hlog
    have hnames : names name { t with
        eq.qpGrp := t.eq.qpGrp ++ [qp], registered := t.registered ++ [name qp] } =
        t.names name ++ [name qp] := List.map_append
    rw [hnames] at hahead
    rcases ahead_of_join hlast hahead with rfl | hahead
    · exact hnew (h.mem _ (hm.subset hb))
    · exact h.behind m hm ham b hb hahead
  once := h.once

/-- **A queue pair sends**, the first that may, `a` among them. -/
theorem Fair.serve (h : Fair name a t log) (hw : WellFormed name t)
    (horder : order (t.names name) t.eq.rrlast = A ++ j :: B) (hA : a ∉ A)
    (hsub : (t'.names name).Sublist (t.names name)) (hk : (t'.names name)[t'.eq.rrlast]? = some j)
    (ha : a ∈ t'.names name) (hregistered : t'.registered = t.registered) :
    Fair name a t' (log ++ [j]) := by
  have hj : j ∈ t.names name := hsub.subset (List.mem_of_getElem? hk)
  have hsuffix : ∀ m, m <:+ log ++ [j] → a ∉ m → m = [] ∨
      ∃ m', m = m' ++ [j] ∧ m' <:+ log ∧ a ∉ m' ∧ j ≠ a := by
    intro m hm ham
    rcases List.suffix_concat_iff.mp hm with rfl | ⟨m', rfl, hm'⟩
    · exact .inl rfl
    · have hnot := mt List.mem_append.mpr ham
      rw [not_or] at hnot
      exact .inr ⟨m', rfl, hm', hnot.1, fun heq => hnot.2 (List.mem_singleton.mpr heq.symm)⟩
  constructor
  case mem =>
    rw [hregistered]
    intro b hb
    rcases List.mem_append.mp hb with hb | hb
    · exact h.mem b hb
    · exact List.mem_singleton.mp hb ▸ hw.registered j hj
  case last_lt =>
    intro _
    have hlt := (List.getElem?_eq_some_iff.mp hk).1
    rwa [names, List.length_map] at hlt
  case behind =>
    intro m hm ham b hb hahead
    rcases hsuffix m hm ham with rfl | ⟨m', rfl, hm', ham', hja⟩
    · cases hb
    · obtain ⟨hbefore, hne⟩ := ahead_of_turn hw.nodup horder hA hja hsub hk ha hahead
      rcases List.mem_append.mp hb with hb | hb
      · exact h.behind m' hm' ham' b hb hbefore
      · exact hne (List.mem_singleton.mp hb)
  case once =>
    intro m hm ham
    rcases List.infix_concat_iff.mp hm with hm | hm
    · rcases hsuffix m hm ham with rfl | ⟨m', rfl, hm', ham', hja⟩
      · exact List.nodup_nil
      · -- `j` was ahead of `a`
        have hahead : j ∈ ahead a (order (t.names name) t.eq.rrlast) := by
          rw [horder, ahead_append_of_not_mem hA, ahead_cons hja]
          exact List.mem_append_right _ List.mem_cons_self
        refine List.nodup_append.mpr ⟨h.once m' hm'.isInfix ham', List.nodup_singleton _, ?_⟩
        intro b hb c hc heq
        rw [List.mem_singleton.mp hc] at heq
        exact h.behind m' hm' ham' b hb (heq ▸ hahead)
    · exact h.once m hm ham

/-- The step lemma. -/
theorem Fair.step (h : Fair name a t log) (hw : WellFormed name t) (hmay : MaySend name a t e)
    (hs : Step name ackQIdx t e t') :
    ∃ sent, t'.served = t.served ++ sent ∧ Fair name a t' (log ++ sent) := by
  have hquiet : ∀ {u : Turns α β ι}, u.served = t.served → Fair name a u log →
      ∃ sent, u.served = t.served ++ sent ∧ Fair name a u (log ++ sent) := by
    intro u hserved hu
    refine ⟨[], ?_, ?_⟩
    · rw [hserved, List.append_nil]
    · rwa [List.append_nil]
  cases hs with
  | register hnew => exact hquiet rfl (h.register hnew)
  | change hsame => exact hquiet rfl (h.frame hsame rfl rfl)
  | enqueueHighPrioQ => exact hquiet rfl (h.frame rfl rfl rfl)
  | @transmit next ask paused res qps _ hfin hname hnext =>
    refine ⟨_, rfl, ?_⟩
    obtain ⟨qpa, hqpa, rfl, hsend⟩ := hmay
    obtain ⟨hnames, -⟩ := dequeueQindex_frame hname { t.eq with qpGrp := qps } res
    rcases getNextQindex_turn hfin hw.length_lt hw.last_lt hnext hqpa hsend with
      ⟨rfl, rfl⟩ | ⟨k, A, B, qp, rfl, horder, hA, hsub, hk, hstay⟩
    · show Fair name _ _ (log ++ [])
      rw [List.append_nil]
      exact h.frame hnames rfl rfl
    · have hsender : sender name qps k = some (name qp) := by
        rw [sender, if_pos (Int.natCast_nonneg k), Int.toNat_natCast, hk, Option.map_some]
      have horder' : order (t.names name) t.eq.rrlast = A.map name ++ name qp :: B.map name := by
        have hmap := congrArg (List.map name) horder
        rwa [order, List.map_rotate, List.map_append, List.map_cons] at hmap
      rw [hsender, Option.toList_some]
      have hleft : names name { t with
          eq := (({ t.eq with qpGrp := qps } : RdmaEgressQueue α β).dequeueQindex next k).2
          served := t.served ++ [name qp] } = qps.map name := hnames
      refine h.serve hw horder' ?_ ?_ ?_ ?_ rfl
      · -- who comes before the one that sends may not send
        intro hmem
        obtain ⟨x, hxA, hxname⟩ := List.mem_map.mp hmem
        have hx : x ∈ t.eq.qpGrp := by
          rw [← List.mem_rotate (n := t.eq.rrlast + 1), ← order, horder]
          exact List.mem_append_left _ hxA
        obtain rfl := List.inj_on_of_nodup_map hw.nodup hx hqpa hxname
        rw [hA x hxA] at hsend
        cases hsend
      · rw [hleft]
        exact hsub.map name
      · rw [hleft, rrlast_dequeueQindex hk, List.getElem?_map, hk, Option.map_some]
      · rw [hleft]
        exact List.mem_map_of_mem hstay

/-- The run lemma. -/
theorem Fair.run (hw : WellFormed name s)
    (hr : ((turns name ackQIdx).restrict (MaySend name a)).Run s es t) :
    WellFormed name t ∧ ∃ log, t.served = s.served ++ log ∧ Fair name a t log := by
  refine hr.preserves (I := fun t => WellFormed name t ∧
    ∃ log, t.served = s.served ++ log ∧ Fair name a t log) ?_
    ⟨hw, [], (List.append_nil _).symm, .nil s⟩
  rintro t _ u ⟨hw, log, hserved, hfair⟩ ⟨hmay, hs⟩
  obtain ⟨sent, hsent, hfair⟩ := hfair.step hw hmay hs
  exact ⟨hw.step hs, log ++ sent, by rw [hsent, hserved, List.append_assoc], hfair⟩

end

end Turns

/-- **The queue pairs take turns.** While a queue pair may send, no other one sends twice without
this one sending in between, however queue pairs are registered, change and are removed. -/
theorem takes_turns [DecidableEq ι] {name : α → ι} {s t : Turns α β ι}
    (h : (turns name ackQIdx).Reachable s)
    (hr : ((turns name ackQIdx).restrict (Turns.MaySend name a)).Run s es t) :
    ∃ log, t.served = s.served ++ log ∧
      ∀ m, m <:+: log → a ∉ m → m.Nodup ∧ ∀ b ∈ m, b ∈ t.registered := by
  obtain ⟨-, log, hserved, hfair⟩ := Turns.Fair.run (Turns.wellFormed h) hr
  exact ⟨log, hserved, fun m hm ham =>
    ⟨hfair.once m hm ham, fun b hb => hfair.mem b (hm.subset hb)⟩⟩

/-- Three queue pairs, of which the one in `finished` are finished. -/
def threeQps (finished : Nat → Bool) : TxQuery Nat := ⟨fun _ => 3, fun qp => !finished qp, finished⟩

def threeRegistered : Turns Nat Unit Nat := { eq.qpGrp := [0, 1, 2], registered := [0, 1, 2] }

theorem reachable_threeRegistered : (turns id 0).Reachable threeRegistered := by
  have hregister : ∀ (s : Turns Nat Unit Nat) (qp : Nat), (turns id 0).Reachable s →
      qp ∉ s.registered → s.eq.qpGrp.length + 1 < 2 ^ 31 →
      (turns id 0).Reachable { s with
        eq.qpGrp := s.eq.qpGrp ++ [qp], registered := s.registered ++ [qp] } :=
    fun s qp h hnew hlen => h.step (.register hnew hlen : Turns.Step id 0 s _ _)
  exact hregister _ 2 (hregister _ 1 (hregister {} 0 (.init rfl) (by decide) (by decide))
    (by decide) (by decide)) (by decide) (by decide)

/-- The queue pair 1 sends first, and is finished after the turns of 2 and 0. -/
theorem takes_turns_three : ∃ t : Turns Nat Unit Nat, t.eq.qpGrp = [0, 2] ∧
    t.served = [1, 2, 0, 2] ∧ ∃ log, t.served = threeRegistered.served ++ log ∧
      ∀ m, m <:+: log → 0 ∉ m → m.Nodup ∧ ∀ b ∈ m, b ∈ t.registered := by
  have hsend : ∀ {s : Turns Nat Unit Nat} (finished : Nat → Bool) (res : Int) (qps : List Nat),
      s.eq.getNextQindex (threeQps finished) (fun _ => false) 0 = some (res, qps) →
      0 ∈ s.eq.qpGrp → finished 0 = false →
      ((turns id 0).restrict (Turns.MaySend id 0)).step s
        (.transmit (threeQps finished) fun _ => false) { s with
          eq := ({ s.eq with qpGrp := qps }.dequeueQindex (fun qp => ((), qp)) res).2
          served := s.served ++ (sender id qps res).toList } := by
    intro s finished res qps hnext hmem hfinished
    refine ⟨⟨0, hmem, rfl, ?_⟩, .transmit ?_ (fun _ => rfl) hnext⟩
    · simp [TxQuery.maySend, threeQps, hfinished]
    · intro qp _ hqp
      exact congrArg not hqp
  have hrun : ((turns id 0).restrict (Turns.MaySend id 0)).Run threeRegistered _ _ :=
    (((Machine.Run.nil.snoc (hsend (fun _ => false) 1 [0, 1, 2] rfl (by decide) rfl)).snoc
      (hsend (fun _ => false) 2 [0, 1, 2] rfl (by decide) rfl)).snoc
      (hsend (fun _ => false) 0 [0, 1, 2] rfl (by decide) rfl)).snoc
      (hsend (· == 1) 1 [0, 2] rfl (by decide) rfl)
  exact ⟨_, rfl, rfl, takes_turns reachable_threeRegistered hrun⟩

end RdmaEgressQueue
end Roce
