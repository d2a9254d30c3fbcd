import Roce.Allgather.Link

/-! # When the recovery of an allgather gets stuck

A node that registers the request of its right neighbour while it is still in the multicast phase
does not look at it when it leaves this phase: `TransitionToRecovery` does not call
`TryUpdateState`. It looks at it later only if something else happens to it: a block of its left
neighbour arrives, or, when it misses nothing, the ACK of its own request.

The recovery never gets stuck exactly when some node misses nothing, or every node misses a block
that its left neighbour has: then one node that looks at its request is enough to wake the others
up one by one. -/

namespace Roce
namespace AgRing

open Function

/-- Nothing has happened to the node since it left the multicast phase. -/
def Untouched (M : List Nat) (rt : AgRuntime) (q qa : List RecoverRequest) : Prop :=
  rt.toRecover.keys = M ∧ (M = [] → q ≠ [] ∨ qa ≠ [])

/-- What holds between two events. A node that is neither up to date nor untouched does not
exist; and once all nodes have left the multicast phase, some node is up to date or about to
be. -/
structure Inv (cfg : AgConfig) (recv : Fin cfg.nodes → List Bool) (t : AgRing cfg.nodes) :
    Prop where
  link : ∀ i, LinkOk (missed cfg recv (right i)) (t.node i) (t.node (right i))
    (t.request (right i)) (t.requestAck (right i)) (t.block i) (t.blockAck i)
  node : ∀ i, NodeOk (t.node i)
  fresh : ∀ i, (t.node i).state = .multicast →
    (t.node i).recv = recv i ∧ (t.node i).block = i.val
  awake : ∀ i, (t.node i).state ≠ .multicast → (t.node i).hasRecvRecoverReq = true →
    UpToDate (t.node i) (t.node (right i)) ∨
      Untouched (missed cfg recv i) (t.node i) (t.request i) (t.requestAck i)
  last : (∀ i, (t.node i).state ≠ .multicast) → ∃ i, t.request (right i) ≠ [] ∨
    ((t.node i).hasRecvRecoverReq = true ∧ UpToDate (t.node i) (t.node (right i)))

variable {cfg : AgConfig} {recv : Fin cfg.nodes → List Bool} {t t' : AgRing cfg.nodes}
  {i : Fin cfg.nodes} {rt' : AgRuntime}

theorem initial_inv (hn : 2 ≤ cfg.nodes) : Inv cfg recv (initial recv) where
  link i := by
    constructor
    case multicast => exact fun _ => ⟨rfl, rfl, rfl, rfl, rfl⟩
    case unasked => exact fun _ => ⟨rfl, rfl, rfl, rfl⟩
    case asking => exact fun h => absurd rfl h
    case asked => exact fun h => nomatch h
    case flight_nodup => exact List.nodup_nil
    case flight => exact fun _ hb => nomatch hb
    case sent => exact fun _ hb => nomatch hb
    case sentAll => exact fun h => nomatch h
    case sentAll_of => exact fun h => nomatch h
    case missing => exact fun _ hb => nomatch hb
    case recovered => exact fun h => nomatch h
    case recovered_of => exact fun h => absurd rfl h
  node i := ⟨fun h => (nomatch h), fun h => (nomatch h)⟩
  fresh i _ := ⟨rfl, rfl⟩
  awake i h := absurd rfl h
  last h := absurd rfl (h ⟨0, by omega⟩)

/-- An event at the node `i` touches the node and the two links it is part of. -/
structure At (i : Fin n) (rt' : AgRuntime) (t t' : AgRing n) : Prop where
  node : t'.node = update t.node i rt'
  request : ∀ k, k ≠ i → k ≠ left i → t'.request (right k) = t.request (right k)
  requestAck : ∀ k, k ≠ i → k ≠ left i → t'.requestAck (right k) = t.requestAck (right k)
  block : ∀ k, k ≠ i → k ≠ left i → t'.block k = t.block k
  blockAck : ∀ k, k ≠ i → k ≠ left i → t'.blockAck k = t.blockAck k

theorem At.node_self (h : At i rt' t t') : t'.node i = rt' := by
  rw [h.node, update_self]

theorem At.node_of_ne (h : At i rt' t t') (hk : k ≠ i) : t'.node k = t.node k := by
  rw [h.node, update_of_ne hk]

/-- The links of the ring, after an event at the node `i`. -/
theorem At.link (hn : 2 ≤ cfg.nodes) (h : At i rt' t t') (hi : Inv cfg recv t)
    (hright : LinkOk (missed cfg recv (right i)) rt' (t.node (right i)) (t'.request (right i))
      (t'.requestAck (right i)) (t'.block i) (t'.blockAck i))
    (hleft : LinkOk (missed cfg recv i) (t.node (left i)) rt' (t'.request i)
      (t'.requestAck i) (t'.block (left i)) (t'.blockAck (left i))) (k : Fin cfg.nodes) :
    LinkOk (missed cfg recv (right k)) (t'.node k) (t'.node (right k)) (t'.request (right k))
      (t'.requestAck (right k)) (t'.block k) (t'.blockAck k) := by
  by_cases hk : k = i
  · rw [hk, h.node_self, h.node_of_ne (right_ne hn i)]
    exact hright
  · by_cases hk' : k = left i
    · rw [hk', right_left, h.node_self, h.node_of_ne (left_ne hn i)]
      exact hleft
    · have hr : right k ≠ i := fun heq => hk' (by rw [← heq, left_right])
      rw [h.node_of_ne hk, h.node_of_ne hr, h.request k hk hk', h.requestAck k hk hk',
        h.block k hk hk', h.blockAck k hk hk']
      exact hi.link k

/-- The invariant after an event at the node `i` that is not `leave`. -/
theorem At.inv (hn : 2 ≤ cfg.nodes) (h : At i rt' t t') (hi : Inv cfg recv t)
    (hright : LinkOk (missed cfg recv (right i)) rt' (t.node (right i)) (t'.request (right i))
      (t'.requestAck (right i)) (t'.block i) (t'.blockAck i))
    (hleft : LinkOk (missed cfg recv i) (t.node (left i)) rt' (t'.request i)
      (t'.requestAck i) (t'.block (left i)) (t'.blockAck (left i)))
    (hok : NodeOk rt') (hst : rt'.state = .multicast ↔ (t.node i).state = .multicast)
    (hrecv : rt'.recv = (t.node i).recv) (hblock : rt'.block = (t.node i).block)
    (hsub : ∀ b ∈ rt'.toRecover.keys, b ∈ (t.node i).toRecover.keys)
    (hreq : (t.node i).hasRecvRecoverReq = true → rt'.hasRecvRecoverReq = true)
    (hawake : rt'.state ≠ .multicast → rt'.hasRecvRecoverReq = true →
      UpToDate rt' (t.node (right i)) ∨
        ((t.node i).hasRecvRecoverReq = true ∧ ¬UpToDate (t.node i) (t.node (right i)) ∧
          Untouched (missed cfg recv i) rt' (t'.request i) (t'.requestAck i)))
    (hmsg : ∀ k, k ≠ i → t.request k ≠ [] ∨ t.requestAck k ≠ [] →
      t'.request k ≠ [] ∨ t'.requestAck k ≠ [])
    (hlast : ∀ k, t.request (right k) ≠ [] → t'.request (right k) ≠ [] ∨
      (k = i ∧ rt'.hasRecvRecoverReq = true ∧ (t.node i).hasRecvRecoverReq = false)) :
    Inv cfg recv t' := by
  have hmulti : ∀ k, (t'.node k).state = .multicast ↔ (t.node k).state = .multicast := by
    intro k
    by_cases hk : k = i
    · rw [hk, h.node_self]
      exact hst
    · rw [h.node_of_ne hk]
  -- the nodes that were up to date still are
  have hutd : ∀ k, (t'.node k).state ≠ .multicast → (t.node k).hasRecvRecoverReq = true →
      UpToDate (t.node k) (t.node (right k)) →
      (t'.node k).hasRecvRecoverReq = true ∧ UpToDate (t'.node k) (t'.node (right k)) := by
    intro k hne hkreq hk
    by_cases hki : k = i
    · subst hki
      rw [h.node_self] at hne ⊢
      rw [h.node_of_ne (right_ne hn k)]
      refine ⟨hreq hkreq, ?_⟩
      rcases hawake hne (hreq hkreq) with hup | ⟨-, hnot, -⟩
      · exact hup
      · exact absurd hk hnot
    · rw [h.node_of_ne hki]
      refine ⟨hkreq, ?_⟩
      by_cases hki' : right k = i
      · rw [hki', h.node_self]
        exact fun b hb hnot => hk b (hki' ▸ hsub b hb) hnot
      · rw [h.node_of_ne hki']
        exact hk
  constructor
  case link => exact h.link hn hi hright hleft
  case node =>
    intro k
    by_cases hk : k = i
    · rw [hk, h.node_self]
      exact hok
    · rw [h.node_of_ne hk]
      exact hi.node k
  case fresh =>
    intro k hk
    have hold := hi.fresh k ((hmulti k).mp hk)
    by_cases hki : k = i
    · subst hki
      rw [h.node_self, hrecv, hblock]
      exact hold
    · rw [h.node_of_ne hki]
      exact hold
  case awake =>
    intro k hne hkreq
    by_cases hki : k = i
    · subst hki
      rw [h.node_self] at hne hkreq ⊢
      rw [h.node_of_ne (right_ne hn k)]
      exact (hawake hne hkreq).imp id fun h => h.2.2
    · have hne' : (t.node k).state ≠ .multicast := fun hm => hne ((hmulti k).mpr hm)
      rw [h.node_of_ne hki] at hkreq
      rcases hi.awake k hne' hkreq with hup | ⟨hT, hM⟩
      · exact .inl (hutd k hne hkreq hup).2
      · right
        rw [h.node_of_ne hki]
        exact ⟨hT, fun hnil => hmsg k hki (hM hnil)⟩
  case last =>
    intro hall
    obtain ⟨k, hk | ⟨hkreq, hup⟩⟩ := hi.last fun k hm => hall k ((hmulti k).mpr hm)
    · rcases hlast k hk with hk' | ⟨rfl, hreq', hold⟩
      · exact ⟨k, .inl hk'⟩
      · refine ⟨k, .inr ?_⟩
        have hne := hall k
        rw [h.node_self] at hne ⊢
        rw [h.node_of_ne (right_ne hn k)]
        refine ⟨hreq', ?_⟩
        rcases hawake hne hreq' with hup | ⟨hreq0, -, -⟩
        · exact hup
        · rw [hold] at hreq0
          cases hreq0
    · exact ⟨k, .inr (hutd k (hall k) hkreq hup)⟩

/-! ## The events -/

section Events

variable {rt : AgRuntime} {sh : AgShared} {posted : List Transfer} {x : RecoverRequest}
  {q : List RecoverRequest} {b : Transfer} {l : List Transfer}

theorem Inv.request (hn : 2 ≤ cfg.nodes) (hi : Inv cfg recv t) (hq : t.request (right i) = x :: q)
    (hrt : (t.node i).notifyRecvRecoveryRequest cfg (t.node (right i)) t.shared =
      some (rt, sh, posted)) :
    Inv cfg recv { t with
      node := update t.node i rt
      shared := sh
      request := update t.request (right i) q
      requestAck := update t.requestAck (right i) (t.requestAck (right i) ++ [x])
      block := update t.block i (t.block i ++ posted) } := by
  have hlink := hi.link i
  have hleft := hi.link (left i)
  rw [hq] at hlink
  rw [right_left] at hleft
  have hreq0 : (t.node i).hasRecvRecoverReq = false := by
    cases hreq : (t.node i).hasRecvRecoverReq
    · rfl
    · exact nomatch (hlink.asked hreq).1
  rw [AgRuntime.notifyRecvRecoveryRequest_eq] at hrt
  split at hrt
  next =>
    rw [Option.some.injEq] at hrt
    let u : AgRuntime := { t.node i with
      hasRecvRecoverReq := true
      recSentAll := (t.node i).recSentAll || (t.node (right i)).toRecover.isEmpty }
    have hu : NodeOk u ∨ u.state = .recovery := by
      by_cases hst : u.state = .recovery
      · exact .inr hst
      · refine .inl ⟨fun hfin => ?_, fun h => absurd h hst⟩
        obtain ⟨h1, h2⟩ := (hi.node i).finished hfin
        exact ⟨h1, by simp only [u, h2, Bool.true_or]⟩
    have hlu := hlink.request (show u.hasRecvRecoverReq = true from rfl) rfl rfl
    obtain ⟨rt', sh', posted', heq, hlink', hok, hsame, hup⟩ := hlu.tryUpdateState cfg t.shared
      hu.resolve_right
    rw [hrt, Prod.mk.injEq, Prod.mk.injEq] at heq
    obtain ⟨rfl, rfl, rfl⟩ := heq
    have hri := right_ne hn i
    have hli := left_ne hn i
    refine At.inv hn ?_ hi ?_ ?_ hok hsame.multicast hsame.recv
      hsame.block ?_ ?_ ?_ ?_ ?_
    · refine ⟨rfl, fun k hk _ => ?_, fun k hk _ => ?_, fun k hk _ => ?_, fun _ _ _ => rfl⟩
      · exact update_of_ne (fun h => hk (right_inj.mp h)) ..
      · exact update_of_ne (fun h => hk (right_inj.mp h)) ..
      · exact update_of_ne hk ..
    · simpa only [update_self] using hlink'
    · simp only [update_of_ne hri.symm, update_of_ne hli]
      exact hleft.right_congr hsame.toRecover hsame.hasRecoveredAll hsame.multicast
    · rw [hsame.toRecover]
      exact fun _ hb => hb
    · exact fun _ => hsame.hasRecvRecoverReq
    · exact fun hne hreq => .inl (hup hne hreq)
    · intro k _ hk
      by_cases hkr : k = right i
      · subst hkr
        exact .inr (by simp [update_self])
      · simpa only [update_of_ne hkr] using hk
    · intro k hk
      by_cases hki : k = i
      · exact .inr ⟨hki, hsame.hasRecvRecoverReq, hreq0⟩
      · refine .inl ?_
        simpa only [update_of_ne (fun h => hki (right_inj.mp h))] using hk
  next => cases hrt

/-- A node that changed nothing but flags that only grow with it is still fine. -/
theorem NodeOk.of_flags {rt u : AgRuntime} (h : NodeOk rt) (hst : u.state = rt.state)
    (hrec : rt.hasRecoveredAll = true → u.hasRecoveredAll = true)
    (hall : rt.recSentAll = true → u.recSentAll = true) (hne : u.state ≠ .recovery) :
    NodeOk u := by
  refine ⟨fun hfin => ?_, fun h => absurd h hne⟩
  obtain ⟨h1, h2⟩ := h.finished (hst ▸ hfin)
  exact ⟨hrec h1, hall h2⟩

theorem Inv.requestAck (hn : 2 ≤ cfg.nodes) (hi : Inv cfg recv t) (hq : t.requestAck i = x :: q)
    (hrt : (if x.onSend then (t.node i).onRequestSent cfg (t.node (right i)).toRecover t.shared
      else some (t.node i, t.shared, [])) = some (rt, sh, posted)) :
    Inv cfg recv { t with
      node := update t.node i rt
      shared := sh
      requestAck := update t.requestAck i q
      block := update t.block i (t.block i ++ posted) } := by
  have hlink := hi.link i
  have hleft := hi.link (left i)
  rw [right_left, hq] at hleft
  have hri := right_ne hn i
  have hli := left_ne hn i
  have hat : At i rt t { t with
      node := update t.node i rt
      shared := sh
      requestAck := update t.requestAck i q
      block := update t.block i (t.block i ++ posted) } := by
    refine ⟨rfl, fun _ _ _ => rfl, fun k _ hk => ?_, fun k hk _ => ?_, fun _ _ _ => rfl⟩
    · exact update_of_ne (fun h => hk (by rw [← h, left_right])) ..
    · exact update_of_ne hk ..
  have hmsg : ∀ k, k ≠ i → t.request k ≠ [] ∨ t.requestAck k ≠ [] →
      t.request k ≠ [] ∨ update t.requestAck i q k ≠ [] := by
    intro k hk hne
    rwa [update_of_ne hk]
  split at hrt
  next hon =>
    obtain ⟨⟨u, shu, postedu⟩, hu, hrt⟩ := Option.bind_eq_some_iff.mp hrt
    rw [AgRuntime.notifyRecovery_none] at hu
    split at hu
    next hst =>
      have hlu : LinkOk _ (t.node i).checkRecovered _ _ _ _ _ := hlink.left_congr rfl rfl rfl
      obtain ⟨u', shu', postedu', heq, hlu', hok, hsame, -⟩ := hlu.tryUpdateState cfg t.shared
        fun hne => absurd hst hne
      rw [Option.some.injEq, heq, Prod.mk.injEq, Prod.mk.injEq] at hu
      obtain ⟨rfl, rfl, rfl⟩ := hu
      obtain ⟨v, shv, postedv, heqv, hlv, hokv, hsamev, hup⟩ := hlu'.tryUpdateState cfg shu'
        fun _ => hok
      simp only [heqv, Option.pure_def, Option.some.injEq, Prod.mk.injEq] at hrt
      obtain ⟨rfl, rfl, rfl⟩ := hrt
      have hs := hsame.trans hsamev
      refine hat.inv hn hi ?_ ?_ hokv hs.multicast hs.recv hs.block ?_ ?_ ?_ hmsg
        fun _ hk => .inl hk
      · simpa only [update_self, update_of_ne hri, List.append_assoc] using hlv
      · simp only [update_self, update_of_ne hli]
        refine hleft.requestAck hs.toRecover hs.multicast ?_
        rw [hs.hasRecoveredAll, hon, Bool.true_and]
        rfl
      · rw [hs.toRecover]
        exact fun _ hb => hb
      · rw [hs.hasRecvRecoverReq]
        exact id
      · exact fun hne hreq => .inl (hup hne hreq)
    next => cases hu
  next hoff =>
    rw [Option.some.injEq, Prod.mk.injEq, Prod.mk.injEq] at hrt
    obtain ⟨rfl, rfl, rfl⟩ := hrt
    refine hat.inv hn hi ?_ ?_ (hi.node i) Iff.rfl rfl rfl (fun _ hb => hb) id ?_ hmsg
      fun _ hk => .inl hk
    · simpa only [update_self, update_of_ne hri, List.append_nil] using hlink
    · simp only [update_self, update_of_ne hli]
      refine hleft.requestAck rfl Iff.rfl ?_
      rw [Bool.not_eq_true] at hoff
      rw [hoff, Bool.false_and, Bool.or_false]
    · intro hne hreq
      by_cases hup : UpToDate (t.node i) (t.node (right i))
      · exact .inl hup
      · obtain ⟨hT, -⟩ := (hi.awake i hne hreq).resolve_left hup
        exact .inr ⟨hreq, hup, hT, fun hnil => absurd (hleft.onSend_iff.mpr hnil) hoff⟩

theorem Inv.block (hn : 2 ≤ cfg.nodes) (hi : Inv cfg recv t) (hb : t.block (left i) = b :: l)
    (hrt : (t.node i).notifyRecovery cfg (t.node (right i)).toRecover (some b.block) t.shared =
      some (rt, sh, posted)) :
    Inv cfg recv { t with
      node := update t.node i rt
      shared := sh
      block := update (update t.block (left i) l) i (t.block i ++ posted)
      blockAck := update t.blockAck (left i) (t.blockAck (left i) ++ [b]) } := by
  have hlink := hi.link i
  have hleft := hi.link (left i)
  rw [right_left, hb] at hleft
  have hri := right_ne hn i
  have hli := left_ne hn i
  rw [AgRuntime.notifyRecovery_block] at hrt
  split at hrt
  next hst =>
    rw [Option.some.injEq] at hrt
    let u : AgRuntime :=
      { t.node i with toRecover := (t.node i).toRecover.erase b.block }.checkRecovered
    have hlu : LinkOk _ u _ _ _ _ _ := hlink.left_congr rfl rfl rfl
    obtain ⟨rt', sh', posted', heq, hlink', hok, hsame, hup⟩ := hlu.tryUpdateState cfg
      { t.shared with retrChunksTot := t.shared.retrChunksTot + 1 } fun hne => absurd hst hne
    rw [hrt, Prod.mk.injEq, Prod.mk.injEq] at heq
    obtain ⟨rfl, rfl, rfl⟩ := heq
    refine At.inv hn ?_ hi ?_ ?_ hok hsame.multicast hsame.recv hsame.block ?_ ?_ ?_
      (fun _ _ hk => hk) fun _ hk => .inl hk
    · refine ⟨rfl, fun _ _ _ => rfl, fun _ _ _ => rfl, fun k hk hk' => ?_, fun k _ hk => ?_⟩
      · simp only [update_of_ne hk, update_of_ne hk']
      · exact update_of_ne hk ..
    · simpa only [update_self, update_of_ne hli.symm] using hlink'
    · simp only [update_self, update_of_ne hli]
      exact hleft.block hsame.toRecover hsame.multicast hsame.hasRecoveredAll
    · rw [hsame.toRecover]
      exact fun c hc => (OrdMap.mem_keys_erase.mp hc).2
    · rw [hsame.hasRecvRecoverReq]
      exact id
    · exact fun hne hreq => .inl (hup hne hreq)
  next => cases hrt

theorem Inv.blockAck (hn : 2 ≤ cfg.nodes) (hi : Inv cfg recv t) (hb : t.blockAck i = b :: l)
    (hrt : (t.node i).onTransferSent cfg (t.node (right i)).toRecover t.shared =
      (rt, sh, posted)) :
    Inv cfg recv { t with
      node := update t.node i rt
      shared := sh
      block := update t.block i (t.block i ++ posted)
      blockAck := update t.blockAck i l } := by
  have hlink := hi.link i
  have hleft := hi.link (left i)
  rw [hb] at hlink
  rw [right_left] at hleft
  have hri := right_ne hn i
  have hli := left_ne hn i
  rw [AgRuntime.onTransferSent_eq] at hrt
  let u : AgRuntime := { t.node i with
    recSentAll := (t.node i).recSentAll || (t.node (right i)).toRecover.isEmpty }
  have hlu : LinkOk _ u _ _ _ _ _ := hlink.blockAck rfl rfl rfl
  have hu : u.state ≠ .recovery → NodeOk u :=
    (hi.node i).of_flags rfl id fun h => by simp only [u, h, Bool.true_or]
  obtain ⟨rt', sh', posted', heq, hlink', hok, hsame, hup⟩ := hlu.tryUpdateState cfg t.shared hu
  rw [hrt, Prod.mk.injEq, Prod.mk.injEq] at heq
  obtain ⟨rfl, rfl, rfl⟩ := heq
  refine At.inv hn ?_ hi ?_ ?_ hok hsame.multicast hsame.recv hsame.block ?_ ?_ ?_
    (fun _ _ hk => hk) fun _ hk => .inl hk
  · refine ⟨rfl, fun _ _ _ => rfl, fun _ _ _ => rfl, fun k hk _ => ?_, fun k hk _ => ?_⟩
    · exact update_of_ne hk ..
    · exact update_of_ne hk ..
  · simpa only [update_self] using hlink'
  · simp only [update_of_ne hli]
    exact hleft.right_congr hsame.toRecover hsame.hasRecoveredAll hsame.multicast
  · rw [hsame.toRecover]
    exact fun _ hc => hc
  · rw [hsame.hasRecvRecoverReq]
    exact id
  · exact fun hne hreq => .inl (hup hne hreq)

theorem Inv.leave (hn : 2 ≤ cfg.nodes) (hi : Inv cfg recv t)
    (hrt : (t.node i).transitionToRecovery cfg t.shared = some (rt, sh)) :
    Inv cfg recv { t with
      node := update t.node i rt
      shared := sh
      request := update t.request i (t.request i ++ [rt.startRecoveryPhase]) } := by
  have hleft := hi.link (left i)
  rw [right_left] at hleft
  have hri := right_ne hn i
  have hli := left_ne hn i
  obtain ⟨hm, hrt, -⟩ := AgRuntime.transitionToRecovery_cases hrt
  obtain ⟨hrecv, hblock⟩ := hi.fresh i hm
  have hnone := hleft.multicast hm
  have hst : rt.state = .recovery := by rw [hrt]
  have hT : rt.toRecover.keys = missed cfg recv i := by
    rw [hrt, missed, hrecv, hblock]
  have hrec : rt.hasRecoveredAll = (t.node i).hasRecoveredAll := by rw [hrt]
  have hreq : rt.hasRecvRecoverReq = (t.node i).hasRecvRecoverReq := by rw [hrt]
  have hsent : rt.recSent = (t.node i).recSent := by rw [hrt]
  have hall : rt.recSentAll = (t.node i).recSentAll := by rw [hrt]
  have hon : rt.startRecoveryPhase.onSend = true ↔ missed cfg recv i = [] := by
    rw [← hT, ← OrdMap.size_eq_zero_iff]
    simp [AgRuntime.startRecoveryPhase, AgRuntime.hasAllChunks, hst]
  have hat : At i rt t { t with
      node := update t.node i rt
      shared := sh
      request := update t.request i (t.request i ++ [rt.startRecoveryPhase]) } := by
    refine ⟨rfl, fun k _ hk => ?_, fun _ _ _ => rfl, fun _ _ _ => rfl, fun _ _ _ => rfl⟩
    exact update_of_ne (fun h => hk (by rw [← h, left_right])) ..
  constructor
  case link =>
    refine hat.link hn hi ?_ ?_
    · simp only [update_of_ne hri]
      exact (hi.link i).left_congr hreq hsent hall
    · simp only [update_self]
      exact hleft.leave hm hst hT hrec _ hon
  case node =>
    intro k
    by_cases hk : k = i
    · rw [hk, hat.node_self]
      refine ⟨fun h => ?_, fun _ => .inl (hrec.trans hnone.2.2.2.2)⟩
      rw [hst] at h
      cases h
    · rw [hat.node_of_ne hk]
      exact hi.node k
  case fresh =>
    intro k hk
    by_cases hki : k = i
    · rw [hki, hat.node_self, hst] at hk
      cases hk
    · rw [hat.node_of_ne hki] at hk ⊢
      exact hi.fresh k hk
  case awake =>
    intro k hne hkreq
    by_cases hki : k = i
    · subst hki
      rw [hat.node_self]
      refine .inr ⟨hT, fun _ => .inl ?_⟩
      simp [update_self]
    · rw [hat.node_of_ne hki] at hne hkreq ⊢
      by_cases hkl : k = left i
      · rw [hkl, hnone.2.2.2.1] at hkreq
        cases hkreq
      · have hkr : right k ≠ i := fun h => hkl (by rw [← h, left_right])
        rw [hat.node_of_ne hkr]
        simpa only [update_of_ne hki] using hi.awake k hne hkreq
  case last =>
    intro _
    refine ⟨left i, .inl ?_⟩
    simp [update_self]

/-- **The step lemma.** -/
theorem Inv.step (hn : 2 ≤ cfg.nodes) (hi : Inv cfg recv t) (hst : Step cfg t e t') :
    Inv cfg recv t' := by
  cases hst with
  | leave hrt => exact hi.leave hn hrt
  | request hq hrt => exact hi.request hn hq hrt
  | requestAck hq hrt => exact hi.requestAck hn hq hrt
  | block hb hrt => exact hi.block hn hb hrt
  | blockAck hb hrt => exact hi.blockAck hn hb hrt

/-- **The run lemma.** -/
theorem recovery_inv (hn : 2 ≤ cfg.nodes) (h : (recovery cfg recv).Reachable t) :
    Inv cfg recv t :=
  h.invariant (fun h0 => by rw [h0]; exact initial_inv hn) fun _ hi hst => hi.step hn hst

end Events

end AgRing
end Roce
