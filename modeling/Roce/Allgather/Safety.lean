import Roce.Lib.Tally
import Roce.Allgather.Wedge

/-! # The recovery of an allgather is safe

What the nodes of the ring do over a whole run: how often they change their state, which requests
and blocks they post, and which blocks they recover. A history records the steps of a run, and
`Log` is what holds of a history and the state it ends in. -/

namespace Roce
namespace AgRing

open Function

/-- Whether the node `i` leaves the multicast phase. -/
def Event.isLeave (i : Fin n) : Event n → Bool
  | .leave j => j = i
  | _ => false

/-- Whether the request of the node `i` is received. -/
def Event.isRequest (i : Fin n) : Event n → Bool
  | .request j => right j = i
  | _ => false

/-- The transfers that the node of an event posts. -/
def posts (cfg : AgConfig) (t : AgRing n) : Event n → List Transfer
  | .leave _ => []
  | .request i =>
    ((t.node i).notifyRecvRecoveryRequest cfg (t.node (right i)) t.shared).elim [] (·.2.2)
  | .requestAck i => match t.requestAck i with
    | q :: _ => if q.onSend then
        ((t.node i).onRequestSent cfg (t.node (right i)).toRecover t.shared).elim [] (·.2.2)
      else []
    | [] => []
  | .block i => match t.block (left i) with
    | b :: _ => ((t.node i).notifyRecovery cfg (t.node (right i)).toRecover (some b.block)
        t.shared).elim [] (·.2.2)
    | [] => []
  | .blockAck i => ((t.node i).onTransferSent cfg (t.node (right i)).toRecover t.shared).2.2

/-- The blocks that the node of an event receives. -/
def receives (t : AgRing n) : Event n → List Nat
  | .block i => (t.block (left i)).head?.toList.map (·.block)
  | _ => []

/-- The steps of a run. -/
abbrev History (n : Nat) := List (Machine.Taken (AgRing n) (Event n))

/-- How often the node `i` goes from Multicast to Recovery. -/
def leaveCount (i : Fin n) (tr : History n) : Nat :=
  tr.countP fun st => (st.source.node i).state = .multicast ∧ (st.target.node i).state = .recovery

/-- How often the node `i` enters Finished. -/
def finishCount (i : Fin n) (tr : History n) : Nat :=
  tr.countP fun st => (st.source.node i).state ≠ .finished ∧ (st.target.node i).state = .finished

/-- How many requests of the node `i` its left neighbour has received. -/
def requestCount (i : Fin n) (tr : History n) : Nat := tr.countP (·.event.isRequest i)

/-- The transfers that the node `i` has posted. -/
def posted (cfg : AgConfig) (i : Fin n) (tr : History n) : List Transfer :=
  tr.flatMap fun st => if st.event.node = i then posts cfg st.source st.event else []

/-- The blocks that the node `i` has received. -/
def recovered (i : Fin n) (tr : History n) : List Nat :=
  tr.flatMap fun st => if st.event.node = i then receives st.source st.event else []

/-! ## What a step does -/

/-- What `AgShared` counts when a node goes from the state `st` to the state `st'`. -/
structure Counted (cfg : AgConfig) (st st' : AgState) (sh sh' : AgShared) : Prop where
  apps : sh'.completedApps =
    sh.completedApps + if st ≠ .finished ∧ st' = .finished then 1 else 0
  calls : sh'.finishCalls = sh.finishCalls +
    if (st ≠ .finished ∧ st' = .finished) ∧ sh'.completedApps = cfg.nodes then 1 else 0

theorem Counted.refl (cfg : AgConfig) (st : AgState) (sh : AgShared) : Counted cfg st st sh sh := by
  have hno : ¬(st ≠ .finished ∧ st = .finished) := fun h => h.1 h.2
  constructor
  · rw [if_neg hno, Nat.add_zero]
  · rw [if_neg fun h => hno h.1, Nat.add_zero]

theorem Counted.finished (cfg : AgConfig) {st : AgState} (h : st ≠ .finished) (sh : AgShared) :
    Counted cfg st .finished sh (sh.registerStateTransition cfg .finished) := by
  by_cases hall : sh.completedApps + 1 = cfg.nodes
  · have hsh : sh.registerStateTransition cfg .finished = { sh with
        completedApps := sh.completedApps + 1
        finishCalls := sh.finishCalls + 1 } := if_pos hall
    rw [hsh]
    exact ⟨by rw [if_pos ⟨h, rfl⟩], by rw [if_pos ⟨⟨h, rfl⟩, hall⟩]⟩
  · have hsh : sh.registerStateTransition cfg .finished =
        { sh with completedApps := sh.completedApps + 1 } := if_neg hall
    rw [hsh]
    refine ⟨by rw [if_pos ⟨h, rfl⟩], ?_⟩
    rw [if_neg fun h' => hall h'.2]
    rfl

theorem Counted.congr (h : Counted cfg st st' sh sh') (h1 : shu.completedApps = sh.completedApps)
    (h2 : shu.finishCalls = sh.finishCalls) : Counted cfg st st' shu sh' :=
  ⟨h1 ▸ h.apps, h2 ▸ h.calls⟩

theorem Counted.trans (h : Counted cfg st st' sh shu) (h' : Counted cfg st' st'' shu sh')
    (hfin : st = .finished → st' = .finished) (hfin' : st' = .finished → st'' = .finished) :
    Counted cfg st st'' sh sh' := by
  obtain ⟨h1, h2⟩ := h
  obtain ⟨h3, h4⟩ := h'
  by_cases hst' : st' = .finished
  · have hno : ¬(st' ≠ .finished ∧ st'' = .finished) := fun h => h.1 hst'
    rw [if_neg hno, Nat.add_zero] at h3
    rw [if_neg fun h => hno h.1, Nat.add_zero] at h4
    constructor
    · simpa only [h3, hst', hfin' hst', and_true] using h1
    · simpa only [h3, h4, hst', hfin' hst', and_true] using h2
  · have hno : ¬(st ≠ .finished ∧ st' = .finished) := fun h => hst' h.2
    have hst : st ≠ .finished := fun h => hst' (hfin h)
    rw [if_neg hno, Nat.add_zero] at h1
    rw [if_neg fun h => hno h.1, Nat.add_zero] at h2
    constructor
    · simpa only [h1, ne_eq, hst, hst', not_false_eq_true, true_and] using h3
    · simpa only [h2, ne_eq, hst, hst', not_false_eq_true, true_and] using h4

/-- What a function of the recovery does to a node, its blocks to recover apart. -/
structure Updated (cfg : AgConfig) (rt : AgRuntime) (sh : AgShared) (res : AgRuntime.Result) :
    Prop where
  recSent : res.1.recSent = rt.recSent ++ res.2.2.map (·.block)
  nodup : (res.2.2.map (·.block)).Nodup
  posted : ∀ b ∈ res.2.2.map (·.block),
    rt.state = .recovery ∧ b ∉ rt.recSent ∧ b ∉ res.1.toRecover.keys
  multicast : res.1.state = .multicast ↔ rt.state = .multicast
  finished : rt.state = .finished → res.1.state = .finished
  recv : res.1.recv = rt.recv
  block : res.1.block = rt.block
  counted : Counted cfg rt.state res.1.state sh res.2.1

variable {cfg : AgConfig} {rt u v : AgRuntime} {sh shu : AgShared} {res : AgRuntime.Result}

theorem Updated.refl (cfg : AgConfig) (rt : AgRuntime) (sh : AgShared) :
    Updated cfg rt sh (rt, sh, []) where
  recSent := (List.append_nil _).symm
  nodup := List.nodup_nil
  posted := fun _ hb => nomatch hb
  multicast := Iff.rfl
  finished := id
  recv := rfl
  block := rfl
  counted := .refl ..

/-- The members that a notification sets before it calls `TryUpdateState` do not matter. -/
theorem Updated.of_notified (h : Updated cfg u shu res) (h1 : u.recSent = rt.recSent)
    (h2 : u.state = rt.state) (h3 : u.recv = rt.recv) (h4 : u.block = rt.block)
    (h5 : shu.completedApps = sh.completedApps) (h6 : shu.finishCalls = sh.finishCalls) :
    Updated cfg rt sh res := by
  obtain ⟨a1, a2, a3, a4, a5, a6, a7, a8⟩ := h
  rw [h1] at a1 a3
  rw [h2] at a3 a4 a5 a8
  rw [h3] at a6
  rw [h4] at a7
  exact ⟨a1, a2, a3, a4, a5, a6, a7, a8.congr h5.symm h6.symm⟩

theorem tryUpdateState_toRecover {right : OrdMap Nat Nat}
    (h : u.tryUpdateState cfg right sh = (v, shv, l)) : v.toRecover = u.toRecover := by
  by_cases hst : u.state = .recovery
  · obtain ⟨sh', heq⟩ := AgRuntime.tryUpdateState_eq cfg right sh hst
    rw [heq, Prod.mk.injEq] at h
    rw [← h.1]
  · rw [AgRuntime.tryUpdateState, if_pos hst, Prod.mk.injEq] at h
    rw [← h.1]

theorem foldl_sendBlock_state (cfg : AgConfig) (l : List (Nat × Nat))
    (acc : AgRuntime × List Transfer) :
    (l.foldl (AgRuntime.sendBlock cfg) acc).1.state = acc.1.state := by
  induction l generalizing acc with
  | nil => rfl
  | cons e l ih =>
    rw [List.foldl_cons, ih, AgRuntime.sendBlock_eq]
    split <;> rfl

/-- The counters after `TryUpdateState`. -/
theorem tryUpdateState_counted (cfg : AgConfig) (rt : AgRuntime) (right : OrdMap Nat Nat)
    (sh : AgShared) : Counted cfg rt.state (rt.tryUpdateState cfg right sh).1.state sh
      (rt.tryUpdateState cfg right sh).2.1 := by
  unfold AgRuntime.tryUpdateState
  split
  next => exact .refl ..
  next hst =>
    rw [not_not] at hst
    split
    next u posted hgate =>
      have hu : u.state = .recovery := by
        rw [← hst, show u.state = (u, posted).1.state from rfl, ← hgate]
        split
        · exact foldl_sendBlock_state ..
        · rfl
      rw [hst]
      split
      · exact .finished cfg (by decide) sh
      · exact hu ▸ .refl cfg _ sh

/-- **`TryUpdateState`** posts only blocks that the node has and did not post before. -/
theorem tryUpdateState_updated (cfg : AgConfig) (rt : AgRuntime) (right : OrdMap Nat Nat)
    (sh : AgShared) : Updated cfg rt sh (rt.tryUpdateState cfg right sh) := by
  by_cases hst : rt.state = .recovery
  · have hcount := tryUpdateState_counted cfg rt right sh
    obtain ⟨sh', heq⟩ := AgRuntime.tryUpdateState_eq cfg right sh hst
    rw [heq] at hcount ⊢
    refine ⟨rfl, AgRuntime.posting_nodup .., fun b hb => ?_, ?_, ?_, rfl, rfl, hcount⟩
    · obtain ⟨-, -, -, hnot, hown⟩ := AgRuntime.mem_posting.mp hb
      exact ⟨hst, hnot, hown⟩
    · rw [hst]
      cases rt.hasRecoveredAll <;> cases rt.recSentAll <;> simp
    · rw [hst]
      exact fun h => nomatch h
  · rw [AgRuntime.tryUpdateState, if_pos hst]
    exact .refl ..

/-- A second call of `TryUpdateState`. -/
theorem Updated.tryUpdateState (h : Updated cfg rt sh (u, shu, l)) (right : OrdMap Nat Nat)
    {l' : List Transfer} (heq : u.tryUpdateState cfg right shu = (v, shv, l')) :
    Updated cfg rt sh (v, shv, l ++ l') := by
  have h' := tryUpdateState_updated cfg u right shu
  have hT := tryUpdateState_toRecover heq
  rw [heq] at h'
  have hsent : u.recSent = rt.recSent ++ l.map (·.block) := h.recSent
  have hnew : ∀ b ∈ l'.map (·.block), rt.state = .recovery ∧ b ∉ u.recSent := by
    intro b hb
    obtain ⟨hst, hnot, -⟩ := h'.posted b hb
    refine ⟨?_, hnot⟩
    cases hs : rt.state
    · have := h.multicast.mpr hs
      simp_all
    · rfl
    · have := h.finished hs
      simp_all
  constructor
  case recSent =>
    show v.recSent = rt.recSent ++ (l ++ l').map (·.block)
    rw [List.map_append, ← List.append_assoc, ← hsent]
    exact h'.recSent
  case nodup =>
    show ((l ++ l').map (·.block)).Nodup
    rw [List.map_append]
    refine List.nodup_append.mpr ⟨h.nodup, h'.nodup, ?_⟩
    rintro b hb _ hb' rfl
    refine (hnew b hb').2 ?_
    rw [hsent]
    exact List.mem_append_right _ hb
  case posted =>
    intro b hb
    change b ∈ (l ++ l').map (·.block) at hb
    rw [List.map_append] at hb
    rcases List.mem_append.mp hb with hb | hb
    · obtain ⟨hst, hnot, hown⟩ := h.posted b hb
      exact ⟨hst, hnot, hT ▸ hown⟩
    · obtain ⟨hst, hnot⟩ := hnew b hb
      refine ⟨hst, fun hmem => hnot ?_, (h'.posted b hb).2.2⟩
      rw [hsent]
      exact List.mem_append_left _ hmem
  case multicast => exact h'.multicast.trans h.multicast
  case finished => exact fun hs => h'.finished (h.finished hs)
  case recv => exact h'.recv.trans h.recv
  case block => exact h'.block.trans h.block
  case counted => exact h.counted.trans h'.counted h.finished h'.finished

theorem onRequestSent_updated {right : OrdMap Nat Nat}
    (h : rt.onRequestSent cfg right sh = some res) : Updated cfg rt sh res := by
  obtain ⟨⟨u, shu, l⟩, hu, h⟩ := Option.bind_eq_some_iff.mp h
  rw [AgRuntime.notifyRecovery_none] at hu
  split at hu
  next hst =>
    have hu' : Updated cfg rt sh (u, shu, l) := by
      rw [← Option.some.inj hu]
      exact (tryUpdateState_updated ..).of_notified rfl rfl rfl rfl rfl rfl
    simp only [Option.pure_def, Option.some.injEq] at h
    rw [← h]
    exact hu'.tryUpdateState right rfl
  next => cases hu

/-- What a step does: one node changes, and `AgShared` counts it if it finishes. -/
structure Acts (cfg : AgConfig) (t : AgRing n) (e : Event n) (t' : AgRing n) : Prop where
  frame : ∀ k, k ≠ e.node → t'.node k = t.node k
  recSent : (t'.node e.node).recSent =
    (t.node e.node).recSent ++ (posts cfg t e).map (·.block)
  nodup : ((posts cfg t e).map (·.block)).Nodup
  posted : ∀ b ∈ (posts cfg t e).map (·.block), (t.node e.node).state = .recovery ∧
    b ∉ (t.node e.node).recSent ∧ b ∉ (t'.node e.node).toRecover.keys
  multicast : (t'.node e.node).state = .multicast →
    (t.node e.node).state = .multicast ∧ ∀ i, e ≠ .leave i
  leaving : (t.node e.node).state = .multicast → (t'.node e.node).state ≠ .multicast →
    e = .leave e.node ∧ (t'.node e.node).state = .recovery ∧
      (t'.node e.node).toRecover = cfg.buildToRecover
        (AgRuntime.markOwn cfg (t.node e.node).block (t.node e.node).recv)
  gone : (t.node e.node).state ≠ .multicast → (∀ i, e ≠ .leave i) ∧
    ∀ b, b ∈ (t'.node e.node).toRecover.keys ↔
      b ∈ (t.node e.node).toRecover.keys ∧ b ∉ receives t e
  receiving : receives t e ≠ [] → (t.node e.node).state = .recovery
  finished : (t.node e.node).state = .finished → (t'.node e.node).state = .finished
  recv : (t'.node e.node).state = .multicast → (t'.node e.node).recv = (t.node e.node).recv
  block : (t'.node e.node).block = (t.node e.node).block
  counted : Counted cfg (t.node e.node).state (t'.node e.node).state t.shared t'.shared

/-- What a step that is not `leave` does, from what the function it calls does. -/
theorem Acts.of_updated {t t' : AgRing n} {e : Event n} (hnode : t'.node = update t.node e.node rt)
    (he : ∀ i, e ≠ .leave i)
    (h : Updated cfg (t.node e.node) t.shared (rt, t'.shared, posts cfg t e))
    (hT : ∀ b, b ∈ rt.toRecover.keys ↔
      b ∈ (t.node e.node).toRecover.keys ∧ b ∉ receives t e)
    (hrec : receives t e ≠ [] → (t.node e.node).state = .recovery) : Acts cfg t e t' := by
  have hself : t'.node e.node = rt := by rw [hnode, update_self]
  constructor
  case frame => exact fun k hk => by rw [hnode, update_of_ne hk]
  case recSent => exact hself ▸ h.recSent
  case nodup => exact h.nodup
  case posted => exact hself ▸ h.posted
  case multicast => exact fun hm => ⟨h.multicast.mp (hself ▸ hm), he⟩
  case leaving => exact fun hm hne => absurd (hself ▸ h.multicast.mpr hm) hne
  case gone => exact fun _ => ⟨he, hself ▸ hT⟩
  case receiving => exact hrec
  case finished => exact hself ▸ h.finished
  case recv => exact fun _ => hself ▸ h.recv
  case block => exact hself ▸ h.block
  case counted => exact hself ▸ h.counted

theorem onRequestSent_toRecover {right : OrdMap Nat Nat}
    (h : rt.onRequestSent cfg right sh = some res) : res.1.toRecover = rt.toRecover := by
  obtain ⟨⟨u, shu, l⟩, hu, h⟩ := Option.bind_eq_some_iff.mp h
  rw [AgRuntime.notifyRecovery_none] at hu
  split at hu
  next =>
    have hT := tryUpdateState_toRecover (Option.some.inj hu)
    simp only [Option.pure_def, Option.some.injEq] at h
    rw [← h]
    exact (tryUpdateState_toRecover rfl).trans hT
  next => cases hu

/-- **What a step does.** -/
theorem Step.acts {t t' : AgRing n} {e : Event n} (h : Step cfg t e t') : Acts cfg t e t' := by
  cases h with
  | @leave rt sh _ i hrt =>
    obtain ⟨hm, rfl, rfl⟩ := AgRuntime.transitionToRecovery_cases hrt
    constructor
    case frame => exact fun k hk => update_of_ne hk ..
    case nodup => exact List.nodup_nil
    case posted => exact fun _ hb => absurd hb List.not_mem_nil
    case receiving => exact fun h => absurd rfl h
    all_goals simp only [Event.node, update_self]
    case recSent => exact (List.append_nil _).symm
    case multicast => exact fun h => by cases h
    case leaving => exact fun _ _ => ⟨trivial, trivial, trivial⟩
    case gone => exact fun h => absurd hm h
    case finished => rw [hm]; exact fun h => by cases h
    case recv => exact fun h => by cases h
    case counted =>
      rw [hm]
      exact ⟨rfl, rfl⟩
  | @request q l rt sh posted _ i hq hrt =>
    have hposts : posts cfg t (.request i) = posted := by rw [posts, hrt]; rfl
    rw [AgRuntime.notifyRecvRecoveryRequest_eq] at hrt
    split at hrt
    next =>
      rw [Option.some.injEq] at hrt
      refine .of_updated rfl (fun _ h => by cases h) ?_ (fun b => ?_) (fun h => absurd rfl h)
      · rw [hposts, ← hrt]
        exact (tryUpdateState_updated ..).of_notified rfl rfl rfl rfl rfl rfl
      · rw [tryUpdateState_toRecover hrt]
        simp [receives, Event.node]
    next => cases hrt
  | @requestAck q l rt sh posted _ i hq hrt =>
    have hposts : posts cfg t (.requestAck i) = posted := by
      simp only [posts, hq]
      split at hrt
      next hon => rw [if_pos hon, hrt]; rfl
      next hoff =>
        rw [Option.some.injEq, Prod.mk.injEq, Prod.mk.injEq] at hrt
        rw [if_neg hoff, hrt.2.2]
    refine .of_updated rfl (fun _ h => by cases h) ?_ (fun b => ?_) (fun h => absurd rfl h)
    · rw [hposts]
      split at hrt
      next => exact onRequestSent_updated hrt
      next =>
        rw [← Option.some.inj hrt]
        exact .refl ..
    · have hT : rt.toRecover = (t.node i).toRecover := by
        split at hrt
        next => exact onRequestSent_toRecover hrt
        next =>
          rw [Option.some.injEq, Prod.mk.injEq] at hrt
          rw [← hrt.1]
      rw [hT]
      simp [receives, Event.node]
  | @block b l rt sh posted _ i hb hrt =>
    have hposts : posts cfg t (.block i) = posted := by
      simp only [posts, hb, hrt]
      rfl
    rw [AgRuntime.notifyRecovery_block] at hrt
    split at hrt
    next hst =>
      rw [Option.some.injEq] at hrt
      refine .of_updated rfl (fun _ h => by cases h) ?_ (fun c => ?_) (fun _ => hst)
      · rw [hposts, ← hrt]
        exact (tryUpdateState_updated ..).of_notified rfl rfl rfl rfl rfl rfl
      · rw [tryUpdateState_toRecover hrt]
        simp [receives, Event.node, hb, AgRuntime.checkRecovered, and_comm]
    next => cases hrt
  | @blockAck b l rt sh posted _ i hb hrt =>
    have hposts : posts cfg t (.blockAck i) = posted := by rw [posts, hrt]
    rw [AgRuntime.onTransferSent_eq] at hrt
    refine .of_updated rfl (fun _ h => by cases h) ?_ (fun c => ?_) (fun h => absurd rfl h)
    · rw [hposts, ← hrt]
      exact (tryUpdateState_updated ..).of_notified rfl rfl rfl rfl rfl rfl
    · rw [tryUpdateState_toRecover hrt]
      simp [receives, Event.node]

/-- The request of a node is posted when it leaves, and is received by its left neighbour. -/
theorem Step.request_length {t t' : AgRing n} {e : Event n} (h : Step cfg t e t') (i : Fin n) :
    (t'.request i).length + (if e.isRequest i then 1 else 0) =
      (t.request i).length + if e.isLeave i then 1 else 0 := by
  cases h with
  | @leave _ _ _ k hrt =>
    by_cases hk : k = i
    · simp [Event.isLeave, Event.isRequest, hk]
    · simp [Event.isLeave, Event.isRequest, hk, Ne.symm hk]
  | @request q l _ _ _ _ k hq hrt =>
    by_cases hk : right k = i
    · subst hk
      simp [Event.isLeave, Event.isRequest, hq]
    · simp [Event.isLeave, Event.isRequest, hk, Ne.symm hk]
  | requestAck | block | blockAck => rfl

/-! ## The history of a run -/

section History

variable {tr : History n} {st : Machine.Taken (AgRing n) (Event n)} {i : Fin n}

theorem leaveCount_snoc : leaveCount i (tr ++ [st]) = leaveCount i tr +
    if (st.source.node i).state = .multicast ∧ (st.target.node i).state = .recovery then 1
    else 0 := by
  simp [leaveCount, List.countP_append, List.countP_singleton]

theorem finishCount_snoc : finishCount i (tr ++ [st]) = finishCount i tr +
    if (st.source.node i).state ≠ .finished ∧ (st.target.node i).state = .finished then 1
    else 0 := by
  simp [finishCount, List.countP_append, List.countP_singleton]

theorem requestCount_snoc : requestCount i (tr ++ [st]) =
    requestCount i tr + if st.event.isRequest i then 1 else 0 := by
  simp [requestCount, List.countP_append, List.countP_singleton]

theorem posted_snoc : posted cfg i (tr ++ [st]) = posted cfg i tr ++
    if st.event.node = i then posts cfg st.source st.event else [] := by
  simp [posted]

theorem recovered_snoc : recovered i (tr ++ [st]) = recovered i tr ++
    if st.event.node = i then receives st.source st.event else [] := by
  simp [recovered]

end History

/-- What holds of the history of a run and of the state it ends in. -/
structure Log (cfg : AgConfig) (recv : Fin cfg.nodes → List Bool) (tr : History cfg.nodes)
    (t : AgRing cfg.nodes) : Prop where
  fresh : ∀ i, (t.node i).state = .multicast → (t.node i).recv = recv i ∧
    (t.node i).block = i.val ∧ recovered i tr = []
  leaves : ∀ i, leaveCount i tr = if (t.node i).state = .multicast then 0 else 1
  requests : ∀ i, (t.request i).length + requestCount i tr = leaveCount i tr
  recSent : ∀ i, (t.node i).recSent = (posted cfg i tr).map (·.block)
  nodup : ∀ i, (t.node i).recSent.Nodup
  toRecover : ∀ i, (t.node i).state ≠ .multicast → ∀ b,
    b ∈ (t.node i).toRecover.keys ↔ b ∈ missed cfg recv i ∧ b ∉ recovered i tr
  finishes : ∀ i, finishCount i tr = if (t.node i).state = .finished then 1 else 0
  apps : t.shared.completedApps = ∑ i, if (t.node i).state = .finished then 1 else 0
  calls : t.shared.finishCalls =
    if 0 < cfg.nodes ∧ t.shared.completedApps = cfg.nodes then 1 else 0

theorem initial_log {recv : Fin cfg.nodes → List Bool} : Log cfg recv [] (initial recv) where
  fresh _ _ := ⟨rfl, rfl, rfl⟩
  leaves _ := rfl
  requests _ := rfl
  recSent _ := rfl
  nodup _ := List.nodup_nil
  toRecover _ h := absurd rfl h
  finishes _ := rfl
  apps := by simp [initial]
  calls := by
    rw [if_neg]
    · rfl
    · exact fun h => absurd h.1 (h.2 ▸ Nat.lt_irrefl 0)

section Step

variable {recv : Fin cfg.nodes → List Bool} {tr : History cfg.nodes} {t t' : AgRing cfg.nodes}
  {e : Event cfg.nodes}

/-- Only `leave` takes a node out of the multicast phase. -/
theorem Acts.leaves_iff (h : Acts cfg t e t') (i : Fin cfg.nodes) :
    ((t.node i).state = .multicast ∧ (t'.node i).state = .recovery) ↔ e.isLeave i = true := by
  constructor
  · rintro ⟨hm, hr⟩
    obtain rfl : i = e.node := by
      by_contra hne
      rw [h.frame i hne, hm] at hr
      cases hr
    obtain ⟨he, -⟩ := h.leaving hm fun hm' => by rw [hr] at hm'; cases hm'
    generalize e.node = i at he
    subst he
    exact decide_eq_true rfl
  · intro he
    obtain rfl : e = .leave i := by
      cases e with
      | leave j => exact congrArg _ (of_decide_eq_true he)
      | request | requestAck | block | blockAck => cases he
    have hm : (t.node i).state = .multicast := by
      by_contra hne
      exact (h.gone hne).1 i rfl
    have hm' : (t'.node i).state ≠ .multicast := fun hm' => (h.multicast hm').2 i rfl
    exact ⟨hm, (h.leaving hm hm').2.1⟩

/-- A node that does not leave stays in the multicast phase or outside. -/
theorem Acts.multicast_iff (h : Acts cfg t e t') (i : Fin cfg.nodes)
    (hno : ¬((t.node i).state = .multicast ∧ (t'.node i).state = .recovery)) :
    (t'.node i).state = .multicast ↔ (t.node i).state = .multicast := by
  by_cases hk : i = e.node
  · subst hk
    refine ⟨fun hm => (h.multicast hm).1, fun hm => ?_⟩
    by_contra hne
    exact hno ⟨hm, (h.leaving hm hne).2.1⟩
  · rw [h.frame i hk]

theorem Acts.finished_iff (h : Acts cfg t e t') (i : Fin cfg.nodes)
    (hno : ¬((t.node i).state ≠ .finished ∧ (t'.node i).state = .finished)) :
    (t'.node i).state = .finished ↔ (t.node i).state = .finished := by
  by_cases hk : i = e.node
  · subst hk
    refine ⟨fun hf => ?_, h.finished⟩
    by_contra hne
    exact hno ⟨hne, hf⟩
  · rw [h.frame i hk]

/-- What a node is missing, after a step. -/
theorem Log.toRecover_step (hlog : Log cfg recv tr t) (h : Acts cfg t e t') (i : Fin cfg.nodes)
    (hne : (t'.node i).state ≠ .multicast) (b : Nat) : b ∈ (t'.node i).toRecover.keys ↔
      b ∈ missed cfg recv i ∧ b ∉ recovered i (tr ++ [⟨t, e, t'⟩]) := by
  rw [recovered_snoc]
  by_cases hk : i = e.node
  · subst hk
    rw [if_pos rfl]
    by_cases hm : (t.node e.node).state = .multicast
    · obtain ⟨hrecv, hblock, hnil⟩ := hlog.fresh _ hm
      have hrec : receives t e = [] := by
        by_contra hrec
        rw [h.receiving hrec] at hm
        cases hm
      rw [hnil, hrec, (h.leaving hm hne).2.2, hrecv, hblock, missed]
      simp
    · rw [(h.gone hm).2 b, hlog.toRecover _ hm b, List.mem_append, not_or, and_assoc]
  · rw [h.frame i hk] at hne ⊢
    rw [if_neg (Ne.symm hk), List.append_nil]
    exact hlog.toRecover i hne b

theorem Log.apps_step (hlog : Log cfg recv tr t) (h : Acts cfg t e t') :
    t'.shared.completedApps = ∑ i, if (t'.node i).state = .finished then 1 else 0 := by
  have hframe : ∀ k, k ≠ e.node → (if (t'.node k).state = .finished then 1 else 0) =
      if (t.node k).state = .finished then 1 else 0 := fun k hk => by rw [h.frame k hk]
  have hsum := sum_of_frame e.node hframe
  have hold := hlog.apps
  have hnew := h.counted.apps
  by_cases hf : (t.node e.node).state ≠ .finished ∧ (t'.node e.node).state = .finished
  · rw [if_pos hf] at hnew
    rw [if_neg hf.1, if_pos hf.2] at hsum
    omega
  · rw [if_neg hf] at hnew
    simp only [h.finished_iff e.node hf] at hsum
    omega

/-- **The step lemma.** -/
theorem Log.step (hlog : Log cfg recv tr t) (hst : Step cfg t e t') :
    Log cfg recv (tr ++ [⟨t, e, t'⟩]) t' := by
  have h := hst.acts
  have happs := hlog.apps_step h
  constructor
  case fresh =>
    intro i hi
    rw [recovered_snoc]
    by_cases hk : i = e.node
    · subst hk
      obtain ⟨hm, -⟩ := h.multicast hi
      obtain ⟨hrecv, hblock, hnil⟩ := hlog.fresh _ hm
      refine ⟨(h.recv hi).trans hrecv, h.block.trans hblock, ?_⟩
      rw [hnil, if_pos rfl, List.nil_append]
      by_contra hrec
      rw [h.receiving hrec] at hm
      cases hm
    · rw [h.frame i hk] at hi ⊢
      rw [if_neg (Ne.symm hk), List.append_nil]
      exact hlog.fresh i hi
  case leaves =>
    intro i
    rw [leaveCount_snoc, hlog.leaves]
    by_cases hl : (t.node i).state = .multicast ∧ (t'.node i).state = .recovery
    · rw [if_pos hl, if_pos hl.1, if_neg (by rw [hl.2]; exact fun h => nomatch h)]
    · simp only [if_neg hl, h.multicast_iff i hl, Nat.add_zero]
  case requests =>
    intro i
    have hlen := hst.request_length i
    have hold := hlog.requests i
    simp only [requestCount_snoc, leaveCount_snoc, h.leaves_iff i]
    omega
  case recSent =>
    intro i
    rw [posted_snoc]
    by_cases hk : i = e.node
    · subst hk
      rw [h.recSent, hlog.recSent, if_pos rfl, List.map_append]
    · rw [h.frame i hk, hlog.recSent, if_neg (Ne.symm hk), List.append_nil]
  case nodup =>
    intro i
    by_cases hk : i = e.node
    · subst hk
      rw [h.recSent]
      refine List.nodup_append.mpr ⟨hlog.nodup _, h.nodup, ?_⟩
      rintro b hb _ hb' rfl
      exact (h.posted b hb').2.1 hb
    · rw [h.frame i hk]
      exact hlog.nodup i
  case toRecover => exact hlog.toRecover_step h
  case finishes =>
    intro i
    rw [finishCount_snoc, hlog.finishes]
    by_cases hf : (t.node i).state ≠ .finished ∧ (t'.node i).state = .finished
    · rw [if_pos hf, if_neg hf.1, if_pos hf.2]
    · rw [if_neg hf, Nat.add_zero]
      simp only [h.finished_iff i hf]
  case apps => exact happs
  case calls =>
    have hpos : 0 < cfg.nodes := e.node.pos
    have hold := hlog.calls
    have hnew := h.counted.calls
    have hcount := h.counted.apps
    have hle := sum_ite_le_card fun i => (t'.node i).state = .finished
    rw [← happs, Fintype.card_fin] at hle
    by_cases hf : (t.node e.node).state ≠ .finished ∧ (t'.node e.node).state = .finished
    · rw [if_pos hf] at hcount
      rw [if_neg (by omega)] at hold
      rw [hnew, hold, Nat.zero_add]
      simp only [hf, hpos, true_and, ne_eq, not_false_eq_true]
    · rw [if_neg hf, Nat.add_zero] at hcount
      rw [if_neg fun h => hf h.1, Nat.add_zero] at hnew
      rw [hnew, hold, hcount]

/-- **The run lemma.** -/
theorem recovery_log (h : (recovery cfg recv).Trace (initial recv) tr t) : Log cfg recv tr t :=
  h.invariant initial_log fun _ hlog hst => hlog.step hst

end Step

/-! ## Finished nodes -/

/-- A finished node has recovered all blocks, and so has its right neighbour. -/
theorem recovered_of_finished (hn : 2 ≤ cfg.nodes) {recv : Fin cfg.nodes → List Bool}
    {t : AgRing cfg.nodes} (h : (recovery cfg recv).Reachable t) {i : Fin cfg.nodes}
    (hfin : (t.node i).state = .finished) : (t.node i).toRecover.keys = [] ∧
      (t.node (right i)).state ≠ .multicast ∧ (t.node (right i)).toRecover.keys = [] := by
  have hi := recovery_inv hn h
  obtain ⟨hrec, hall⟩ := (hi.node i).finished hfin
  have hleft := hi.link (left i)
  rw [right_left] at hleft
  refine ⟨hleft.recovered hrec, fun hm => ?_, (hi.link i).sentAll hall⟩
  have hno := ((hi.link i).unasked ((hi.link i).multicast hm).2.2.2.1).2.1
  rw [hall] at hno
  cases hno

/-- A node that is alone misses nothing. -/
theorem Log.recovered_of_alone {recv : Fin cfg.nodes → List Bool}
    (hlen : ∀ i, (recv i).length = cfg.getTotalChunkCount) {tr : History cfg.nodes}
    {t : AgRing cfg.nodes} (hlog : Log cfg recv tr t) (hn : cfg.nodes = 1) (i : Fin cfg.nodes)
    (hne : (t.node i).state ≠ .multicast) : (t.node i).toRecover.keys = [] := by
  refine List.eq_nil_iff_forall_not_mem.mpr fun b hb => ?_
  obtain ⟨hlt, hown⟩ := mem_missed (hlen i) ((hlog.toRecover i hne b).mp hb).1
  have hi := i.isLt
  omega

theorem right_eq_self {n : Nat} (hn : n = 1) (i : Fin n) : right i = i := by
  have hi := i.isLt
  refine Fin.ext ?_
  rw [right_val]
  split <;> omega

/-- What a run of the recovery does and does not do, for its history `tr` and its last state
`t`. -/
structure Safe (cfg : AgConfig) (recv : Fin cfg.nodes → List Bool) (tr : History cfg.nodes)
    (t : AgRing cfg.nodes) : Prop where
  leaves : ∀ i, leaveCount i tr = if (t.node i).state = .multicast then 0 else 1
  final : (∀ e t', ¬Step cfg t e t') → ∀ i, leaveCount i tr = 1
  requests : ∀ i, (t.request i).length + requestCount i tr = leaveCount i tr
  posted_once : ∀ i, ((posted cfg i tr).map (·.block)).Nodup
  posted_own : ∀ st ∈ tr, ∀ b ∈ posts cfg st.source st.event,
    (st.source.node st.event.node).state = .recovery ∧
      b.block ∉ (st.target.node st.event.node).toRecover.keys
  missing : ∀ i, (t.node i).state ≠ .multicast → ∀ b,
    b ∈ (t.node i).toRecover.keys ↔ b ∈ missed cfg recv i ∧ b ∉ recovered i tr
  finishes : ∀ i, finishCount i tr = if (t.node i).state = .finished then 1 else 0
  finishing : ∀ st ∈ tr, ∀ i, (st.source.node i).state ≠ .finished →
    (st.target.node i).state = .finished → (st.target.node i).toRecover.keys = [] ∧
      (st.target.node (right i)).state ≠ .multicast ∧
      (st.target.node (right i)).toRecover.keys = []
  finish_once : t.shared.finishCalls ≤ 1
  finish : t.shared.finishCalls = 1 → ∀ i, (t.node i).state = .finished ∧
    (t.node i).toRecover.keys = [] ∧ ∀ b ∈ missed cfg recv i, b ∈ recovered i tr

/-- **The recovery is safe**, whatever the multicast phase has left and in whatever order the
events come. -/
theorem recovery_safe {cfg : AgConfig} {recv : Fin cfg.nodes → cfg.Bitmap}
    {tr : History cfg.nodes} {t : AgRing cfg.nodes}
    (h : (recovery cfg fun i => (recv i).toList).Trace (initial fun i => (recv i).toList) tr t) :
    Safe cfg (fun i => (recv i).toList) tr t := by
  have hlog := recovery_log h
  have hfin : ∀ {tr t}, (recovery cfg fun i => (recv i).toList).Trace
      (initial fun i => (recv i).toList) tr t → ∀ i, (t.node i).state = .finished →
      (t.node i).toRecover.keys = [] ∧ (t.node (right i)).state ≠ .multicast ∧
        (t.node (right i)).toRecover.keys = [] := by
    intro tr t h i hfin
    rcases Nat.lt_or_ge cfg.nodes 2 with hlt | hn
    · have hne : (t.node i).state ≠ .multicast := fun hm => by rw [hfin] at hm; cases hm
      have hone : cfg.nodes = 1 := by
        have := i.pos
        omega
      have hT := (recovery_log h).recovered_of_alone (fun i => (recv i).length_toList) hone i hne
      rw [right_eq_self hone]
      exact ⟨hT, hne, hT⟩
    · exact recovered_of_finished hn (h.reachable rfl) hfin
  constructor
  case leaves => exact hlog.leaves
  case final =>
    intro hover i
    rw [hlog.leaves, if_neg]
    exact fun hm => hover _ _ (.leave (if_pos hm))
  case requests => exact hlog.requests
  case posted_once => exact fun i => hlog.recSent i ▸ hlog.nodup i
  case posted_own =>
    refine h.forall_mem fun _ hst b hb => ?_
    obtain ⟨hrec, -, hown⟩ := hst.acts.posted b.block (List.mem_map_of_mem hb)
    exact ⟨hrec, hown⟩
  case missing => exact hlog.toRecover
  case finishes => exact hlog.finishes
  case finishing => exact h.forall_mem fun htr hst i _ => hfin (.snoc htr hst) i
  case finish_once =>
    rw [hlog.calls]
    split <;> omega
  case finish =>
    intro hcalls i
    rw [hlog.calls] at hcalls
    split at hcalls
    next hall =>
      have hsum : ∑ i, (if (t.node i).state = .finished then 1 else 0) =
          Fintype.card (Fin cfg.nodes) := by
        rw [← hlog.apps, Fintype.card_fin, hall.2]
      have hi := sum_ite_eq_card hsum i
      have hT := (hfin h i hi).1
      refine ⟨hi, hT, fun b hb => ?_⟩
      by_contra hno
      have hmem := (hlog.toRecover i (by rw [hi]; exact fun h => nomatch h) b).mpr ⟨hb, hno⟩
      rw [hT] at hmem
      cases hmem
    next => cases hcalls

/-- The first of two nodes misses the block of the second. -/
def pairRecv : Fin 2 → AgConfig.Bitmap ⟨2, 1, 30000, 1, 0⟩
  | 0 => #v[true, false]
  | 1 => #v[true, true]

/-- Both nodes leave, and the second sends its block to the first. -/
theorem pair_safe : ∃ tr t,
    (recovery ⟨2, 1, 30000, 1, 0⟩ fun i => (pairRecv i).toList).Trace
      (initial fun i => (pairRecv i).toList) tr t ∧
    recovered 0 tr = [1] ∧ Safe ⟨2, 1, 30000, 1, 0⟩ (fun i => (pairRecv i).toList) tr t := by
  obtain ⟨tr, t, h, hrec⟩ : ∃ tr t,
      (recovery ⟨2, 1, 30000, 1, 0⟩ fun i => (pairRecv i).toList).Trace
        (initial fun i => (pairRecv i).toList) tr t ∧ recovered 0 tr = [1] :=
    ⟨_, _, .snoc (.snoc (.snoc (.snoc .nil (.leave (i := 0) rfl)) (.leave (i := 1) rfl))
      (.request (i := 1) rfl rfl)) (.block (i := 0) rfl rfl), rfl⟩
  exact ⟨tr, t, h, hrec, recovery_safe h⟩

end AgRing
end Roce
