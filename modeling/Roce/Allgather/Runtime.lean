import Roce.Allgather.Config

/-! # `AgRuntime`: the recovery phase of one node

The functions of `ag-runtime.cc` that take a node from the multicast phase to the end, and the
counters of `AgShared` they update. A node reads the missing blocks of its right neighbour
directly (`GetRightRuntime`), so these are an argument. A failed assertion returns `none`.

`m_recv` is what the multicast phase has left: `NotifyReceivePacket` and the chains are not part of
this module. Node ids and block ids are the same numbers. -/

namespace Roce

inductive AgState where
  | multicast
  | recovery
  | finished
  deriving DecidableEq, Repr

/-- The counters of `AgShared`. `finishCalls` counts the calls of `OnAllFinished`. -/
structure AgShared where
  completedApps : Nat := 0
  completedMcasts : Nat := 0
  missedDataChunksTot : Nat := 0
  missedChunksTot : Nat := 0
  retrChunksTot : Nat := 0
  finishCalls : Nat := 0
  deriving DecidableEq, Repr

/-- `AgShared::RegisterStateTransition`. -/
def AgShared.registerStateTransition (cfg : AgConfig) (sh : AgShared) : AgState → AgShared
  | .finished =>
    let sh := { sh with completedApps := sh.completedApps + 1 }
    if sh.completedApps = cfg.getBlockCount then { sh with finishCalls := sh.finishCalls + 1 }
    else sh
  | .recovery => { sh with completedMcasts := sh.completedMcasts + 1 }
  | .multicast => sh

/-- A recovered block on its way to the right neighbour: the immediate value and the payload. -/
structure Transfer where
  block : Nat
  payloadSize : Nat
  deriving DecidableEq, Repr

/-- The recovery request posted to the left neighbour. Its `on_send` is set when no block has to
be recovered. -/
structure RecoverRequest where
  onSend : Bool
  deriving DecidableEq, Repr

/-- The members of `AgRuntime` that the recovery reads. -/
structure AgRuntime where
  block : Nat
  state : AgState := .multicast
  recv : List Bool
  recSent : List Nat := []
  toRecover : OrdMap Nat Nat := .empty
  hasRecoveredAll : Bool := false
  hasRecvRecoverReq : Bool := false
  recSentAll : Bool := false
  deriving DecidableEq

namespace AgRuntime

/-- What a function of the runtime leaves: the node, the counters, the transfers it posted. -/
abbrev Result := AgRuntime × AgShared × List Transfer

/-- The bitmap after the chunks of the node's own block are marked. -/
def markOwn (cfg : AgConfig) (block : Nat) (recv : List Bool) : List Bool :=
  (List.range cfg.getPerBlockChunkCount).foldl
    (fun recv i => recv.set (block * cfg.getPerBlockChunkCount + i) true) recv

theorem getD_foldl_set {l : List Nat} {recv : List Bool} (hc : c < recv.length)
    (h : recv.getD c false = true ∨ ∃ i ∈ l, c = o + i) :
    (l.foldl (fun recv i => recv.set (o + i) true) recv).getD c false = true := by
  induction l generalizing recv with
  | nil => exact h.resolve_right (by simp)
  | cons i l ih =>
    refine ih (by simpa using hc) ?_
    show (recv.set (o + i) true).getD c false = true ∨ _
    rw [List.getD_eq_getElem?_getD, List.getElem?_set]
    by_cases heq : o + i = c
    · rw [if_pos heq, if_pos (heq ▸ hc)]
      exact .inl rfl
    · rw [if_neg heq, ← List.getD_eq_getElem?_getD]
      rcases h with h | ⟨j, hj, hcj⟩
      · exact .inl h
      · rcases List.mem_cons.mp hj with rfl | hj
        · exact absurd hcj.symm heq
        · exact .inr ⟨j, hj, hcj⟩

/-- The chunks of the node's own block are marked. -/
theorem markOwn_own {cfg : AgConfig} {recv : List Bool} {block : Nat} (hc : c < recv.length)
    (hown : cfg.getOriginalSender c = block) (hpos : 0 < cfg.getPerBlockChunkCount) :
    (markOwn cfg block recv).getD c false = true := by
  refine getD_foldl_set hc (.inr ⟨c % cfg.getPerBlockChunkCount, ?_, ?_⟩)
  · exact List.mem_range.mpr (Nat.mod_lt _ hpos)
  · rw [← hown, AgConfig.getOriginalSender, Nat.mul_comm, Nat.div_add_mod]

/-- `RegisterMissedChunks`. -/
def registerMissedChunks (cfg : AgConfig) (rt : AgRuntime) (sh : AgShared) : AgShared :=
  { sh with
    missedChunksTot := sh.missedChunksTot +
      ((List.range cfg.getTotalChunkCount).filter fun c => !rt.recv.getD c false).length
    missedDataChunksTot := sh.missedDataChunksTot + rt.toRecover.values.sum }

/-- `TransitionToRecovery`. -/
def transitionToRecovery (cfg : AgConfig) (rt : AgRuntime) (sh : AgShared) :
    Option (AgRuntime × AgShared) :=
  if rt.state = .multicast then
    let recv := markOwn cfg rt.block rt.recv
    let rt := { rt with recv, state := .recovery, toRecover := cfg.buildToRecover recv }
    some (rt, rt.registerMissedChunks cfg (sh.registerStateTransition cfg .recovery))
  else none

theorem transitionToRecovery_cases {cfg : AgConfig} {rt rt' : AgRuntime} {sh sh' : AgShared}
    (h : rt.transitionToRecovery cfg sh = some (rt', sh')) : rt.state = .multicast ∧
      rt' = { rt with
        recv := markOwn cfg rt.block rt.recv
        state := .recovery
        toRecover := cfg.buildToRecover (markOwn cfg rt.block rt.recv) } ∧
      sh' = rt'.registerMissedChunks cfg (sh.registerStateTransition cfg .recovery) := by
  unfold transitionToRecovery at h
  split at h
  next hm =>
    cases h
    exact ⟨hm, rfl, rfl⟩
  next => cases h

/-- `HasAllChunks`. -/
def hasAllChunks (rt : AgRuntime) : Bool := rt.state ≠ .multicast && rt.toRecover.size = 0

/-- One turn of the loop of `TryUpdateState` over the blocks that the right node misses. -/
def sendBlock (cfg : AgConfig) (acc : AgRuntime × List Transfer) (e : Nat × Nat) :
    AgRuntime × List Transfer :=
  if acc.1.recSent.contains e.1 then acc
  else if acc.1.toRecover.contains e.1 then acc
  else
    ({ acc.1 with recSent := acc.1.recSent ++ [e.1] },
      acc.2 ++ [⟨e.1, e.2 * cfg.getChunkByteSize⟩])

/-- `TryUpdateState`. -/
def tryUpdateState (cfg : AgConfig) (right : OrdMap Nat Nat) (rt : AgRuntime) (sh : AgShared) :
    Result :=
  if rt.state ≠ .recovery then (rt, sh, [])
  else
    let (rt, posted) :=
      if rt.hasRecvRecoverReq && !rt.recSentAll then right.entries.foldl (sendBlock cfg) (rt, [])
      else (rt, [])
    if rt.hasRecoveredAll && rt.recSentAll && rt.state ≠ .finished then
      ({ rt with state := .finished }, sh.registerStateTransition cfg .finished, posted)
    else (rt, sh, posted)

/-- `NotifyRecvRecoveryRequest`. -/
def notifyRecvRecoveryRequest (cfg : AgConfig) (rt right : AgRuntime) (sh : AgShared) :
    Option Result :=
  if right.state = .recovery then
    let rt := { rt with hasRecvRecoverReq := true }
    let rt := if right.toRecover.size = 0 then { rt with recSentAll := true } else rt
    some (tryUpdateState cfg right.toRecover rt sh)
  else none

/-- `NotifyRecovery`. The block `numeric_limits<block_id_t>::max()`, passed to trigger the side
effects only, is `none`. -/
def notifyRecovery (cfg : AgConfig) (right : OrdMap Nat Nat) (block : Option Nat)
    (rt : AgRuntime) (sh : AgShared) : Option Result :=
  if rt.state = .recovery then
    let (rt, sh) := match block with
      | some block => ({ rt with toRecover := rt.toRecover.erase block },
          { sh with retrChunksTot := sh.retrChunksTot + 1 })
      | none => (rt, sh)
    let rt := if rt.toRecover.isEmpty then { rt with hasRecoveredAll := true } else rt
    some (tryUpdateState cfg right rt sh)
  else none

/-- The `on_send` of a transfer. -/
def onTransferSent (cfg : AgConfig) (right : OrdMap Nat Nat) (rt : AgRuntime) (sh : AgShared) :
    Result :=
  let rt := if right.isEmpty then { rt with recSentAll := true } else rt
  tryUpdateState cfg right rt sh

/-- `AgApp::StartRecoveryPhase`: the request for the left neighbour. -/
def startRecoveryPhase (rt : AgRuntime) : RecoverRequest := ⟨rt.hasAllChunks⟩

/-- The `on_send` of the recovery request. -/
def onRequestSent (cfg : AgConfig) (right : OrdMap Nat Nat) (rt : AgRuntime) (sh : AgShared) :
    Option Result := do
  let (rt, sh, posted) ← notifyRecovery cfg right none rt sh
  let (rt, sh, posted') := tryUpdateState cfg right rt sh
  return (rt, sh, posted ++ posted')

/-! ## `TryUpdateState` -/

/-- A block that the right node misses, that this node has and that it did not send before. -/
def canSend (rt : AgRuntime) (block : Nat) : Bool :=
  !rt.recSent.contains block && !rt.toRecover.contains block

theorem canSend_iff {rt : AgRuntime} :
    rt.canSend b = true ↔ b ∉ rt.recSent ∧ b ∉ rt.toRecover.keys := by
  simp [canSend, ← OrdMap.contains_iff]

theorem sendBlock_eq (cfg : AgConfig) (rt : AgRuntime) (posted : List Transfer) (e : Nat × Nat) :
    sendBlock cfg (rt, posted) e =
      if rt.canSend e.1 then
        ({ rt with recSent := rt.recSent ++ [e.1] },
          posted ++ [⟨e.1, e.2 * cfg.getChunkByteSize⟩])
      else (rt, posted) := by
  unfold sendBlock canSend
  cases rt.recSent.contains e.1 <;> cases rt.toRecover.contains e.1 <;> rfl

/-- The loop sends every block that can be sent. -/
theorem foldl_sendBlock (cfg : AgConfig) (l : List (Nat × Nat)) (hl : (l.map (·.1)).Nodup)
    (rt : AgRuntime) (posted : List Transfer) :
    l.foldl (sendBlock cfg) (rt, posted) =
      ({ rt with recSent := rt.recSent ++ (l.filter fun e => rt.canSend e.1).map (·.1) },
        posted ++ (l.filter fun e => rt.canSend e.1).map
          fun e => ⟨e.1, e.2 * cfg.getChunkByteSize⟩) := by
  induction l generalizing rt posted with
  | nil => simp
  | cons e l ih =>
    obtain ⟨hnot, hnodup⟩ := List.nodup_cons.mp hl
    rw [List.foldl_cons, sendBlock_eq]
    split
    next hcan =>
      -- the block that was just sent does not come up again
      have hrest : (l.filter fun x =>
          { rt with recSent := rt.recSent ++ [e.1] }.canSend x.1) =
          l.filter fun x => rt.canSend x.1 := by
        refine List.filter_congr fun x hx => ?_
        have hne : x.1 ≠ e.1 := fun heq => hnot (List.mem_map.mpr ⟨x, hx, heq⟩)
        simp [canSend, hne]
      rw [ih hnodup, hrest]
      simp only [List.filter_cons, hcan, ↓reduceIte, List.map_cons, List.append_assoc,
        List.singleton_append]
    next hcan => rw [ih hnodup, List.filter_cons, if_neg hcan]

/-- The blocks that `TryUpdateState` posts. -/
def posting (cfg : AgConfig) (right : OrdMap Nat Nat) (rt : AgRuntime) : List Transfer :=
  if rt.hasRecvRecoverReq && !rt.recSentAll then
    (right.entries.filter fun e => rt.canSend e.1).map fun e => ⟨e.1, e.2 * cfg.getChunkByteSize⟩
  else []

/-- **`TryUpdateState`** in the recovery phase: it posts the blocks it can send, and finishes the
node if nothing is left to do. -/
theorem tryUpdateState_eq (cfg : AgConfig) (right : OrdMap Nat Nat) {rt : AgRuntime}
    (sh : AgShared) (h : rt.state = .recovery) :
    ∃ sh', tryUpdateState cfg right rt sh =
      ({ rt with
        recSent := rt.recSent ++ (rt.posting cfg right).map (·.block)
        state := if rt.hasRecoveredAll && rt.recSentAll then .finished else .recovery },
        sh', rt.posting cfg right) := by
  have hfinish : ∀ (rt : AgRuntime) (posted : List Transfer), rt.state = .recovery →
      ∃ sh', (if rt.hasRecoveredAll && rt.recSentAll && rt.state ≠ .finished then
          ({ rt with state := .finished }, sh.registerStateTransition cfg .finished, posted)
        else (rt, sh, posted)) =
        ({ rt with
          state := if rt.hasRecoveredAll && rt.recSentAll then .finished else .recovery },
          sh', posted) := by
    intro rt posted h
    cases hdone : rt.hasRecoveredAll && rt.recSentAll
    · exact ⟨sh, by simp [← h]⟩
    · exact ⟨_, by simp [h]; rfl⟩
  unfold tryUpdateState
  rw [if_neg (not_not.mpr h)]
  cases hgate : rt.hasRecvRecoverReq && !rt.recSentAll
  · obtain ⟨sh', hsh⟩ := hfinish rt [] h
    refine ⟨sh', ?_⟩
    simp only [posting, hgate, Bool.false_eq_true, ↓reduceIte, List.map_nil, List.append_nil]
    exact hsh
  · simp only [↓reduceIte]
    rw [foldl_sendBlock cfg _ right.nodup_keys]
    obtain ⟨sh', hsh⟩ := hfinish
      { rt with recSent := rt.recSent ++
          (right.entries.filter fun e => rt.canSend e.1).map (·.1) }
      ((right.entries.filter fun e => rt.canSend e.1).map
        fun e => ⟨e.1, e.2 * cfg.getChunkByteSize⟩) h
    refine ⟨sh', ?_⟩
    simp only [posting, hgate, ↓reduceIte, List.map_map]
    exact hsh

theorem posting_blocks (cfg : AgConfig) (right : OrdMap Nat Nat) (rt : AgRuntime) :
    (rt.posting cfg right).map (·.block) =
      if rt.hasRecvRecoverReq && !rt.recSentAll then right.keys.filter rt.canSend else [] := by
  unfold posting
  split
  · rw [List.map_map, OrdMap.keys, List.filter_map]
    rfl
  · rfl

theorem posting_nodup (cfg : AgConfig) (right : OrdMap Nat Nat) (rt : AgRuntime) :
    ((rt.posting cfg right).map (·.block)).Nodup := by
  rw [posting_blocks]
  split
  · exact right.nodup_keys.filter _
  · exact List.nodup_nil

theorem mem_posting {cfg : AgConfig} {right : OrdMap Nat Nat} {rt : AgRuntime} :
    b ∈ (rt.posting cfg right).map (·.block) ↔
      rt.hasRecvRecoverReq ∧ rt.recSentAll = false ∧ b ∈ right.keys ∧ b ∉ rt.recSent ∧
        b ∉ rt.toRecover.keys := by
  rw [posting_blocks]
  cases rt.hasRecvRecoverReq <;> cases rt.recSentAll <;>
    simp [List.mem_filter, canSend_iff]

/-! ## The notifications -/

theorem notifyRecvRecoveryRequest_eq {cfg : AgConfig} {rt right : AgRuntime} {sh : AgShared} :
    rt.notifyRecvRecoveryRequest cfg right sh =
      if right.state = .recovery then some (tryUpdateState cfg right.toRecover
        { rt with
          hasRecvRecoverReq := true
          recSentAll := rt.recSentAll || right.toRecover.isEmpty } sh)
      else none := by
  unfold notifyRecvRecoveryRequest
  cases hempty : right.toRecover.isEmpty
  · have hne : right.toRecover.size ≠ 0 := fun h0 => by
      rw [OrdMap.isEmpty_iff.mpr (OrdMap.size_eq_zero_iff.mp h0)] at hempty
      cases hempty
    simp [hne]
  · have h0 := OrdMap.size_eq_zero_iff.mpr (OrdMap.isEmpty_iff.mp hempty)
    simp [h0]

/-- The node as `NotifyRecovery` hands it to `TryUpdateState`, once the block is erased. -/
def checkRecovered (rt : AgRuntime) : AgRuntime :=
  { rt with hasRecoveredAll := rt.hasRecoveredAll || rt.toRecover.isEmpty }

theorem checkRecovered_eq (rt : AgRuntime) :
    (if rt.toRecover.isEmpty then { rt with hasRecoveredAll := true } else rt) =
      rt.checkRecovered := by
  unfold checkRecovered
  cases rt.toRecover.isEmpty <;> simp

theorem notifyRecovery_block {cfg : AgConfig} {right : OrdMap Nat Nat} {rt : AgRuntime}
    {sh : AgShared} :
    notifyRecovery cfg right (some b) rt sh =
      if rt.state = .recovery then some (tryUpdateState cfg right
        { rt with toRecover := rt.toRecover.erase b }.checkRecovered
        { sh with retrChunksTot := sh.retrChunksTot + 1 })
      else none := by
  rw [← checkRecovered_eq]
  rfl

theorem notifyRecovery_none {cfg : AgConfig} {right : OrdMap Nat Nat} {rt : AgRuntime}
    {sh : AgShared} :
    notifyRecovery cfg right none rt sh =
      if rt.state = .recovery then some (tryUpdateState cfg right rt.checkRecovered sh)
      else none := by
  rw [← checkRecovered_eq]
  rfl

theorem onTransferSent_eq {cfg : AgConfig} {right : OrdMap Nat Nat} {rt : AgRuntime}
    {sh : AgShared} :
    onTransferSent cfg right rt sh =
      tryUpdateState cfg right { rt with recSentAll := rt.recSentAll || right.isEmpty } sh := by
  unfold onTransferSent
  cases right.isEmpty <;> simp

end AgRuntime
end Roce
