import Roce.Allgather.LossFree

/-! # The last chunks of the chains

A chain is complete when its marked chunk is received, the last one of its last node. The order of
the chains looks for the first node of a chain before it looks for the last one, so a chain of a
single node has no marked chunk. -/

namespace Roce
namespace AgApps

/-- What a chunk changes whose packets have all been received. -/
abbrev ChunkState := AgRuntime × McastProgress × AgShared

/-- The part of `NotifyReceivePacket` about a chunk that is complete. -/
def receiveChunk (cfg : McastConfig) (x : ChunkState) (chunk : Nat) : Option ChunkState :=
  if x.1.state ≠ .multicast then some x
  else do
    let (rt, newChunk) ← x.1.markChunkAsReceived chunk
    rt.completeChunk cfg x.2.1 x.2.2 chunk newChunk

/-- A node that has not received anything. -/
def freshNode (cfg : McastConfig) (block : Nat) : ChunkState :=
  ({ block, recv := List.replicate cfg.getTotalChunkCount false }, {}, {})

/-- The block before the first one of the next chain, where the first chain is after the last. -/
def chainEnd (cfg : McastConfig) (k : Nat) : Nat :=
  (cfg.chainStart ((k + 1) % cfg.roots) + cfg.nodes - 1) % cfg.nodes

/-- Each chain has one marked chunk, its last one, and a node that receives all chunks completes all
chains. -/
structure OneMarkerPerChain (cfg : McastConfig) : Prop where
  markers : (Finset.range cfg.getTotalChunkCount).filter (cfg.isLastChunkOfChain ·) =
    (Finset.range cfg.roots).image fun k => lastChunk cfg (chainEnd cfg k)
  count : ((Finset.range cfg.getTotalChunkCount).filter (cfg.isLastChunkOfChain ·)).card = cfg.roots
  completes : ∀ (block : Nat) (chunks : List Nat), chunks.Perm (List.range cfg.getTotalChunkCount) →
    ∃ x, chunks.foldlM (receiveChunk cfg) (freshNode cfg block) = some x ∧
      x.2.1.completedChains = cfg.roots

variable {cfg : McastConfig}

/-! ## The marked chunks -/

theorem filter_isLastChunkOfChain : (Finset.range cfg.getTotalChunkCount).filter
    (cfg.isLastChunkOfChain ·) = chainEnds cfg fun _ => True := by
  simp [chainEnds]

section
variable (hr : 1 ≤ cfg.roots) (hrn : cfg.roots ≤ cfg.nodes)
include hr hrn

theorem chainEnd_eq (hk : k < cfg.roots) : chainEnd cfg k = cfg.chainStart (k + 1) - 1 := by
  have hmono := McastConfig.chainStart_strictMono hr hrn
  have hstart : 0 < cfg.chainStart (k + 1) := by
    have := hmono k.succ_pos
    rwa [McastConfig.chainStart_zero] at this
  have hle : cfg.chainStart (k + 1) ≤ cfg.nodes := by
    rw [← McastConfig.chainStart_roots hr]
    exact hmono.monotone hk
  rw [chainEnd]
  by_cases hlt : k + 1 < cfg.roots
  · have hsum : cfg.chainStart (k + 1) + cfg.nodes - 1 =
      cfg.chainStart (k + 1) - 1 + cfg.nodes := by
      omega
    rw [Nat.mod_eq_of_lt hlt, hsum, Nat.add_mod_right, Nat.mod_eq_of_lt (by omega)]
  · have heq : k + 1 = cfg.roots := by omega
    rw [heq, Nat.mod_self, McastConfig.chainStart_zero, Nat.zero_add,
      McastConfig.chainStart_roots hr, Nat.mod_eq_of_lt (by omega)]

/-- With two nodes for each root, the last nodes are those before the next chain. -/
theorem lastBlocks_eq_image (hwide : 2 * cfg.roots ≤ cfg.nodes) :
    cfg.lastBlocks = (Finset.range cfg.roots).image (chainEnd cfg) := by
  rw [McastConfig.lastBlocks_eq hr hrn,
    Finset.filter_true_of_mem fun k _ => McastConfig.chainStart_add_le hr hwide k]
  exact Finset.image_congr fun k hk => (chainEnd_eq hr hrn (Finset.mem_range.mp hk)).symm

theorem markers_eq (hC : 0 < cfg.getPerBlockChunkCount) (hwide : 2 * cfg.roots ≤ cfg.nodes) :
    (Finset.range cfg.getTotalChunkCount).filter (cfg.isLastChunkOfChain ·) =
      (Finset.range cfg.roots).image fun k => lastChunk cfg (chainEnd cfg k) := by
  rw [filter_isLastChunkOfChain, chainEnds_eq_image hC, Finset.filter_true,
    lastBlocks_eq_image hr hrn hwide, Finset.image_image]
  rfl

theorem card_markers_eq_iff (hC : 0 < cfg.getPerBlockChunkCount) :
    ((Finset.range cfg.getTotalChunkCount).filter (cfg.isLastChunkOfChain ·)).card = cfg.roots ↔
      2 * cfg.roots ≤ cfg.nodes := by
  rw [filter_isLastChunkOfChain, card_chainEnds hC, Finset.filter_true]
  exact McastConfig.card_lastBlocks_eq_iff hr hrn

end

/-! ## A node that receives all chunks -/

/-- After the chunks `l` the node has counted the marked ones, or it has left the phase. -/
inductive Completed (cfg : McastConfig) (l : List Nat) (x : ChunkState) : Prop
  | multicast : x.1.state = .multicast → x.1.recv.length = cfg.getTotalChunkCount →
    (∀ c, x.1.recv.getD c false = true → c ∈ l) →
    x.2.1.completedChains = l.countP (cfg.isLastChunkOfChain ·) →
    x.2.1.completedChains < cfg.roots → Completed cfg l x
  | left : x.1.state ≠ .multicast → x.2.1.completedChains = cfg.roots → Completed cfg l x

theorem Completed.receiveChunk {l : List Nat} {x : ChunkState} (h : Completed cfg l x)
    (hc : c < cfg.getTotalChunkCount) (hnew : c ∉ l) :
    ∃ y, receiveChunk cfg x c = some y ∧ Completed cfg (l ++ [c]) y := by
  obtain ⟨rt, mp, sh⟩ := x
  cases h with
  | left hst hchains =>
    exact ⟨_, if_pos hst, .left hst hchains⟩
  | multicast hst hlen hrecv hchains hlt =>
    simp only at hst hlen hrecv hchains hlt
    have hfresh : rt.recv.getD c false = false := by
      cases hb : rt.recv.getD c false with
      | false => rfl
      | true => exact absurd (hrecv c hb) hnew
    have hlen' : (rt.recv.set c true).length = cfg.getTotalChunkCount := by
      rw [List.length_set, hlen]
    have hrecv' : ∀ k, (rt.recv.set c true).getD k false = true → k ∈ l ++ [c] := by
      intro k hk
      rcases (getD_set_iff (by rw [hlen]; exact hc)).mp hk with hk | rfl
      · exact List.mem_append_left _ (hrecv k hk)
      · exact List.mem_append_right _ List.mem_cons_self
    rw [AgApps.receiveChunk, if_neg (not_not.mpr hst), AgRuntime.markChunkAsReceived, if_pos hst]
    simp only [Option.bind_eq_bind, Option.bind_some, AgRuntime.completeChunk, hfresh,
      Bool.not_false, Bool.true_and]
    cases hlast : cfg.isLastChunkOfChain c with
    | false =>
      exact ⟨_, rfl, .multicast hst hlen' hrecv' (by simpa [hlast] using hchains) hlt⟩
    | true =>
      simp only [↓reduceIte]
      rw [AgRuntime.completeChain, if_pos hst]
      simp only
      split
      next hroots =>
        rw [AgRuntime.transitionToRecovery, if_pos hst]
        exact ⟨_, rfl, .left (by simp) hroots⟩
      next hroots =>
        refine ⟨_, rfl, .multicast hst hlen' hrecv' ?_ (Nat.lt_of_le_of_ne hlt hroots)⟩
        simp [hlast, hchains]

theorem exists_receiveChunks (hr : 1 ≤ cfg.roots) (block : Nat) {l : List Nat}
    (hl : ∀ c ∈ l, c < cfg.getTotalChunkCount) (hnodup : l.Nodup) :
    ∃ x, l.foldlM (receiveChunk cfg) (freshNode cfg block) = some x ∧ Completed cfg l x := by
  induction l using List.reverseRecOn with
  | nil =>
    refine ⟨_, rfl, .multicast rfl List.length_replicate (fun c hc => ?_) rfl hr⟩
    have hrecv : (List.replicate cfg.getTotalChunkCount false).getD c false = true := hc
    rw [List.getD_eq_getElem?_getD, List.getElem?_replicate] at hrecv
    split at hrecv <;> cases hrecv
  | append_singleton l c ih =>
    have hnew := List.nodup_append.mp hnodup
    obtain ⟨x, hx, hcompleted⟩ := ih (fun k hk => hl k (List.mem_append_left _ hk)) hnew.1
    obtain ⟨y, hy, hcompleted'⟩ := hcompleted.receiveChunk
      (hl c (List.mem_append_right _ List.mem_cons_self))
      fun hmem => hnew.2.2 c hmem c List.mem_cons_self rfl
    refine ⟨y, ?_, hcompleted'⟩
    rw [List.foldlM_append, hx]
    simpa using hy

/-- **Each chain has its marked chunk if and only if there are two nodes for each root.** -/
theorem oneMarkerPerChain_iff (hr : 1 ≤ cfg.roots) (hrn : cfg.roots ≤ cfg.nodes) :
    OneMarkerPerChain cfg ↔ 0 < cfg.getPerBlockChunkCount ∧ 2 * cfg.roots ≤ cfg.nodes := by
  constructor
  · intro h
    have hC : 0 < cfg.getPerBlockChunkCount := by
      refine Nat.pos_of_ne_zero fun h0 => ?_
      have hcount := h.count
      rw [AgConfig.getTotalChunkCount, h0, Nat.zero_mul, Finset.range_zero, Finset.filter_empty,
        Finset.card_empty] at hcount
      omega
    exact ⟨hC, (card_markers_eq_iff hr hrn hC).mp h.count⟩
  · rintro ⟨hC, hwide⟩
    have hcount := (card_markers_eq_iff hr hrn hC).mpr hwide
    refine ⟨markers_eq hr hrn hC hwide, hcount, fun block chunks hperm => ?_⟩
    obtain ⟨x, hx, hcompleted⟩ := exists_receiveChunks hr block (l := chunks)
      (fun c hc => List.mem_range.mp (hperm.subset hc)) (hperm.nodup_iff.mpr List.nodup_range)
    refine ⟨x, hx, ?_⟩
    cases hcompleted with
    | left _ hchains => exact hchains
    | multicast _ _ _ hchains _ =>
      rw [hchains, hperm.countP_eq, ← hcount, List.countP_eq_length_filter]
      exact congrArg List.length (List.filter_congr fun c _ => Bool.decide_eq_true.symm)

/-- Two chains of two nodes each. -/
theorem oneMarkerPerChain_four : OneMarkerPerChain { nodes := 4, roots := 2, mtu := 1500 } ↔
    0 < ({ nodes := 4, roots := 2, mtu := 1500 } : McastConfig).getPerBlockChunkCount ∧ 2 * 2 ≤ 4 :=
  @oneMarkerPerChain_iff { nodes := 4, roots := 2, mtu := 1500 } (by decide) (by decide)

/-- Two nodes that are both first in their chain. -/
theorem not_oneMarkerPerChain_two : ¬∀ cfg : McastConfig, 1 ≤ cfg.roots → cfg.roots ≤ cfg.nodes →
    OneMarkerPerChain cfg := by
  intro h
  have hcount := (h { nodes := 2, roots := 2, mtu := 1500 } (by decide) (by decide)).count
  exact absurd hcount (by decide)

end AgApps
end Roce
