import Roce.Lib.OrdMap
import Mathlib.Order.Nat
import Mathlib.Tactic.Common

/-! # `AgConfig`

The chunk arithmetic of an allgather (`ag-config.cc`): each node owns one block of chunks, a block
is cut into segments of `m_sdata` data chunks and `m_sparity` parity chunks, and up to `m_sparity`
missed chunks of a segment are reconstructed. The 64-bit counters are natural numbers. -/

namespace Roce

/-- `CeilDiv`. -/
def ceilDiv (num den : Nat) : Nat := (num + den - 1) / den

/-- The members of `AgConfig` that the chunk arithmetic reads, with their default values. -/
structure AgConfig where
  nodes : Nat
  pernode : Nat := 1
  csize : Nat := 30000
  sdata : Nat := 1
  sparity : Nat := 0
  deriving DecidableEq, Repr

namespace AgConfig

variable (cfg : AgConfig)

def getBlockCount : Nat := cfg.nodes

def getChunkByteSize : Nat := cfg.csize

def getPerNodeSegmentCount : Nat := ceilDiv (ceilDiv cfg.pernode cfg.csize) cfg.sdata

def getPerBlockChunkCount : Nat := cfg.getPerNodeSegmentCount * (cfg.sdata + cfg.sparity)

def getTotalChunkCount : Nat := cfg.getPerBlockChunkCount * cfg.nodes

/-- What `m_recv` holds, one bit for each chunk. -/
abbrev Bitmap := Vector Bool cfg.getTotalChunkCount

def getOriginalSender (chunk : Nat) : Nat := chunk / cfg.getPerBlockChunkCount

def getSegmentOfChunk (chunk : Nat) : Nat :=
  cfg.getOriginalSender chunk * cfg.getPerNodeSegmentCount + chunk % cfg.getPerNodeSegmentCount

def getBlockOfSegment (segment : Nat) : Nat := segment / cfg.getPerNodeSegmentCount

/-- The loop of `BuildPartialSegments` that counts the missed chunks of each segment, over the
chunks below `n`. -/
def countMissed (recv : List Bool) : Nat → OrdMap Nat Nat
  | 0 => .empty
  | n + 1 =>
    let m := countMissed recv n
    if recv.getD n false then m
    else
      let segment := cfg.getSegmentOfChunk n
      m.insert segment ((m.find? segment).getD 0 + 1)

/-- `BuildPartialSegments`. -/
def buildPartialSegments (recv : List Bool) : OrdMap Nat Nat :=
  (cfg.countMissed recv cfg.getTotalChunkCount).mapValues fun chunks =>
    if chunks < cfg.sparity then 0 else chunks - cfg.sparity

/-- One turn of the loop of `BuildToRecover`. -/
def addMissed (m : OrdMap Nat Nat) (e : Nat × Nat) : OrdMap Nat Nat :=
  if e.2 > 0 then
    let block := cfg.getBlockOfSegment e.1
    m.insert block ((m.find? block).getD 0 + e.2)
  else m

/-- `BuildToRecover`: the count of missed chunks of each block that misses some. -/
def buildToRecover (recv : List Bool) : OrdMap Nat Nat :=
  (cfg.buildPartialSegments recv).entries.foldl cfg.addMissed .empty

variable {cfg}

theorem getBlockOfSegment_getSegmentOfChunk (h : 0 < cfg.getPerNodeSegmentCount) (chunk : Nat) :
    cfg.getBlockOfSegment (cfg.getSegmentOfChunk chunk) = cfg.getOriginalSender chunk := by
  unfold getBlockOfSegment getSegmentOfChunk
  rw [Nat.mul_comm, Nat.mul_add_div h, Nat.div_eq_of_lt (Nat.mod_lt _ h), Nat.add_zero]

theorem mem_countMissed {n : Nat} (h : s ∈ (cfg.countMissed recv n).keys) :
    ∃ chunk < n, recv.getD chunk false = false ∧ s = cfg.getSegmentOfChunk chunk := by
  induction n with
  | zero => cases h
  | succ n ih =>
    simp only [countMissed] at h
    split at h
    next hrecv =>
      obtain ⟨chunk, hlt, hrest⟩ := ih h
      exact ⟨chunk, Nat.lt_succ_of_lt hlt, hrest⟩
    next hrecv =>
      rcases OrdMap.mem_keys_insert.mp h with rfl | h
      · exact ⟨n, Nat.lt_succ_self n, by simpa using hrecv, rfl⟩
      · obtain ⟨chunk, hlt, hrest⟩ := ih h
        exact ⟨chunk, Nat.lt_succ_of_lt hlt, hrest⟩

theorem mem_foldl_addMissed {l : List (Nat × Nat)} {m : OrdMap Nat Nat}
    (h : b ∈ (l.foldl cfg.addMissed m).keys) :
    b ∈ m.keys ∨ ∃ e ∈ l, b = cfg.getBlockOfSegment e.1 := by
  induction l generalizing m with
  | nil => exact .inl h
  | cons e l ih =>
    rcases ih h with h | ⟨e', he', hb⟩
    · unfold addMissed at h
      split at h
      · rcases OrdMap.mem_keys_insert.mp h with rfl | h
        · exact .inr ⟨e, List.mem_cons_self, rfl⟩
        · exact .inl h
      · exact .inl h
    · exact .inr ⟨e', List.mem_cons_of_mem _ he', hb⟩

/-- A block to recover is the block of a chunk that was not received. -/
theorem mem_buildToRecover (h : b ∈ (cfg.buildToRecover recv).keys) :
    ∃ chunk < cfg.getTotalChunkCount, recv.getD chunk false = false ∧
      b = cfg.getOriginalSender chunk := by
  rcases mem_foldl_addMissed h with h | ⟨e, he, rfl⟩
  · cases h
  · have hkey : e.1 ∈ (cfg.buildPartialSegments recv).keys := List.mem_map_of_mem he
    rw [buildPartialSegments, OrdMap.keys_mapValues] at hkey
    obtain ⟨chunk, hlt, hrecv, hseg⟩ := mem_countMissed hkey
    refine ⟨chunk, hlt, hrecv, ?_⟩
    rw [hseg]
    refine getBlockOfSegment_getSegmentOfChunk ?_ chunk
    -- without segments there is no chunk
    refine Nat.pos_of_ne_zero fun h0 => ?_
    rw [getTotalChunkCount, getPerBlockChunkCount, h0, Nat.zero_mul, Nat.zero_mul] at hlt
    exact Nat.not_lt_zero _ hlt

end AgConfig
end Roce
