import Roce.Allgather.Config
import Roce.Lib.Tally

/-! # Segments and the chunks to recover

The chunks of a block are dealt out to its segments in turn, so that each segment gets as many; and
what a node has to recover of a block is what its segments miss beyond their parity. -/

namespace Roce
namespace AgConfig

/-- `GetTotalSegmentCount`. -/
def getTotalSegmentCount (cfg : AgConfig) : Nat := cfg.getPerNodeSegmentCount * cfg.nodes

/-- The chunks of a segment. -/
def segmentChunks (cfg : AgConfig) (segment : Nat) : Finset Nat :=
  (Finset.range cfg.getTotalChunkCount).filter (cfg.getSegmentOfChunk · = segment)

/-- The number of chunks of a segment that were received. -/
def received (cfg : AgConfig) (recv : List Bool) (segment : Nat) : Nat :=
  ((cfg.segmentChunks segment).filter (recv.getD · false = true)).card

/-- The number of chunks of a segment that were missed. -/
def missed (cfg : AgConfig) (recv : List Bool) (segment : Nat) : Nat :=
  ((cfg.segmentChunks segment).filter (recv.getD · false = false)).card

/-- The segments of a block. -/
def blockSegments (cfg : AgConfig) (block : Nat) : Finset Nat :=
  (Finset.range cfg.getTotalSegmentCount).filter (cfg.getBlockOfSegment · = block)

variable {cfg : AgConfig} {segment : Nat}

/-! ## The chunks of a segment -/

/-- The chunk at a place of a segment. -/
def chunkAt (cfg : AgConfig) (segment i : Nat) : Nat :=
  segment / cfg.getPerNodeSegmentCount * cfg.getPerBlockChunkCount +
    (i * cfg.getPerNodeSegmentCount + segment % cfg.getPerNodeSegmentCount)

theorem chunkAt_mod (segment i : Nat) :
    cfg.chunkAt segment i % cfg.getPerNodeSegmentCount = segment % cfg.getPerNodeSegmentCount := by
  rw [chunkAt, getPerBlockChunkCount, Nat.mul_left_comm, Nat.mul_add_mod, Nat.mul_comm i,
    Nat.mul_add_mod, Nat.mod_mod]

section
variable (hpos : 0 < cfg.getPerNodeSegmentCount)
include hpos

theorem getSegmentOfChunk_lt (h : c < cfg.getTotalChunkCount) :
    cfg.getSegmentOfChunk c < cfg.getTotalSegmentCount := by
  have hsender : cfg.getOriginalSender c < cfg.nodes := Nat.div_lt_of_lt_mul h
  have hmod : c % cfg.getPerNodeSegmentCount < cfg.getPerNodeSegmentCount := Nat.mod_lt _ hpos
  calc cfg.getOriginalSender c * cfg.getPerNodeSegmentCount + c % cfg.getPerNodeSegmentCount
    _ < (cfg.getOriginalSender c + 1) * cfg.getPerNodeSegmentCount := by
      rw [Nat.succ_mul]
      exact Nat.add_lt_add_left hmod _
    _ ≤ cfg.nodes * cfg.getPerNodeSegmentCount := Nat.mul_le_mul_right _ hsender
    _ = cfg.getTotalSegmentCount := Nat.mul_comm ..

theorem chunkAt_sub_lt (segment : Nat) (h : i < cfg.sdata + cfg.sparity) :
    i * cfg.getPerNodeSegmentCount + segment % cfg.getPerNodeSegmentCount <
      cfg.getPerBlockChunkCount := by
  have hmod : segment % cfg.getPerNodeSegmentCount < cfg.getPerNodeSegmentCount := Nat.mod_lt _ hpos
  calc i * cfg.getPerNodeSegmentCount + segment % cfg.getPerNodeSegmentCount
    _ < (i + 1) * cfg.getPerNodeSegmentCount := by
      rw [Nat.succ_mul]
      exact Nat.add_lt_add_left hmod _
    _ ≤ (cfg.sdata + cfg.sparity) * cfg.getPerNodeSegmentCount := Nat.mul_le_mul_right _ h
    _ = cfg.getPerBlockChunkCount := Nat.mul_comm ..

theorem getOriginalSender_chunkAt (segment : Nat) (h : i < cfg.sdata + cfg.sparity) :
    cfg.getOriginalSender (cfg.chunkAt segment i) = segment / cfg.getPerNodeSegmentCount := by
  have hlt := chunkAt_sub_lt hpos segment h
  rw [getOriginalSender, chunkAt, Nat.mul_comm, Nat.mul_add_div (Nat.zero_lt_of_lt hlt),
    Nat.div_eq_of_lt hlt, Nat.add_zero]

theorem segmentChunks_eq (h : segment < cfg.getTotalSegmentCount) : cfg.segmentChunks segment =
    (Finset.range (cfg.sdata + cfg.sparity)).image (cfg.chunkAt segment) := by
  ext c
  simp only [segmentChunks, Finset.mem_filter, Finset.mem_range, Finset.mem_image]
  constructor
  · rintro ⟨hc, rfl⟩
    -- the place of the chunk in its segment
    have hdiv : cfg.getSegmentOfChunk c / cfg.getPerNodeSegmentCount = cfg.getOriginalSender c :=
      getBlockOfSegment_getSegmentOfChunk hpos c
    have hmod : cfg.getSegmentOfChunk c % cfg.getPerNodeSegmentCount =
        c % cfg.getPerNodeSegmentCount := by
      rw [getSegmentOfChunk, Nat.mul_comm, Nat.mul_add_mod, Nat.mod_mod]
    have hblock := Nat.div_add_mod c cfg.getPerBlockChunkCount
    have hplace := Nat.div_add_mod (c % cfg.getPerBlockChunkCount) cfg.getPerNodeSegmentCount
    have hmodmod : c % cfg.getPerBlockChunkCount % cfg.getPerNodeSegmentCount =
        c % cfg.getPerNodeSegmentCount :=
      Nat.mod_mod_of_dvd c (Nat.dvd_mul_right ..)
    refine ⟨c % cfg.getPerBlockChunkCount / cfg.getPerNodeSegmentCount, ?_, ?_⟩
    · refine Nat.div_lt_of_lt_mul (Nat.mod_lt _ ?_)
      exact Nat.pos_of_ne_zero fun h0 => by simp [getTotalChunkCount, h0] at hc
    · rw [chunkAt, hdiv, hmod, getOriginalSender, Nat.mul_comm _ cfg.getPerBlockChunkCount,
        Nat.mul_comm _ cfg.getPerNodeSegmentCount, ← hmodmod, hplace, hblock]
  · rintro ⟨i, hi, rfl⟩
    have hsender := getOriginalSender_chunkAt hpos segment hi
    refine ⟨?_, ?_⟩
    · have hblock : segment / cfg.getPerNodeSegmentCount < cfg.nodes := Nat.div_lt_of_lt_mul h
      rw [← hsender] at hblock
      have hlt := (Nat.div_lt_iff_lt_mul (Nat.zero_lt_of_lt (chunkAt_sub_lt hpos segment hi))).mp
        hblock
      rwa [Nat.mul_comm] at hlt
    · rw [getSegmentOfChunk, hsender, chunkAt_mod, Nat.mul_comm, Nat.div_add_mod]

/-- The chunks of a segment are as many as its data and parity chunks. -/
theorem card_segmentChunks (h : segment < cfg.getTotalSegmentCount) :
    (cfg.segmentChunks segment).card = cfg.sdata + cfg.sparity := by
  rw [segmentChunks_eq hpos h, Finset.card_image_of_injOn, Finset.card_range]
  intro i _ j _ heq
  have heq : cfg.chunkAt segment i = cfg.chunkAt segment j := heq
  simp only [chunkAt, Nat.add_right_inj, Nat.add_left_inj] at heq
  exact Nat.eq_of_mul_eq_mul_right hpos heq

theorem received_add_missed (recv : List Bool) (h : segment < cfg.getTotalSegmentCount) :
    cfg.received recv segment + cfg.missed recv segment = cfg.sdata + cfg.sparity := by
  rw [← card_segmentChunks hpos h, received, missed,
    ← Finset.card_filter_add_card_filter_not (s := cfg.segmentChunks segment)
      (p := (recv.getD · false = true))]
  simp

end

/-! ## The maps of missed chunks -/

theorem find?_countMissed (recv : List Bool) (n segment : Nat) :
    ((cfg.countMissed recv n).find? segment).getD 0 = ((Finset.range n).filter fun c =>
      cfg.getSegmentOfChunk c = segment ∧ recv.getD c false = false).card := by
  induction n with
  | zero => rfl
  | succ n ih =>
    rw [countMissed, Finset.range_add_one, Finset.filter_insert]
    cases hrecv : recv.getD n false with
    | true => simpa using ih
    | false =>
      by_cases hseg : cfg.getSegmentOfChunk n = segment
      · have hnew : n ∉ (Finset.range n).filter fun c =>
            cfg.getSegmentOfChunk c = segment ∧ recv.getD c false = false := by simp
        simp only [hseg, and_self, if_true, Finset.card_insert_of_notMem hnew, ← ih]
        simp [OrdMap.find?_insert]
      · simpa [OrdMap.find?_insert, hseg] using ih

theorem find?_countMissed_total (recv : List Bool) (segment : Nat) :
    ((cfg.countMissed recv cfg.getTotalChunkCount).find? segment).getD 0 =
      cfg.missed recv segment := by
  rw [find?_countMissed, missed, segmentChunks, Finset.filter_filter]

/-- The segments that miss a chunk, with the chunks beyond their parity. -/
theorem entries_buildPartialSegments (recv : List Bool) :
    (cfg.buildPartialSegments recv).entries = (cfg.buildPartialSegments recv).keys.map
      fun segment => (segment, cfg.missed recv segment - cfg.sparity) := by
  rw [OrdMap.keys, List.map_map]
  refine (List.map_id _).symm.trans (List.map_congr_left fun e he => ?_)
  have hfind : (cfg.buildPartialSegments recv).find? e.1 = some e.2 := OrdMap.find?_eq_some.mpr he
  rw [buildPartialSegments, OrdMap.find?_mapValues, Option.map_eq_some_iff] at hfind
  obtain ⟨chunks, hchunks, hval⟩ := hfind
  have hmissed : ((cfg.countMissed recv cfg.getTotalChunkCount).find? e.1).getD 0 =
      cfg.missed recv e.1 := find?_countMissed_total recv e.1
  rw [hchunks, Option.getD_some] at hmissed
  refine Prod.ext rfl ?_
  change e.2 = cfg.missed recv e.1 - cfg.sparity
  rw [← hval, ← hmissed]
  split
  · omega
  · rfl

theorem mem_keys_buildPartialSegments (hmiss : 0 < cfg.missed recv segment) :
    segment ∈ (cfg.buildPartialSegments recv).keys := by
  rw [buildPartialSegments, OrdMap.keys_mapValues, OrdMap.mem_keys]
  rw [← find?_countMissed_total] at hmiss
  cases hfind : (cfg.countMissed recv cfg.getTotalChunkCount).find? segment with
  | none => simp [hfind] at hmiss
  | some v => exact ⟨v, rfl⟩

/-- The loop of `BuildToRecover` adds up the chunks of each block. -/
theorem find?_foldl_addMissed (l : List (Nat × Nat)) (m : OrdMap Nat Nat) (b : Nat) :
    ((l.foldl cfg.addMissed m).find? b).getD 0 =
      (m.find? b).getD 0 + tally (·.2) (cfg.getBlockOfSegment ·.1 = b) l := by
  induction l generalizing m with
  | nil => rfl
  | cons e l ih =>
    rw [List.foldl_cons, ih, tally_cons, addMissed]
    split
    · rw [OrdMap.find?_insert]
      by_cases hb : cfg.getBlockOfSegment e.1 = b
      · simp [hb, Nat.add_assoc]
      · simp [hb]
    · have hzero : e.2 = 0 := by omega
      simp [hzero]

theorem mem_keys_foldl_addMissed {l : List (Nat × Nat)} {m : OrdMap Nat Nat} :
    b ∈ (l.foldl cfg.addMissed m).keys ↔
      b ∈ m.keys ∨ ∃ e ∈ l, 0 < e.2 ∧ cfg.getBlockOfSegment e.1 = b := by
  induction l generalizing m with
  | nil => simp
  | cons e l ih =>
    rw [List.foldl_cons, ih, addMissed]
    split
    · simp only [OrdMap.mem_keys_insert, List.mem_cons, exists_eq_or_imp]
      grind
    · simp only [List.mem_cons, exists_eq_or_imp]
      grind

section
variable (hpos : 0 < cfg.getPerNodeSegmentCount)
include hpos

theorem missed_eq_zero (recv : List Bool) (h : cfg.getTotalSegmentCount ≤ segment) :
    cfg.missed recv segment = 0 := by
  have hnil : cfg.segmentChunks segment = ∅ := by
    refine Finset.filter_eq_empty_iff.mpr fun c hc heq => ?_
    have hlt := getSegmentOfChunk_lt hpos (Finset.mem_range.mp hc)
    omega
  rw [missed, hnil, Finset.filter_empty, Finset.card_empty]

/-- A block is to be recovered if one of its segments cannot be reconstructed. -/
theorem mem_keys_buildToRecover (recv : List Bool) (b : Nat) :
    b ∈ (cfg.buildToRecover recv).keys ↔
      ∃ segment ∈ cfg.blockSegments b, cfg.received recv segment < cfg.sdata := by
  rw [buildToRecover, mem_keys_foldl_addMissed, entries_buildPartialSegments]
  constructor
  · rintro (h | ⟨e, he, hmiss, rfl⟩)
    · cases h
    · obtain ⟨segment, -, rfl⟩ := List.mem_map.mp he
      have hmiss : 0 < cfg.missed recv segment - cfg.sparity := hmiss
      have hlt : segment < cfg.getTotalSegmentCount := by
        by_contra hge
        rw [missed_eq_zero hpos recv (Nat.not_lt.mp hge)] at hmiss
        omega
      have hsum := received_add_missed hpos recv hlt
      refine ⟨segment, Finset.mem_filter.mpr ⟨Finset.mem_range.mpr hlt, rfl⟩, ?_⟩
      omega
  · rintro ⟨segment, hsegment, hfew⟩
    obtain ⟨hlt, hblock⟩ := Finset.mem_filter.mp hsegment
    have hsum := received_add_missed hpos recv (Finset.mem_range.mp hlt)
    have hkey : segment ∈ (cfg.buildPartialSegments recv).keys :=
      mem_keys_buildPartialSegments (by omega)
    refine .inr ⟨_, List.mem_map_of_mem hkey, ?_, hblock⟩
    change 0 < cfg.missed recv segment - cfg.sparity
    omega

/-- What is to be recovered of a block. -/
theorem find?_buildToRecover (recv : List Bool) (b : Nat) :
    ((cfg.buildToRecover recv).find? b).getD 0 =
      ∑ segment ∈ cfg.blockSegments b, (cfg.missed recv segment - cfg.sparity) := by
  rw [buildToRecover, find?_foldl_addMissed, OrdMap.find?_empty, Option.getD_none, Nat.zero_add,
    entries_buildPartialSegments, tally_map, tally,
    ← List.sum_toFinset _ ((OrdMap.nodup_keys _).filter _)]
  refine Finset.sum_subset (fun segment hsegment => ?_) fun segment hsegment hnot => ?_
  · obtain ⟨hkey, hblock⟩ := List.mem_filter.mp (List.mem_toFinset.mp hsegment)
    rw [buildPartialSegments, OrdMap.keys_mapValues] at hkey
    obtain ⟨c, hlt, -, rfl⟩ := mem_countMissed hkey
    exact Finset.mem_filter.mpr
      ⟨Finset.mem_range.mpr (getSegmentOfChunk_lt hpos hlt), of_decide_eq_true hblock⟩
  · -- a segment without an entry misses nothing
    obtain ⟨-, hblock⟩ := Finset.mem_filter.mp hsegment
    have hkey : segment ∉ (cfg.buildPartialSegments recv).keys := fun hkey =>
      hnot (List.mem_toFinset.mpr (List.mem_filter.mpr ⟨hkey, decide_eq_true hblock⟩))
    have hmiss := mt mem_keys_buildPartialSegments hkey
    omega

end

theorem ceilDiv_pos {num den : Nat} (hnum : 0 < num) (hden : 0 < den) : 0 < ceilDiv num den :=
  Nat.div_pos (by omega) hden

/-- **What has to be recovered.** The segments have the same number of chunks, each of one block; a
block has to be recovered if one of its segments received fewer chunks than it has data chunks, and
then each segment counts with what it misses beyond its parity. -/
theorem recovery_need (cfg : AgConfig) (hpernode : 0 < cfg.pernode) (hcsize : 0 < cfg.csize)
    (hsdata : 0 < cfg.sdata) (recv : cfg.Bitmap) :
    (∀ c < cfg.getTotalChunkCount, cfg.getSegmentOfChunk c < cfg.getTotalSegmentCount ∧
      cfg.getBlockOfSegment (cfg.getSegmentOfChunk c) = cfg.getOriginalSender c) ∧
    (∀ segment < cfg.getTotalSegmentCount,
      (cfg.segmentChunks segment).card = cfg.sdata + cfg.sparity) ∧
    ∀ b, (b ∈ (cfg.buildToRecover recv.toList).keys ↔
        ∃ segment ∈ cfg.blockSegments b, cfg.received recv.toList segment < cfg.sdata) ∧
      ∀ chunks, (cfg.buildToRecover recv.toList).find? b = some chunks →
        chunks = ∑ segment ∈ cfg.blockSegments b,
          (cfg.missed recv.toList segment - cfg.sparity) := by
  have hpos : 0 < cfg.getPerNodeSegmentCount := ceilDiv_pos (ceilDiv_pos hpernode hcsize) hsdata
  refine ⟨fun c hc => ⟨getSegmentOfChunk_lt hpos hc, getBlockOfSegment_getSegmentOfChunk hpos c⟩,
    fun segment h => card_segmentChunks hpos h,
    fun b => ⟨mem_keys_buildToRecover hpos _ b, fun chunks h => ?_⟩⟩
  rw [← find?_buildToRecover hpos, h, Option.getD_some]

/-- Two blocks of two segments with two data chunks and one parity chunk each: the segments of the
first block miss one chunk and two, and those of the second block one and none. -/
theorem recovery_need_pair :
    let cfg : AgConfig := { nodes := 2, pernode := 4, csize := 1, sdata := 2, sparity := 1 }
    let recv := [true, false, false, true, true, false, true, true, false, true, true, true]
    (cfg.buildToRecover recv).find? 0 = some 1 ∧
    (∃ segment ∈ cfg.blockSegments 0, cfg.received recv segment < 2) ∧
    1 = ∑ segment ∈ cfg.blockSegments 0, (cfg.missed recv segment - 1) ∧
    ∀ segment ∈ cfg.blockSegments 1, 2 ≤ cfg.received recv segment := by
  intro cfg recv
  obtain ⟨-, -, h⟩ := recovery_need cfg (by decide) (by decide) (by decide)
    ⟨#[true, false, false, true, true, false, true, true, false, true, true, true],
      by decide +kernel⟩
  have hfind : (cfg.buildToRecover recv).find? 0 = some 1 := by decide +kernel
  have hkey : 0 ∈ (cfg.buildToRecover recv).keys := by decide +kernel
  have hnot : 1 ∉ (cfg.buildToRecover recv).keys := by decide +kernel
  refine ⟨hfind, (h 0).1.mp hkey, (h 0).2 1 hfind, fun segment hmem => ?_⟩
  by_contra hfew
  exact hnot ((h 1).1.mpr ⟨segment, hmem, Nat.lt_of_not_le hfew⟩)

end AgConfig
end Roce
