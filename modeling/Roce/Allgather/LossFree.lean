import Roce.Allgather.SentBlocks

/-! # The multicast phase without losses

No node leaves the multicast phase before its timer fires: the packets do not carry the immediate
values that `StartMulticast` asks for. With those values a node leaves the phase by itself when it
has received the last chunk of as many chains as there are roots. A chain counts only if its last
node is not also its first one, and a node does not receive the chunks of its own block. So the last
node of a chain would still stay in the phase, and with less than two nodes for each root every node
would. -/

namespace Roce
namespace AgApps

open Function

/-- The node `i` receives all packets of all other nodes, in the order of each sender. -/
structure LossFree (cfg : McastConfig) (i : Fin cfg.nodes) (ds : List (Delivery cfg.nodes)) :
    Prop where
  other : ∀ d ∈ ds, d.receiver = i → d.sender ≠ i
  packets : ∀ s, s ≠ i → offsets i s ds = List.range cfg.getPerBlockPacketCount

/-- The delivery `d`, which comes after `ds₁`, is the last one to the node `i`. -/
structure LastDelivery (i : Fin n) (ds ds₁ : List (Delivery n)) (d : Delivery n) : Prop where
  receiver : d.receiver = i
  last : ∃ ds₂, ds = ds₁ ++ d :: ds₂ ∧ ∀ d' ∈ ds₂, d'.receiver ≠ i

/-- The node `i` leaves the multicast phase upon the last delivery, with nothing to recover. What a
delivery does is said by `M`. -/
def OnTime (cfg : McastConfig) (M : Machine (AgApps cfg.nodes) (Delivery cfg.nodes))
    (i : Fin cfg.nodes) (ds : List (Delivery cfg.nodes)) : Prop :=
  ∃ ds₁ d t t', LastDelivery i ds ds₁ d ∧ M.Run (initial cfg) ds₁ t ∧
    M.step t d t' ∧ (t.ring.node i).state = .multicast ∧
    (t'.ring.node i).state = .recovery ∧ (t'.ring.node i).toRecover.keys = []

variable {cfg : McastConfig}

/-! ## The chunks that end a chain -/

/-- The last chunk of the block `b`. -/
def lastChunk (cfg : McastConfig) (b : Nat) : Nat :=
  b * cfg.getPerBlockChunkCount + (cfg.getPerBlockChunkCount - 1)

section ChainEnds

variable (hC : 0 < cfg.getPerBlockChunkCount)
include hC

theorem getOriginalSender_lastChunk (b : Nat) : cfg.getOriginalSender (lastChunk cfg b) = b :=
  getOriginalSender_eq (Nat.sub_lt hC Nat.one_pos)

/-- A chunk ends a chain if it is the last chunk of a node that is last in its chain. -/
theorem isLastChunkOfChain_iff {c : Nat} : cfg.isLastChunkOfChain c = true ↔
    cfg.getChainOrder (cfg.getOriginalSender c) = .last ∧
      c = lastChunk cfg (cfg.getOriginalSender c) := by
  have hlast : cfg.isLastChunkOfBlock c = true ↔ c = lastChunk cfg (cfg.getOriginalSender c) := by
    have hdiv := Nat.div_add_mod c cfg.getPerBlockChunkCount
    have hlt := Nat.mod_lt c hC
    rw [McastConfig.isLastChunkOfBlock, decide_eq_true_iff, ← Nat.mod_add_mod, lastChunk,
      AgConfig.getOriginalSender, Nat.mul_comm]
    by_cases hend : c % cfg.getPerBlockChunkCount + 1 = cfg.getPerBlockChunkCount
    · rw [hend, Nat.mod_self]
      omega
    · rw [Nat.mod_eq_of_lt (by omega)]
      omega
  rw [McastConfig.isLastChunkOfChain, Bool.and_eq_true, decide_eq_true_iff, hlast]

theorem lastChunk_lt {b : Nat} (hb : b < cfg.nodes) : lastChunk cfg b < cfg.getTotalChunkCount := by
  have hle : (b + 1) * cfg.getPerBlockChunkCount ≤ cfg.nodes * cfg.getPerBlockChunkCount :=
    Nat.mul_le_mul_right _ hb
  rw [Nat.add_mul, Nat.one_mul, Nat.mul_comm cfg.nodes] at hle
  rw [lastChunk, AgConfig.getTotalChunkCount]
  omega

theorem mem_chainEnds {p : Nat → Prop} [DecidablePred p] {c : Nat} :
    c ∈ chainEnds cfg p ↔ ∃ b ∈ cfg.lastBlocks, c = lastChunk cfg b ∧ p c := by
  simp only [chainEnds, McastConfig.lastBlocks, Finset.mem_filter, Finset.mem_range,
    isLastChunkOfChain_iff hC]
  constructor
  · rintro ⟨hc, ⟨hlast, heq⟩, hp⟩
    refine ⟨_, ⟨Nat.div_lt_of_lt_mul hc, hlast⟩, heq, hp⟩
  · rintro ⟨b, ⟨hb, hlast⟩, rfl, hp⟩
    rw [getOriginalSender_lastChunk hC]
    exact ⟨lastChunk_lt hC hb, ⟨hlast, rfl⟩, hp⟩

theorem lastChunk_injective : Function.Injective (lastChunk cfg) := by
  intro a b h
  rw [← getOriginalSender_lastChunk hC a, h, getOriginalSender_lastChunk hC]

/-- The ends of the chains that satisfy `p` are those of some of the last blocks. -/
theorem chainEnds_eq_image {p : Nat → Prop} [DecidablePred p] : chainEnds cfg p =
    (cfg.lastBlocks.filter fun b => p (lastChunk cfg b)).image (lastChunk cfg) := by
  ext c
  simp only [mem_chainEnds hC, Finset.mem_image, Finset.mem_filter]
  constructor
  · rintro ⟨b, hb, rfl, hp⟩
    exact ⟨b, ⟨hb, hp⟩, rfl⟩
  · rintro ⟨b, ⟨hb, hp⟩, rfl⟩
    exact ⟨b, hb, rfl, hp⟩

theorem card_chainEnds {p : Nat → Prop} [DecidablePred p] : (chainEnds cfg p).card =
    (cfg.lastBlocks.filter fun b => p (lastChunk cfg b)).card := by
  rw [chainEnds_eq_image hC, Finset.card_image_of_injective _ (lastChunk_injective hC)]

/-- As many chains end as there are roots, if and only if there are two nodes for each root and
the last chunk of each last node counts. -/
theorem roots_le_card_chainEnds (hr : 1 ≤ cfg.roots) (hrn : cfg.roots ≤ cfg.nodes)
    {p : Nat → Prop} [DecidablePred p] : cfg.roots ≤ (chainEnds cfg p).card ↔
      2 * cfg.roots ≤ cfg.nodes ∧ ∀ b ∈ cfg.lastBlocks, p (lastChunk cfg b) := by
  rw [card_chainEnds hC, ← McastConfig.card_lastBlocks_eq_iff hr hrn]
  have hle := McastConfig.card_lastBlocks_le hr hrn
  have hfilter := Finset.card_filter_le cfg.lastBlocks fun b => p (lastChunk cfg b)
  constructor
  · intro h
    exact ⟨by omega, Finset.card_filter_eq_iff.mp (by omega)⟩
  · rintro ⟨hcard, hall⟩
    rw [Finset.card_filter_eq_iff.mpr hall, hcard]

end ChainEnds

/-! ## The last delivery to a node -/

section LastDelivery

variable {i : Fin cfg.nodes} {ds ds₁ : List (Delivery cfg.nodes)} {d : Delivery cfg.nodes}

theorem LastDelivery.offsets_eq (h : LastDelivery i ds ds₁ d) (s : Fin cfg.nodes) :
    offsets i s ds = offsets i s (ds₁ ++ [d]) := by
  obtain ⟨ds₂, rfl, hlast⟩ := h.last
  have hnil : offsets i s ds₂ = [] := by
    rw [offsets, List.map_eq_nil_iff, List.filter_eq_nil_iff]
    intro e he
    simpa using fun hi => absurd hi (hlast e he)
  have hsplit : ds₁ ++ d :: ds₂ = ds₁ ++ [d] ++ ds₂ := by simp
  rw [hsplit]
  unfold offsets at hnil ⊢
  rw [List.filter_append, List.map_append, hnil, List.append_nil]

/-- What comes before the last delivery and the delivery itself are in order. -/
theorem LossFree.inOrder (hl : LossFree cfg i ds) (h : LastDelivery i ds ds₁ d) :
    InOrder cfg i (ds₁ ++ [d]) := by
  have hmem : ∀ e ∈ ds₁ ++ [d], e ∈ ds := by
    obtain ⟨ds₂, rfl, -⟩ := h.last
    intro e he
    rcases List.mem_append.mp he with he | he
    · exact List.mem_append_left _ he
    · rw [List.mem_singleton.mp he]
      exact List.mem_append_right _ List.mem_cons_self
  constructor
  case other =>
    intro e he hei
    have hne := hl.other e (hmem e he) hei
    refine ⟨hne, ?_⟩
    have hoff : e.offset ∈ offsets i e.sender ds :=
      List.mem_map.mpr ⟨e, List.mem_filter.mpr ⟨hmem e he, by simpa using hei⟩, rfl⟩
    rw [hl.packets _ hne] at hoff
    exact List.mem_range.mp hoff
  case order =>
    intro s hs
    rw [← h.offsets_eq, hl.packets s hs, List.length_range]

/-- The last delivery is the last packet of its sender. -/
theorem LossFree.last_offset (hl : LossFree cfg i ds) (h : LastDelivery i ds ds₁ d) :
    offsets i d.sender ds₁ = List.range (cfg.getPerBlockPacketCount - 1) ∧
      d.offset + 1 = cfg.getPerBlockPacketCount := by
  have hin := hl.inOrder h
  have hs := (hin.other d (List.mem_append_right _ List.mem_cons_self) h.receiver).1
  have hall := (h.offsets_eq d.sender).symm.trans (hl.packets _ hs)
  have hlen := congrArg List.length hall
  rw [offsets_snoc, if_pos ⟨h.receiver, rfl⟩, List.length_append, List.length_singleton,
    List.length_range] at hlen
  have hoff := hin.offset h.receiver
  refine ⟨?_, by omega⟩
  rw [hin.init.order _ hs, ← hlen, Nat.add_sub_cancel]

/-- The other senders are through before. -/
theorem LossFree.offsets_other (hl : LossFree cfg i ds) (h : LastDelivery i ds ds₁ d)
    {s : Fin cfg.nodes} (hs : s ≠ i) (hsd : s ≠ d.sender) :
    offsets i s ds₁ = List.range cfg.getPerBlockPacketCount := by
  rw [← hl.packets s hs, h.offsets_eq, offsets_snoc, if_neg fun hc => hsd hc.2.symm,
    List.append_nil]

end LastDelivery

/-! ## When a node leaves on time -/

section OnTime

variable {i : Fin cfg.nodes} {ds ds₁ : List (Delivery cfg.nodes)} {d : Delivery cfg.nodes}

/-- The packets of a chunk are among those of one sender. -/
theorem packetCount_le {c a b : Nat} {s : Fin cfg.nodes}
    (h : ∀ d ∈ ds, d.receiver = i → chunkOf cfg d = c → d.sender = s ∧ a ≤ d.offset ∧
      d.offset < b) :
    packetCount cfg i ds c ≤ (offsets i s ds).countP fun x => a ≤ x ∧ x < b := by
  rw [offsets, List.countP_map, List.countP_filter]
  refine List.countP_mono_left fun d hd hc => ?_
  simp only [decide_eq_true_eq] at hc
  obtain ⟨hs, ha, hb⟩ := h d hd hc.1 hc.2
  simp [hc.1, hs, ha, hb]

/-- What a node has marked if it leaves: two nodes for each root, and the last chunks of all last
nodes. -/
theorem left_of_ne (hr : 1 ≤ cfg.roots) (hrn : cfg.roots ≤ cfg.nodes)
    (hC : 0 < cfg.getPerBlockChunkCount) {t : AgApps cfg.nodes} (h : Bounded cfg i ds t)
    (hne : (t.ring.node i).state ≠ .multicast) : cfg.getPerChunkPacketCount < 2 ^ 31 ∧
      2 * cfg.roots ≤ cfg.nodes ∧ ∀ b ∈ cfg.lastBlocks,
        cfg.getPerChunkPacketCount ≤ packetCount cfg i ds (lastChunk cfg b) :=
  ⟨(h.left hne).1, (roots_le_card_chainEnds hC hr hrn).mp (h.left hne).2⟩

theorem perBlock_pos {off : Nat} (hoff : off < cfg.getPerBlockPacketCount) :
    0 < cfg.getPerChunkPacketCount ∧ 0 < cfg.getPerBlockChunkCount := by
  have hpos := Nat.zero_lt_of_lt hoff
  rw [McastConfig.getPerBlockPacketCount] at hpos
  exact ⟨Nat.pos_of_mul_pos_right hpos, Nat.pos_of_mul_pos_left hpos⟩

/-- If the packets do not have different immediate values, the last chunk of all is never
complete. -/
theorem packetCount_lt_of_wrap (hin : InOrder cfg i ds) (hpos : 0 < cfg.getPerChunkPacketCount)
    (hC : 0 < cfg.getPerBlockChunkCount) (hint : cfg.getPerChunkPacketCount < 2 ^ 31)
    (hwrap : 2 ^ 32 < cfg.nodes * cfg.getPerBlockPacketCount) :
    packetCount cfg i ds (lastChunk cfg (cfg.nodes - 1)) < cfg.getPerChunkPacketCount := by
  have hn := Nat.zero_lt_of_lt i.isLt
  have hP : cfg.getPerBlockPacketCount =
    cfg.getPerChunkPacketCount * cfg.getPerBlockChunkCount := rfl
  have hle : cfg.getPerChunkPacketCount ≤ cfg.getPerBlockPacketCount := Nat.le_mul_of_pos_right _ hC
  have hend : lastChunk cfg (cfg.nodes - 1) * cfg.getPerChunkPacketCount +
      cfg.getPerChunkPacketCount = cfg.nodes * cfg.getPerBlockPacketCount := by
    have hsucc : lastChunk cfg (cfg.nodes - 1) + 1 = cfg.nodes * cfg.getPerBlockChunkCount := by
      have hone := Nat.sub_add_cancel hn
      rw [lastChunk, Nat.add_assoc, Nat.sub_add_cancel hC, ← Nat.succ_mul,
        Nat.succ_eq_add_one, hone]
    rw [← Nat.succ_mul, Nat.succ_eq_add_one, hsucc, hP, Nat.mul_assoc,
      Nat.mul_comm cfg.getPerBlockChunkCount]
  let s : Fin cfg.nodes := ⟨cfg.nodes - 1, Nat.sub_lt hn Nat.one_pos⟩
  have hfact : ∀ e ∈ ds, e.receiver = i → chunkOf cfg e = lastChunk cfg (cfg.nodes - 1) →
      e.sender = s ∧ cfg.getPerBlockPacketCount - cfg.getPerChunkPacketCount ≤ e.offset ∧
        e.offset <
          2 ^ 32 - (cfg.nodes * cfg.getPerBlockPacketCount - cfg.getPerBlockPacketCount) := by
    intro e he hei hchunk
    have hoff := (hin.other e he hei).2
    have hlo := Nat.div_mul_le_self (cfg.getMcastImmData e.sender e.offset)
      cfg.getPerChunkPacketCount
    rw [show cfg.getMcastImmData e.sender e.offset / cfg.getPerChunkPacketCount = _ from hchunk,
      McastConfig.getMcastImmData] at hlo
    have hsender : (e.sender.val + 1) * cfg.getPerBlockPacketCount ≤
        cfg.nodes * cfg.getPerBlockPacketCount := Nat.mul_le_mul_right _ e.sender.isLt
    rw [Nat.add_mul, Nat.one_mul] at hsender
    have hlast : e.sender.val + 1 = cfg.nodes := by
      by_contra hne
      have hlt := e.sender.isLt
      have htwo : (e.sender.val + 2) * cfg.getPerBlockPacketCount ≤
          cfg.nodes * cfg.getPerBlockPacketCount := Nat.mul_le_mul_right _ (by omega)
      rw [Nat.add_mul] at htwo
      have hmod := Nat.mod_le (e.sender * cfg.getPerBlockPacketCount + e.offset) (2 ^ 32)
      omega
    have hA : e.sender.val * cfg.getPerBlockPacketCount + cfg.getPerBlockPacketCount =
        cfg.nodes * cfg.getPerBlockPacketCount := by
      rw [← Nat.succ_mul, Nat.succ_eq_add_one, hlast]
    refine ⟨Fin.ext (by show e.sender.val = cfg.nodes - 1; omega), ?_, ?_⟩
    · omega
    · omega
  have hcount := packetCount_le hfact
  by_cases hsi : s = i
  · have hzero : packetCount cfg i ds (lastChunk cfg (cfg.nodes - 1)) = 0 := by
      refine List.countP_eq_zero.mpr fun e he hc => ?_
      simp only [decide_eq_true_eq] at hc
      exact (hin.other e he hc.1).1 (hsi ▸ (hfact e he hc.1 hc.2).1)
    omega
  · rw [hin.order s hsi] at hcount
    have hinterval := countP_range (cfg.getPerBlockPacketCount - cfg.getPerChunkPacketCount)
      (2 ^ 32 - (cfg.nodes * cfg.getPerBlockPacketCount - cfg.getPerBlockPacketCount))
      (offsets i s ds).length
    omega

/-- The exact condition. -/
structure LeavesOnTime (cfg : McastConfig) (i : Fin cfg.nodes) (ds : List (Delivery cfg.nodes)) :
    Prop where
  chains : 2 * cfg.roots ≤ cfg.nodes
  packets : cfg.nodes * cfg.getPerBlockPacketCount ≤ 2 ^ 32
  chunk : cfg.getPerChunkPacketCount < 2 ^ 31
  notLast : cfg.getChainOrder i ≠ .last
  last : ∃ ds₁ d, LastDelivery i ds ds₁ d ∧ cfg.getChainOrder d.sender = .last

theorem mem_lastBlocks {b : Nat} (hb : b < cfg.nodes) (hlast : cfg.getChainOrder b = .last) :
    b ∈ cfg.lastBlocks :=
  Finset.mem_filter.mpr ⟨Finset.mem_range.mpr hb, hlast⟩

/-- The node with the highest number ends the last chain. -/
theorem getChainOrder_top (hr : 1 ≤ cfg.roots) (hrn : cfg.roots ≤ cfg.nodes)
    (hchains : 2 * cfg.roots ≤ cfg.nodes) : cfg.getChainOrder (cfg.nodes - 1) = .last := by
  have hwide := McastConfig.chainStart_add_le hr hchains (cfg.roots - 1)
  rw [Nat.sub_add_cancel hr, McastConfig.chainStart_roots hr] at hwide
  refine (McastConfig.getChainOrder_eq_last hr hrn (by omega)).mpr
    ⟨cfg.roots - 1, by omega, ?_, by omega⟩
  rw [Nat.sub_add_cancel hr, McastConfig.chainStart_roots hr]
  omega

theorem OnTime.leaves (hr : 1 ≤ cfg.roots) (hrn : cfg.roots ≤ cfg.nodes) (hl : LossFree cfg i ds)
    (h : OnTime cfg (deliveries cfg) i ds) : LeavesOnTime cfg i ds := by
  obtain ⟨ds₁, d, t, t', hlast, hrun, hst, hm, hrec, -⟩ := h
  have hin := hl.inOrder hlast
  have hoff := (hin.other d (List.mem_append_right _ List.mem_cons_self) hlast.receiver).2
  obtain ⟨hpos, hC⟩ := perBlock_pos hoff
  have hbounded := deliveries_bounded hr i (fun e he hei => (hin.other e he hei).2)
    (.snoc hrun hst)
  have hne : (t'.ring.node i).state ≠ .multicast := by
    rw [hrec]
    exact fun hc => nomatch hc
  obtain ⟨hint, hchains, hall⟩ := left_of_ne hr hrn hC hbounded hne
  have htop := getChainOrder_top hr hrn hchains
  have hpackets : cfg.nodes * cfg.getPerBlockPacketCount ≤ 2 ^ 32 := by
    by_contra hwrap
    have hcount := hall (cfg.nodes - 1) (mem_lastBlocks (by omega) htop)
    have hlt := packetCount_lt_of_wrap hin hpos hC hint (by omega)
    omega
  refine ⟨hchains, hpackets, hint, ?_, ds₁, d, hlast, ?_⟩
  · intro hi
    have hcount := hall i (mem_lastBlocks i.isLt hi)
    obtain ⟨e, he, hc⟩ := List.countP_pos_iff.mp (Nat.lt_of_lt_of_le hpos hcount)
    simp only [decide_eq_true_eq] at hc
    obtain ⟨hother, heoff⟩ := hin.other e he hc.1
    have hsender := getOriginalSender_chunkOf hpos hpackets heoff
    rw [hc.2, getOriginalSender_lastChunk hC] at hsender
    exact hother (Fin.ext hsender.symm)
  · obtain ⟨-, hcases⟩ := deliver_cases hst
    rw [hlast.receiver] at hcases
    rcases hcases with ⟨hne', -⟩ | ⟨-, hreceived⟩
    · exact absurd hm hne'
    · generalize t'.ring.node i = rt' at hreceived hrec
      generalize t'.progress i = mp' at hreceived
      cases hreceived with
      | packet =>
        rw [hm] at hrec
        cases hrec
      | chunk =>
        rw [show (marked _ _).state = _ from hm] at hrec
        cases hrec
      | chain =>
        rw [show (marked _ _).state = _ from hm] at hrec
        cases hrec
      | leave _ _ hend =>
        have horder := ((isLastChunkOfChain_iff hC).mp hend).1
        rwa [getOriginalSender_chunkOf hpos hpackets hoff] at horder

/-- Without the last packet of a block its last chunk is not complete. -/
theorem packetCount_lastChunk_lt (hpos : 0 < cfg.getPerChunkPacketCount)
    (hwrap : cfg.nodes * cfg.getPerBlockPacketCount ≤ 2 ^ 32) (hin : InOrder cfg i ds)
    {s : Fin cfg.nodes} (hs : offsets i s ds = List.range (cfg.getPerBlockPacketCount - 1)) :
    packetCount cfg i ds (lastChunk cfg s) < cfg.getPerChunkPacketCount := by
  have hfact : ∀ e ∈ ds, e.receiver = i → chunkOf cfg e = lastChunk cfg s → e.sender = s ∧
      cfg.getPerBlockPacketCount - cfg.getPerChunkPacketCount ≤ e.offset ∧
      e.offset < cfg.getPerBlockPacketCount := by
    intro e he hei hchunk
    have hoff := (hin.other e he hei).2
    have hC := (perBlock_pos hoff).2
    have hsender := getOriginalSender_chunkOf hpos hwrap hoff
    rw [hchunk, getOriginalSender_lastChunk hC] at hsender
    refine ⟨(Fin.ext hsender).symm, ?_, hoff⟩
    rw [chunkOf_eq hpos hwrap hoff, lastChunk, ← hsender] at hchunk
    have hle := Nat.div_mul_le_self e.offset cfg.getPerChunkPacketCount
    rw [Nat.add_left_cancel hchunk, Nat.mul_comm, Nat.mul_sub_one] at hle
    exact hle
  have hcount := packetCount_le hfact
  rw [hs] at hcount
  have hinterval := countP_range (cfg.getPerBlockPacketCount - cfg.getPerChunkPacketCount)
    cfg.getPerBlockPacketCount (cfg.getPerBlockPacketCount - 1)
  omega

/-- A node that has received all other blocks has nothing to recover. -/
theorem keys_buildToRecover_eq_nil {recv : List Bool}
    (h : ∀ c < cfg.getTotalChunkCount, recv.getD c false = true) :
    (cfg.buildToRecover recv).keys = [] := by
  refine List.eq_nil_iff_forall_not_mem.mpr fun b hb => ?_
  obtain ⟨c, hc, hmissed, -⟩ := AgConfig.mem_buildToRecover hb
  rw [h c hc] at hmissed
  cases hmissed

/-- Before the last delivery all chunks of the others are marked, apart from the last chunk of its
sender. -/
theorem Progress.marked_of_last {t : AgApps cfg.nodes} (h : Progress cfg i ds₁ t)
    (hl : LossFree cfg i ds) (hlast : LastDelivery i ds ds₁ d)
    (hpos : 0 < cfg.getPerChunkPacketCount) (hC : 0 < cfg.getPerBlockChunkCount) {c : Nat}
    (hc : c < cfg.getTotalChunkCount) (hci : cfg.getOriginalSender c ≠ i) :
    (t.ring.node i).recv.getD c false = true ∨ c = lastChunk cfg d.sender := by
  have hblock : cfg.getPerBlockPacketCount =
      cfg.getPerBlockChunkCount * cfg.getPerChunkPacketCount := Nat.mul_comm ..
  have hsplit : cfg.getOriginalSender c * cfg.getPerBlockChunkCount +
      c % cfg.getPerBlockChunkCount = c := by
    rw [AgConfig.getOriginalSender, Nat.mul_comm, Nat.div_add_mod]
  have hj := Nat.mod_lt c hC
  obtain ⟨s, hs⟩ : ∃ s : Fin cfg.nodes, s.val = cfg.getOriginalSender c :=
    ⟨⟨_, Nat.div_lt_of_lt_mul hc⟩, rfl⟩
  have hsi : s ≠ i := fun heq => hci (heq ▸ hs.symm)
  rw [← hs] at hsplit
  rw [← hsplit]
  by_cases hsd : s = d.sender
  · by_cases hend : c % cfg.getPerBlockChunkCount + 1 = cfg.getPerBlockChunkCount
    · right
      rw [lastChunk, ← hsd]
      omega
    · refine .inl (h.marks s hsi _ ?_)
      rw [hsd, (hl.last_offset hlast).1, List.length_range]
      have hle : (c % cfg.getPerBlockChunkCount + 1 + 1) * cfg.getPerChunkPacketCount ≤
          cfg.getPerBlockChunkCount * cfg.getPerChunkPacketCount :=
        Nat.mul_le_mul_right _ (by omega)
      rw [Nat.add_mul _ 1, Nat.one_mul] at hle
      omega
  · refine .inl (h.marks s hsi _ ?_)
    rw [hl.offsets_other hlast hsi hsd, List.length_range, hblock]
    exact Nat.mul_le_mul_right _ hj

theorem LeavesOnTime.onTime (hr : 1 ≤ cfg.roots) (hrn : cfg.roots ≤ cfg.nodes)
    (hl : LossFree cfg i ds) (h : LeavesOnTime cfg i ds) : OnTime cfg (deliveries cfg) i ds := by
  obtain ⟨hchains, hwrap, hint, hi, ds₁, d, hlast, horder⟩ := h
  have hin := hl.inOrder hlast
  obtain ⟨hs, hoff⟩ := hin.other d (List.mem_append_right _ List.mem_cons_self) hlast.receiver
  obtain ⟨hpos, hC⟩ := perBlock_pos hoff
  obtain ⟨hbefore, hend⟩ := hl.last_offset hlast
  obtain ⟨t, hrun⟩ := exists_run cfg ds₁
  obtain ⟨t', hst⟩ := exists_deliver cfg t d
  have hbounded := deliveries_bounded hr i (fun e he hei => (hin.init.other e he hei).2) hrun
  have hblock : cfg.getPerBlockPacketCount =
      cfg.getPerChunkPacketCount * cfg.getPerBlockChunkCount := rfl
  have hdiv : d.offset / cfg.getPerChunkPacketCount = cfg.getPerBlockChunkCount - 1 := by
    refine Nat.div_eq_of_lt_le ?_ ?_
    · rw [Nat.mul_comm, Nat.mul_sub_one, ← hblock]
      omega
    · rw [Nat.sub_add_cancel hC, Nat.mul_comm, ← hblock]
      exact hoff
  have hchunk : chunkOf cfg d = lastChunk cfg d.sender := by
    rw [chunkOf_eq hpos hwrap hoff, hdiv, lastChunk]
  have hmem := mem_lastBlocks d.sender.isLt horder
  -- before the delivery the chunk is not complete
  have hfew := packetCount_lastChunk_lt hpos hwrap hin.init hbefore
  have hm : (t.ring.node i).state = .multicast := by
    by_contra hne
    have hfull := (left_of_ne hr hrn hC hbounded hne).2.2 _ hmem
    omega
  have hnew : (t.ring.node i).recv.getD (chunkOf cfg d) false = false := by
    rw [hchunk, ← Bool.not_eq_true]
    intro hmarked
    have hfull := (hbounded.marked hm _ hmarked).1
    omega
  have hprogress := deliveries_progress hr hpos hint hwrap hin.init hrun hm
  have hfull : ((counted cfg (t.progress i) (chunkOf cfg d)).chunkProgresses
      (cfg.getOriginalSender (chunkOf cfg d))).pkts = cfg.getPerChunkPacketCount := by
    have hmod := Nat.div_add_mod d.offset cfg.getPerChunkPacketCount
    rw [hdiv, Nat.mul_sub_one, ← hblock] at hmod
    have hle : cfg.getPerChunkPacketCount ≤ cfg.getPerBlockPacketCount :=
      Nat.le_mul_of_pos_right _ hC
    rw [getOriginalSender_chunkOf hpos hwrap hoff,
      hprogress.counted_sender hpos hint hwrap hs hoff (hin.offset hlast.receiver), progressAfter]
    show ((d.offset % cfg.getPerChunkPacketCount + 1 : Nat) : Int) = _
    congr 1
    omega
  have hisLast : cfg.isLastChunkOfChain (chunkOf cfg d) = true := by
    refine (isLastChunkOfChain_iff hC).mpr ?_
    rw [hchunk, getOriginalSender_lastChunk hC]
    exact ⟨horder, rfl⟩
  have hmarked : ∀ c < cfg.getTotalChunkCount, cfg.getOriginalSender c ≠ i →
      (t.ring.node i).recv.getD c false = true ∨ c = chunkOf cfg d := by
    rw [hchunk]
    exact fun c => hprogress.marked_of_last hl hlast hpos hC
  have hroots : (t.progress i).completedChains + 1 = cfg.roots := by
    have hlt := (hbounded.chains hm).2
    have hcard := card_chainEnds_or (p := fun c => (t.ring.node i).recv.getD c false = true)
      (chunkOf_lt hoff) hisLast (by rw [hnew]; exact Bool.false_ne_true)
    rw [← (hbounded.chains hm).1] at hcard
    have hle := (roots_le_card_chainEnds hC hr hrn
      (p := fun c => (t.ring.node i).recv.getD c false = true ∨ c = chunkOf cfg d)).mpr
      ⟨hchains, ?_⟩
    · omega
    · intro b hb
      obtain ⟨hbn, hbl⟩ := Finset.mem_filter.mp hb
      refine hmarked _ (lastChunk_lt hC (Finset.mem_range.mp hbn)) ?_
      rw [getOriginalSender_lastChunk hC]
      rintro rfl
      exact hi hbl
  obtain ⟨-, hcases⟩ := deliver_cases hst
  rw [hlast.receiver] at hcases
  have hreceived := (hcases.resolve_left fun hc => hc.1 hm).2
  refine ⟨ds₁, d, t, t', hlast, hrun, hst, hm, ?_⟩
  generalize t'.ring.node i = rt' at hreceived ⊢
  generalize t'.progress i = mp' at hreceived
  cases hreceived with
  | packet hne => exact absurd hfull hne
  | chunk _ hold =>
    rw [hnew, hisLast] at hold
    cases hold
  | chain _ _ _ hne => exact absurd hroots hne
  | leave _ _ _ _ hrec hown hrecv hT =>
    refine ⟨hrec, ?_⟩
    rw [hT]
    refine keys_buildToRecover_eq_nil fun c hc => ?_
    have hlen : c < (marked (t.ring.node i) (chunkOf cfg d)).recv.length := by
      rw [marked, List.length_set, hbounded.length]
      exact hc
    rw [hrecv]
    by_cases hci : cfg.getOriginalSender c = i
    · exact AgRuntime.markOwn_own hlen (hci.trans hbounded.block.symm) hC
    · refine AgRuntime.getD_foldl_set hlen (.inl ((getD_set_iff ?_).mpr (hmarked c hc hci)))
      rw [hbounded.length]
      exact chunkOf_lt hoff

/-- With the immediate values that are asked for, a node leaves on time exactly if the condition
holds for it. It does not hold for all nodes at once: the last node of a chain does not receive the
chunk that ends it. -/
theorem onTime_iff (hn : 2 ≤ cfg.nodes) (hr : 1 ≤ cfg.roots) (hrn : cfg.roots ≤ cfg.nodes)
    {ds : List (Delivery cfg.nodes)} (hl : ∀ i, LossFree cfg i ds) :
    (∀ i, OnTime cfg (deliveries cfg) i ds ↔ LeavesOnTime cfg i ds) ∧
      ¬∀ i, LeavesOnTime cfg i ds := by
  constructor
  · exact fun i => ⟨fun h => h.leaves hr hrn (hl i), fun h => h.onTime hr hrn (hl i)⟩
  · intro h
    have hleaves := h ⟨cfg.nodes - 1, by omega⟩
    exact hleaves.notLast (getChainOrder_top hr hrn hleaves.chains)

/-- The packets of all blocks are received. -/
theorem LossFree.offset_lt (hl : ∀ i, LossFree cfg i ds) {d : Delivery cfg.nodes} (hd : d ∈ ds) :
    d.offset < cfg.getPerBlockPacketCount := by
  have hmem : d.offset ∈ offsets d.receiver d.sender ds :=
    List.mem_map.mpr ⟨d, List.mem_filter.mpr ⟨hd, by simp⟩, rfl⟩
  rw [(hl d.receiver).packets _ ((hl d.receiver).other d hd rfl)] at hmem
  exact List.mem_range.mp hmem

/-- No node leaves on time: all nodes are in the multicast phase after the last delivery, as they
are in every run of an allgather in which no timer has fired. With the immediate values that
`StartMulticast` asks for it would depend on the node and on the last delivery. -/
theorem never_onTime (cfg : McastConfig) (hn : 2 ≤ cfg.nodes) (hr : 1 ≤ cfg.roots)
    (hrn : cfg.roots ≤ cfg.nodes) (ds : List (Delivery cfg.nodes))
    (hl : ∀ i, LossFree cfg i ds) :
    (∀ i, ¬OnTime cfg (sentDeliveries cfg) i ds) ∧
    (∃ t, (sentDeliveries cfg).Run (initial cfg) ds t ∧
      ∀ i, (t.ring.node i).state = .multicast) ∧
    (∀ es t, (∀ e ∈ es, Untimed e) → (allgather cfg).Run (initial cfg) es t →
      ∀ i, (t.ring.node i).state = .multicast) ∧
    (∀ i, OnTime cfg (deliveries cfg) i ds ↔ LeavesOnTime cfg i ds) ∧
    ¬∀ i, LeavesOnTime cfg i ds := by
  refine ⟨?_, ?_, ?_, onTime_iff hn hr hrn hl⟩
  · rintro i ⟨ds₁, d, t, t', -, hrun, hst, -, hrecovery, -⟩
    have hall := sentDeliveries_allMulticast (.snoc hrun hst)
    rw [hall.state i] at hrecovery
    cases hrecovery
  · obtain ⟨t, ht⟩ := exists_sentDeliveries cfg fun d hd => LossFree.offset_lt hl hd
    exact ⟨t, ht, (sentDeliveries_allMulticast ht).state⟩
  · exact fun es t hes h => (allgather_onlyFirst hes h).state

/-- Both nodes receive the packet of the other one. -/
def pairDeliveries : List (Delivery pairConfig.nodes) := [⟨1, 0, 0⟩, ⟨0, 1, 0⟩]

theorem lossFree_pair (i : Fin pairConfig.nodes) : LossFree pairConfig i pairDeliveries := by
  refine ⟨?_, ?_⟩
  · revert i
    decide
  · revert i
    decide

theorem never_onTime_pair :
    (∃ t, (sentDeliveries pairConfig).Run (initial pairConfig) pairDeliveries t ∧
      ∀ i, (t.ring.node i).state = .multicast) ∧
    OnTime pairConfig (deliveries pairConfig) 0 pairDeliveries ∧
    ¬OnTime pairConfig (deliveries pairConfig) 1 pairDeliveries := by
  obtain ⟨-, hrun, -, hiff, -⟩ := never_onTime pairConfig (by decide) (by decide) (by decide)
    pairDeliveries lossFree_pair
  refine ⟨hrun, (hiff 0).mpr ⟨by decide, by decide, by decide, by decide, ?_⟩, fun h => ?_⟩
  · exact ⟨[⟨1, 0, 0⟩], ⟨0, 1, 0⟩, ⟨rfl, [], rfl, fun _ hd => nomatch hd⟩, rfl⟩
  · exact ((hiff 1).mp h).notLast rfl

/-- Both nodes have received all and stay in the multicast phase. -/
theorem both_left_out : (∀ i, LossFree pairConfig i pairDeliveries) ∧
    ¬OnTime pairConfig (sentDeliveries pairConfig) 0 pairDeliveries ∧ ∃ t,
      (sentDeliveries pairConfig).Run (initial pairConfig) pairDeliveries t ∧
      (t.ring.node 0).state = .multicast ∧ (t.ring.node 1).state = .multicast := by
  refine ⟨lossFree_pair, ?_, ?_⟩
  · rintro ⟨ds₁, d, t, t', -, hrun, hst, -, hrecovery, -⟩
    have hall := sentDeliveries_allMulticast (.snoc hrun hst)
    rw [hall.state 0] at hrecovery
    cases hrecovery
  · obtain ⟨t, ht, hst⟩ : ∃ t, (initial pairConfig).deliverSent pairConfig ⟨1, 0, 0⟩ = some t ∧
        ∃ t', t.deliverSent pairConfig ⟨0, 1, 0⟩ = some t' ∧
          (t'.ring.node 0).state = .multicast ∧ (t'.ring.node 1).state = .multicast :=
      ⟨_, rfl, _, rfl, rfl, rfl⟩
    obtain ⟨t', ht', hstates⟩ := hst
    exact ⟨t', .snoc (.snoc .nil ht) ht', hstates⟩

end OnTime

end AgApps
end Roce
