import Roce.Allgather.Deliveries

/-! # The multicast phase with losses

Of each sender a node remembers one chunk and how many of its packets it has received. As long as
the packets of each sender come in order this is enough: a chunk is marked exactly when all its
packets were received, whatever is lost and however the senders are interleaved. -/

namespace Roce
namespace AgApps

open Function

/-- The packets of each sender that the node `i` receives come in order. -/
structure InOrderWithLosses (cfg : McastConfig) (i : Fin cfg.nodes)
    (ds : List (Delivery cfg.nodes)) :
    Prop where
  offset_lt : ∀ d ∈ ds, d.receiver = i → d.offset < cfg.getPerBlockPacketCount
  order : ∀ s, (offsets i s ds).Pairwise (· < ·)

/-- All packets of a chunk were received by the node `i`. -/
def AllDelivered (cfg : McastConfig) (i : Fin cfg.nodes) (ds : List (Delivery cfg.nodes))
    (chunk : Nat) : Prop :=
  ∀ (s : Fin cfg.nodes) (off : Nat), off < cfg.getPerBlockPacketCount →
    s * cfg.getPerBlockChunkCount + off / cfg.getPerChunkPacketCount = chunk → off ∈ offsets i s ds

instance (cfg : McastConfig) (i : Fin cfg.nodes) (ds : List (Delivery cfg.nodes)) (chunk : Nat) :
    Decidable (AllDelivered cfg i ds chunk) :=
  inferInstanceAs (Decidable (∀ (s : Fin cfg.nodes), ∀ off < cfg.getPerBlockPacketCount,
    s * cfg.getPerBlockChunkCount + off / cfg.getPerChunkPacketCount = chunk →
      off ∈ offsets i s ds))

/-- How many packets of a sender the node `i` has received of a chunk. -/
def chunkCount (cfg : McastConfig) (i s : Fin cfg.nodes) (ds : List (Delivery cfg.nodes))
    (chunk : Nat) : Nat :=
  (offsets i s ds).countP fun off =>
    s * cfg.getPerBlockChunkCount + off / cfg.getPerChunkPacketCount = chunk

/-- What the node `i` remembers of each sender is the newest chunk of it, and what it has marked are
the chunks with all packets. -/
structure LossyProgress (cfg : McastConfig) (i : Fin cfg.nodes) (ds : List (Delivery cfg.nodes))
    (t : AgApps cfg.nodes) : Prop where
  length : (t.ring.node i).recv.length = cfg.getTotalChunkCount
  pkts : ∀ s : Fin cfg.nodes, ((t.progress i).chunkProgresses s).pkts =
    chunkCount cfg i s ds ((t.progress i).chunkProgresses s).chunk
  newest : ∀ s : Fin cfg.nodes, ∀ off ∈ offsets i s ds,
    s * cfg.getPerBlockChunkCount + off / cfg.getPerChunkPacketCount ≤
      ((t.progress i).chunkProgresses s).chunk
  seen : ∀ s : Fin cfg.nodes, ((t.progress i).chunkProgresses s).chunk = 0 ∨
    ∃ off ∈ offsets i s ds, s * cfg.getPerBlockChunkCount + off / cfg.getPerChunkPacketCount =
      ((t.progress i).chunkProgresses s).chunk
  marks : ∀ s : Fin cfg.nodes, ∀ j < cfg.getPerBlockChunkCount,
    (t.ring.node i).recv.getD (s * cfg.getPerBlockChunkCount + j) false = true ↔
      chunkCount cfg i s ds (s * cfg.getPerBlockChunkCount + j) = cfg.getPerChunkPacketCount

section
variable {cfg : McastConfig} {i s : Fin cfg.nodes} {ds : List (Delivery cfg.nodes)}
  {d : Delivery cfg.nodes} {t t' : AgApps cfg.nodes}

/-! ## The packets of a chunk -/

theorem InOrderWithLosses.init (h : InOrderWithLosses cfg i (ds ++ [d])) :
    InOrderWithLosses cfg i ds := by
  refine ⟨fun e he => h.offset_lt e (List.mem_append_left _ he), fun s => ?_⟩
  have horder := h.order s
  rw [offsets_snoc] at horder
  exact (List.pairwise_append.mp horder).1

theorem InOrderWithLosses.nodup (h : InOrderWithLosses cfg i ds) (s : Fin cfg.nodes) :
    (offsets i s ds).Nodup :=
  (h.order s).imp Nat.ne_of_lt

/-- The next packet of a sender comes after those that were received. -/
theorem InOrderWithLosses.lt_offset (h : InOrderWithLosses cfg i (ds ++ [d])) (hd : d.receiver = i)
    (hoff : off ∈ offsets i d.sender ds) : off < d.offset := by
  have horder := h.order d.sender
  rw [offsets_snoc, if_pos ⟨hd, rfl⟩] at horder
  exact (List.pairwise_append.mp horder).2.2 off hoff _ List.mem_cons_self

theorem chunkCount_snoc : chunkCount cfg i s (ds ++ [d]) c = chunkCount cfg i s ds c +
    if (d.receiver = i ∧ d.sender = s) ∧
      s * cfg.getPerBlockChunkCount + d.offset / cfg.getPerChunkPacketCount = c then 1 else 0 := by
  rw [chunkCount, offsets_snoc, List.countP_append, chunkCount]
  by_cases h : d.receiver = i ∧ d.sender = s
  · simp [h, List.countP_singleton]
  · simp [h]

/-- The packets of a block whose offsets lie in its chunk `j`. -/
theorem chunkCount_eq_countP (s : Fin cfg.nodes) (j : Nat) :
    chunkCount cfg i s ds (s * cfg.getPerBlockChunkCount + j) =
      (offsets i s ds).countP (· / cfg.getPerChunkPacketCount = j) := by
  simp [chunkCount]

theorem chunkCount_le (hpos : 0 < cfg.getPerChunkPacketCount) (h : InOrderWithLosses cfg i ds)
    (s : Fin cfg.nodes) (j : Nat) :
    chunkCount cfg i s ds (s * cfg.getPerBlockChunkCount + j) ≤ cfg.getPerChunkPacketCount := by
  rw [chunkCount_eq_countP]
  exact countP_div_le (h.nodup s) hpos

theorem getPerChunkPacketCount_le (hoff : off < cfg.getPerBlockPacketCount) (i : Fin cfg.nodes) :
    cfg.getPerChunkPacketCount ≤ cfg.nodes * cfg.getPerBlockPacketCount := by
  have hC : 0 < cfg.getPerBlockChunkCount := by
    refine Nat.pos_of_ne_zero fun h0 => ?_
    rw [McastConfig.getPerBlockPacketCount, h0, Nat.mul_zero] at hoff
    exact Nat.not_lt_zero _ hoff
  calc cfg.getPerChunkPacketCount
    _ ≤ cfg.getPerBlockPacketCount := Nat.le_mul_of_pos_right _ hC
    _ ≤ cfg.nodes * cfg.getPerBlockPacketCount :=
      Nat.le_mul_of_pos_left _ (Nat.zero_lt_of_lt i.isLt)

/-! ## One packet -/

/-- The progress of the sender after its next packet. -/
theorem LossyProgress.countPacket (h : LossyProgress cfg i ds t)
    (hpos : 0 < cfg.getPerChunkPacketCount) (hint : cfg.getPerChunkPacketCount < 2 ^ 31)
    (hin : InOrderWithLosses cfg i (ds ++ [d])) (hd : d.receiver = i)
    (hk : k = d.sender * cfg.getPerBlockChunkCount + d.offset / cfg.getPerChunkPacketCount) :
    AgRuntime.countPacket ((t.progress i).chunkProgresses d.sender) k =
      { chunk := k, pkts := (chunkCount cfg i d.sender ds k + 1 : Nat) } := by
  have hpkts := h.pkts d.sender
  by_cases hsame : ((t.progress i).chunkProgresses d.sender).chunk = k
  · have hle := chunkCount_le hpos hin d.sender (d.offset / cfg.getPerChunkPacketCount)
    rw [← hk, chunkCount_snoc, if_pos ⟨⟨hd, rfl⟩, hk.symm⟩] at hle
    rw [hsame] at hpkts
    rw [countPacket_same hsame, hpkts, hsame, bmod_eq (by omega) (by omega)]
    rfl
  · -- an older chunk was newest, so this one is not begun
    have hzero : chunkCount cfg i d.sender ds k = 0 := by
      refine List.countP_eq_zero.mpr fun off hoff heq => hsame ?_
      have heq := of_decide_eq_true heq
      have hnewest := h.newest d.sender off hoff
      rcases h.seen d.sender with h0 | ⟨off', hoff', hseen⟩
      · omega
      · have hdiv := Nat.div_le_div_right (c := cfg.getPerChunkPacketCount)
          (Nat.le_of_lt (hin.lt_offset hd hoff'))
        omega
    rw [countPacket_new hsame, hzero]
    rfl

theorem eq_of_block_eq {s s' : Fin cfg.nodes} {j j' : Nat} (hj : j < cfg.getPerBlockChunkCount)
    (hj' : j' < cfg.getPerBlockChunkCount)
    (h : s * cfg.getPerBlockChunkCount + j = s' * cfg.getPerBlockChunkCount + j') :
    s = s' ∧ j = j' := by
  have hs : s.val = s'.val :=
    (getOriginalSender_eq hj).symm.trans ((congrArg _ h).trans (getOriginalSender_eq hj'))
  rw [hs] at h
  exact ⟨Fin.ext hs, Nat.add_left_cancel h⟩

/-- The counters and the marks after the next packet of a sender. -/
theorem LossyProgress.snoc (h : LossyProgress cfg i ds t) (hpos : 0 < cfg.getPerChunkPacketCount)
    (hint : cfg.getPerChunkPacketCount < 2 ^ 31)
    (hwrap : cfg.nodes * cfg.getPerBlockPacketCount ≤ 2 ^ 32)
    (hin : InOrderWithLosses cfg i (ds ++ [d])) (hd : d.receiver = i)
    (hprogress : (t'.progress i).chunkProgresses =
      (counted cfg (t.progress i) (chunkOf cfg d)).chunkProgresses)
    (hlength : (t'.ring.node i).recv.length = cfg.getTotalChunkCount)
    (hother : ∀ c, c ≠ chunkOf cfg d →
      (t'.ring.node i).recv.getD c false = (t.ring.node i).recv.getD c false)
    (hmark : (t'.ring.node i).recv.getD (chunkOf cfg d) false = true ↔
      chunkCount cfg i d.sender (ds ++ [d]) (chunkOf cfg d) = cfg.getPerChunkPacketCount) :
    LossyProgress cfg i (ds ++ [d]) t' := by
  have hoff := hin.offset_lt d (List.mem_append_right _ List.mem_cons_self) hd
  have hchunk := chunkOf_eq hpos hwrap hoff
  have hself : (t'.progress i).chunkProgresses d.sender = { chunk := chunkOf cfg d, pkts :=
      (chunkCount cfg i d.sender (ds ++ [d]) (chunkOf cfg d) : Nat) } := by
    rw [hprogress, counted, getOriginalSender_chunkOf hpos hwrap hoff, chunkCount_snoc,
      if_pos ⟨⟨hd, rfl⟩, hchunk.symm⟩]
    simp only [update_self]
    exact h.countPacket hpos hint hin hd hchunk
  have hframe : ∀ s, s ≠ d.sender → (t'.progress i).chunkProgresses s =
      (t.progress i).chunkProgresses s ∧ offsets i s (ds ++ [d]) = offsets i s ds := by
    intro s hs
    rw [hprogress, counted, getOriginalSender_chunkOf hpos hwrap hoff, offsets_snoc,
      if_neg fun hc => hs hc.2.symm, List.append_nil]
    exact ⟨update_of_ne (fun heq => hs (Fin.ext heq)) .., rfl⟩
  have hmem : ∀ off, off ∈ offsets i d.sender (ds ++ [d]) ↔
      off ∈ offsets i d.sender ds ∨ off = d.offset := by
    intro off
    rw [offsets_snoc, if_pos ⟨hd, rfl⟩, List.mem_append, List.mem_singleton]
  constructor
  case length => exact hlength
  case pkts =>
    intro s
    by_cases hs : s = d.sender
    · rw [hs, hself]
    · rw [(hframe s hs).1, chunkCount, (hframe s hs).2]
      exact h.pkts s
  case newest =>
    intro s off hmem'
    by_cases hs : s = d.sender
    · subst hs
      rw [hself]
      show _ ≤ chunkOf cfg d
      rw [hchunk]
      refine Nat.add_le_add_left (Nat.div_le_div_right ?_) _
      rcases (hmem off).mp hmem' with hold | rfl
      · exact Nat.le_of_lt (hin.lt_offset hd hold)
      · exact Nat.le_refl _
    · rw [(hframe s hs).2] at hmem'
      rw [(hframe s hs).1]
      exact h.newest s off hmem'
  case seen =>
    intro s
    by_cases hs : s = d.sender
    · subst hs
      rw [hself]
      exact .inr ⟨d.offset, (hmem _).mpr (.inr rfl), hchunk.symm⟩
    · rw [(hframe s hs).1, (hframe s hs).2]
      exact h.seen s
  case marks =>
    intro s j hj
    by_cases hnew : s * cfg.getPerBlockChunkCount + j = chunkOf cfg d
    · obtain ⟨rfl, -⟩ := eq_of_block_eq hj (div_lt_perBlock hoff) (hnew.trans hchunk)
      rw [hnew]
      exact hmark
    · rw [hother _ hnew, chunkCount_snoc, if_neg, Nat.add_zero]
      · exact h.marks s j hj
      · rintro ⟨⟨-, rfl⟩, heq⟩
        exact hnew (heq.symm.trans hchunk.symm)

theorem LossyProgress.step (hpos : 0 < cfg.getPerChunkPacketCount)
    (htotal : cfg.nodes * cfg.getPerBlockPacketCount < 2 ^ 31)
    (hin : InOrderWithLosses cfg i (ds ++ [d]))
    (h : (t.ring.node i).state = .multicast → LossyProgress cfg i ds t)
    (hst : t.deliver cfg d = some t') (hm' : (t'.ring.node i).state = .multicast) :
    LossyProgress cfg i (ds ++ [d]) t' := by
  obtain ⟨hframe, hcases⟩ := deliver_cases hst
  by_cases hd : d.receiver = i
  · have hoff := hin.offset_lt d (List.mem_append_right _ List.mem_cons_self) hd
    have hint : cfg.getPerChunkPacketCount < 2 ^ 31 :=
      Nat.lt_of_le_of_lt (getPerChunkPacketCount_le hoff i) htotal
    have hwrap : cfg.nodes * cfg.getPerBlockPacketCount ≤ 2 ^ 32 := by omega
    have hchunk := chunkOf_eq hpos hwrap hoff
    have hsender := getOriginalSender_chunkOf hpos hwrap hoff
    rw [hd] at hcases
    rcases hcases with ⟨hne, rfl⟩ | ⟨hm, hrec⟩
    · exact absurd hm' hne
    · have hold := h hm
      have hlt : chunkOf cfg d < (t.ring.node i).recv.length := hold.length ▸ chunkOf_lt hoff
      have hcount : chunkCount cfg i d.sender (ds ++ [d]) (chunkOf cfg d) =
          chunkCount cfg i d.sender ds (chunkOf cfg d) + 1 := by
        rw [chunkCount_snoc, if_pos ⟨⟨hd, rfl⟩, hchunk.symm⟩]
      have hpkts : ((counted cfg (t.progress i) (chunkOf cfg d)).chunkProgresses
          (cfg.getOriginalSender (chunkOf cfg d))).pkts =
          chunkCount cfg i d.sender (ds ++ [d]) (chunkOf cfg d) := by
        rw [counted, hsender, hcount]
        simp only [update_self]
        rw [hold.countPacket hpos hint hin hd hchunk]
      -- a chunk that is complete is marked
      have hcomplete : ((counted cfg (t.progress i) (chunkOf cfg d)).chunkProgresses
          (cfg.getOriginalSender (chunkOf cfg d))).pkts = cfg.getPerChunkPacketCount →
          (t'.ring.node i).recv = (t.ring.node i).recv.set (chunkOf cfg d) true →
          (t'.progress i).chunkProgresses =
            (counted cfg (t.progress i) (chunkOf cfg d)).chunkProgresses →
          LossyProgress cfg i (ds ++ [d]) t' := by
        intro hall hrecv hprogress
        rw [hpkts] at hall
        refine hold.snoc hpos hint hwrap hin hd hprogress ?_ (fun c hc => ?_) ?_
        · rw [hrecv]
          exact List.length_set.trans hold.length
        · rw [hrecv, List.getD_eq_getElem?_getD, List.getElem?_set_ne (Ne.symm hc),
            ← List.getD_eq_getElem?_getD]
        · rw [hrecv, getD_set_iff hlt]
          exact iff_of_true (.inr rfl) (Int.ofNat_inj.mp hall)
      generalize hnode : t'.ring.node i = rt' at hrec hcomplete
      generalize hprogress : t'.progress i = mp' at hrec hcomplete
      cases hrec with
      | packet hpart =>
        refine hold.snoc hpos hint hwrap hin hd (by rw [hprogress])
          (by rw [hnode]; exact hold.length) (fun c _ => by rw [hnode]) ?_
        -- the chunk was not complete before, and it is not complete now
        have hmark := hold.marks d.sender _ (div_lt_perBlock hoff)
        have hle := chunkCount_le hpos hin d.sender (d.offset / cfg.getPerChunkPacketCount)
        rw [← hchunk] at hmark hle
        rw [hpkts] at hpart
        rw [hnode, hmark]
        omega
      | chunk hall => exact hcomplete hall rfl rfl
      | chain hall => exact hcomplete hall rfl rfl
      | leave hall hnew hlast hroots hst' =>
        rw [hnode, hst'] at hm'
        cases hm'
  · obtain ⟨hnode, hprogress⟩ := hframe i (Ne.symm hd)
    have hsame : ∀ s, offsets i s (ds ++ [d]) = offsets i s ds := by
      intro s
      rw [offsets_snoc, if_neg fun hc => hd hc.1, List.append_nil]
    obtain ⟨hlength, hpkts, hnewest, hseen, hmarks⟩ := h (hnode ▸ hm')
    constructor
    case length => exact hnode ▸ hlength
    case pkts => simpa only [hprogress, chunkCount, hsame] using hpkts
    case newest => simpa only [hprogress, hsame] using hnewest
    case seen => simpa only [hprogress, hsame] using hseen
    case marks => simpa only [hnode, chunkCount, hsame] using hmarks

/-! ## All packets -/

theorem initial_lossyProgress (hpos : 0 < cfg.getPerChunkPacketCount) :
    LossyProgress cfg i [] (initial cfg) := by
  constructor
  case length => exact List.length_replicate
  case pkts => exact fun _ => rfl
  case newest => exact fun _ _ hoff => absurd hoff List.not_mem_nil
  case seen => exact fun _ => .inl rfl
  case marks =>
    intro s j _
    rw [initial_recv]
    exact iff_of_false Bool.false_ne_true fun hzero => Nat.ne_of_lt hpos hzero

/-- **The run lemma**, for packets in order with losses. -/
theorem deliveries_lossyProgress (hpos : 0 < cfg.getPerChunkPacketCount)
    (htotal : cfg.nodes * cfg.getPerBlockPacketCount < 2 ^ 31) (hin : InOrderWithLosses cfg i ds)
    (h : (deliveries cfg).Run (initial cfg) ds t) (hm : (t.ring.node i).state = .multicast) :
    LossyProgress cfg i ds t := by
  refine h.history (I := fun ds t => InOrderWithLosses cfg i ds →
    (t.ring.node i).state = .multicast → LossyProgress cfg i ds t)
    (fun _ _ => initial_lossyProgress hpos) ?_ hin hm
  intro ds t d t' _ ih hst hin hm'
  exact LossyProgress.step hpos htotal hin (ih hin.init) hst hm'

theorem chunkCount_eq_iff (hpos : 0 < cfg.getPerChunkPacketCount) (h : InOrderWithLosses cfg i ds)
    (hj : j < cfg.getPerBlockChunkCount) :
    chunkCount cfg i s ds (s * cfg.getPerBlockChunkCount + j) = cfg.getPerChunkPacketCount ↔
      AllDelivered cfg i ds (s * cfg.getPerBlockChunkCount + j) := by
  rw [chunkCount_eq_countP, countP_div_eq_iff (h.nodup s) hpos]
  constructor
  · intro hall s' off hoff heq
    obtain ⟨rfl, hdiv⟩ := eq_of_block_eq (div_lt_perBlock hoff) hj heq
    exact hall off hdiv
  · rintro hall off rfl
    refine hall s off ?_ rfl
    rw [McastConfig.getPerBlockPacketCount, Nat.mul_comm]
    exact (Nat.div_lt_iff_lt_mul hpos).mp hj

/-- There is no chunk without packets. -/
theorem getPerChunkPacketCount_pos (hmtu : 0 < cfg.mtu) (hc : c < cfg.getTotalChunkCount) :
    0 < cfg.getPerChunkPacketCount := by
  rcases Nat.eq_zero_or_pos cfg.csize with hzero | hcsize
  · have hnone : cfg.getPerNodeSegmentCount = 0 := by
      rw [AgConfig.getPerNodeSegmentCount, hzero, ceilDiv, ceilDiv, Nat.div_zero, Nat.zero_add]
      rcases Nat.eq_zero_or_pos cfg.sdata with h0 | hsdata
      · rw [h0]
      · exact Nat.div_eq_of_lt (Nat.sub_lt hsdata Nat.one_pos)
    rw [AgConfig.getTotalChunkCount, AgConfig.getPerBlockChunkCount, hnone, Nat.zero_mul,
      Nat.zero_mul] at hc
    exact absurd hc (Nat.not_lt_zero _)
  · exact Nat.div_pos (by omega) hmtu

/-- **The progress of the chunks is exact.** While a node is in the multicast phase, a chunk is
marked if and only if all its packets were received. -/
theorem recv_iff_allDelivered (hmtu : 0 < cfg.mtu)
    (htotal : cfg.nodes * cfg.getPerBlockPacketCount < 2 ^ 31) (hin : InOrderWithLosses cfg i ds)
    (h : (deliveries cfg).Run (initial cfg) ds t) (hm : (t.ring.node i).state = .multicast)
    (hc : c < cfg.getTotalChunkCount) :
    (t.ring.node i).recv.getD c false = true ↔ AllDelivered cfg i ds c := by
  have hpos := getPerChunkPacketCount_pos hmtu hc
  have hsender : c / cfg.getPerBlockChunkCount < cfg.nodes := Nat.div_lt_of_lt_mul hc
  have hplace : c % cfg.getPerBlockChunkCount < cfg.getPerBlockChunkCount := by
    refine Nat.mod_lt _ (Nat.pos_of_ne_zero fun h0 => ?_)
    rw [AgConfig.getTotalChunkCount, h0, Nat.zero_mul] at hc
    exact Nat.not_lt_zero _ hc
  have hsplit := Nat.div_add_mod c cfg.getPerBlockChunkCount
  rw [Nat.mul_comm] at hsplit
  have hmark := (deliveries_lossyProgress hpos htotal hin h hm).marks
    ⟨c / cfg.getPerBlockChunkCount, hsender⟩ (c % cfg.getPerBlockChunkCount) hplace
  rw [chunkCount_eq_iff hpos hin hplace, hsplit] at hmark
  exact hmark

end

/-- Two nodes with two chunks of two packets each. -/
abbrev twoChunks : McastConfig := { nodes := 2, pernode := 4, csize := 2, mtu := 1 }

/-- The first packet of all is lost. -/
theorem recv_iff_allDelivered_lost : ∃ t, (deliveries twoChunks).Run (initial twoChunks)
      [⟨1, 0, 1⟩, ⟨1, 0, 2⟩, ⟨1, 0, 3⟩] t ∧
    (t.ring.node 1).recv.getD 0 false = false ∧ (t.ring.node 1).recv.getD 1 false = true := by
  obtain ⟨t, hrun⟩ := exists_run twoChunks [⟨1, 0, 1⟩, ⟨1, 0, 2⟩, ⟨1, 0, 3⟩]
  have hin : InOrderWithLosses twoChunks 1 [⟨1, 0, 1⟩, ⟨1, 0, 2⟩, ⟨1, 0, 3⟩] :=
    ⟨by decide, by decide⟩
  have hm : (t.ring.node 1).state = .multicast := by
    by_contra hne
    have hroots := ((deliveries_bounded (by decide) 1 (by decide) hrun).left hne).2
    exact absurd hroots (by decide +kernel)
  have hfirst := recv_iff_allDelivered (c := 0) (by decide) (by decide) hin hrun hm (by decide)
  have hsecond := recv_iff_allDelivered (c := 1) (by decide) (by decide) hin hrun hm (by decide)
  refine ⟨t, hrun, ?_, hsecond.mpr (by decide)⟩
  rw [← Bool.not_eq_true, hfirst]
  decide

end AgApps
end Roce
