import Roce.Lib.Count
import Roce.Allgather.HandOver

/-! # The deliveries of the multicast phase

What a node has counted and marked after some multicast packets, each with the immediate value that
`StartMulticast` asks for: a chunk is marked only if all its packets were received (`Bounded`), and
it is marked if they were received in order (`Progress`). -/

namespace Roce
namespace AgApps

open Function

/-- A multicast packet that is received: the `offset`-th packet of the block of `sender`. -/
structure Delivery (n : Nat) where
  receiver : Fin n
  sender : Fin n
  offset : Nat

/-- The callback of the receiver, for a packet with the immediate value of `GetMcastImmData`. -/
def deliver (cfg : McastConfig) (t : AgApps cfg.nodes) (d : Delivery cfg.nodes) :
    Option (AgApps cfg.nodes) :=
  t.onRecvMcast cfg d.receiver (cfg.getMcastImmData d.sender d.offset)

/-- The deliveries of the multicast phase, in any order. -/
def deliveries (cfg : McastConfig) : Machine (AgApps cfg.nodes) (Delivery cfg.nodes) :=
  ⟨(· = initial cfg), fun t d t' => t.deliver cfg d = some t'⟩

/-- The packets of the block of `s` that the node `i` receives. -/
def offsets (i s : Fin n) (ds : List (Delivery n)) : List Nat :=
  (ds.filter fun d => d.receiver = i ∧ d.sender = s).map (·.offset)

/-! ## One packet -/

variable {cfg : McastConfig}

/-- The node after it has marked a chunk. -/
def marked (rt : AgRuntime) (chunk : Nat) : AgRuntime :=
  { rt with recv := rt.recv.set chunk true }

/-- The counters after a packet of a chunk. -/
def counted (cfg : McastConfig) (mp : McastProgress) (chunk : Nat) : McastProgress :=
  { mp with
    chunkProgresses := update mp.chunkProgresses (cfg.getOriginalSender chunk)
      (AgRuntime.countPacket (mp.chunkProgresses (cfg.getOriginalSender chunk)) chunk) }

/-- What `NotifyReceivePacket` does with a packet of a chunk, in the multicast phase. -/
inductive Received (cfg : McastConfig) (rt : AgRuntime) (mp : McastProgress) (chunk : Nat) :
    AgRuntime → McastProgress → Prop
  | packet : ((counted cfg mp chunk).chunkProgresses (cfg.getOriginalSender chunk)).pkts ≠
      cfg.getPerChunkPacketCount → Received cfg rt mp chunk rt (counted cfg mp chunk)
  | chunk : ((counted cfg mp chunk).chunkProgresses (cfg.getOriginalSender chunk)).pkts =
      cfg.getPerChunkPacketCount →
    (!rt.recv.getD chunk false && cfg.isLastChunkOfChain chunk) = false →
    Received cfg rt mp chunk (marked rt chunk) (counted cfg mp chunk)
  | chain : ((counted cfg mp chunk).chunkProgresses (cfg.getOriginalSender chunk)).pkts =
      cfg.getPerChunkPacketCount →
    rt.recv.getD chunk false = false → cfg.isLastChunkOfChain chunk = true →
    mp.completedChains + 1 ≠ cfg.roots →
    Received cfg rt mp chunk (marked rt chunk)
      { counted cfg mp chunk with completedChains := mp.completedChains + 1 }
  | leave : ((counted cfg mp chunk).chunkProgresses (cfg.getOriginalSender chunk)).pkts =
      cfg.getPerChunkPacketCount →
    rt.recv.getD chunk false = false → cfg.isLastChunkOfChain chunk = true →
    mp.completedChains + 1 = cfg.roots → rt'.state = .recovery → rt'.block = rt.block →
    rt'.recv = AgRuntime.markOwn cfg.toAgConfig rt.block (marked rt chunk).recv →
    rt'.toRecover = cfg.buildToRecover rt'.recv →
    Received cfg rt mp chunk rt'
      { counted cfg mp chunk with completedChains := mp.completedChains + 1 }

theorem notifyReceivePacket_received (cfg : McastConfig) {rt : AgRuntime} (mp : McastProgress)
    (sh : AgShared) (hst : rt.state = .multicast) (p : Nat) : ∃ rt' mp' sh' ready,
      rt.notifyReceivePacket cfg mp sh p = some (rt', mp', sh', ready) ∧
      Received cfg rt mp (p % 2 ^ 32 / cfg.getPerChunkPacketCount) rt' mp' := by
  rw [AgRuntime.notifyReceivePacket, if_neg (not_not.mpr hst)]
  simp only [McastConfig.parseMcastImmData]
  obtain ⟨chunk, hchunk⟩ : ∃ chunk, p % 2 ^ 32 / cfg.getPerChunkPacketCount = chunk := ⟨_, rfl⟩
  simp only [hchunk]
  have hself : (counted cfg mp chunk).chunkProgresses (cfg.getOriginalSender chunk) =
      AgRuntime.countPacket (mp.chunkProgresses (cfg.getOriginalSender chunk)) chunk :=
    update_self ..
  split
  next hpkts =>
    rw [AgRuntime.markChunkAsReceived, if_pos hst]
    simp only [Option.bind_eq_bind, Option.bind_some, AgRuntime.completeChunk]
    cases hnew : !rt.recv.getD chunk false && cfg.isLastChunkOfChain chunk
    · exact ⟨_, _, _, _, rfl, .chunk (hself ▸ hpkts) hnew⟩
    · rw [Bool.and_eq_true, Bool.not_eq_true'] at hnew
      obtain ⟨hnew, hlast⟩ := hnew
      simp only [↓reduceIte]
      rw [AgRuntime.completeChain, if_pos hst]
      simp only
      split
      next hroots =>
        rw [AgRuntime.transitionToRecovery, if_pos hst]
        exact ⟨_, _, _, _, rfl, .leave (hself ▸ hpkts) hnew hlast hroots rfl rfl rfl rfl⟩
      next hroots => exact ⟨_, _, _, _, rfl, .chain (hself ▸ hpkts) hnew hlast hroots⟩
  next hpkts => exact ⟨_, _, _, _, rfl, .packet (hself ▸ hpkts)⟩

/-- The chunk that a packet is counted for. -/
def chunkOf (cfg : McastConfig) (d : Delivery n) : Nat :=
  cfg.getMcastImmData d.sender d.offset / cfg.getPerChunkPacketCount

/-- A delivery changes one node, and is a packet of `chunkOf` for it. -/
theorem deliver_cases {t t' : AgApps cfg.nodes} {d : Delivery cfg.nodes}
    (h : t.deliver cfg d = some t') : (∀ k, k ≠ d.receiver →
      t'.ring.node k = t.ring.node k ∧ t'.progress k = t.progress k) ∧
    ((t.ring.node d.receiver).state ≠ .multicast ∧ t' = t ∨
      (t.ring.node d.receiver).state = .multicast ∧
        Received cfg (t.ring.node d.receiver) (t.progress d.receiver) (chunkOf cfg d)
          (t'.ring.node d.receiver) (t'.progress d.receiver)) := by
  unfold deliver onRecvMcast at h
  split at h
  next hst =>
    rw [Option.some.injEq] at h
    exact ⟨fun _ _ => h ▸ ⟨rfl, rfl⟩, .inl ⟨hst, h.symm⟩⟩
  next hst =>
    rw [not_not] at hst
    obtain ⟨rt, mp, sh, ready, heq, hrec⟩ := notifyReceivePacket_received cfg
      (t.progress d.receiver) t.ring.shared hst (cfg.getMcastImmData d.sender d.offset)
    rw [show cfg.getMcastImmData d.sender d.offset % 2 ^ 32 = cfg.getMcastImmData d.sender d.offset
      from Nat.mod_mod ..] at hrec
    simp only [heq, Option.bind_eq_bind, Option.bind_some, Option.pure_def] at h
    have hview : (∀ k, t'.ring.node k = update t.ring.node d.receiver rt k) ∧
        t'.progress = update t.progress d.receiver mp := by
      split at h
      · rw [← Option.some.inj h]
        exact ⟨fun _ => rfl, rfl⟩
      · rw [← Option.some.inj h]
        exact ⟨fun _ => rfl, rfl⟩
    obtain ⟨hnode, hprogress⟩ := hview
    refine ⟨fun k hk => ?_, .inr ⟨hst, ?_⟩⟩
    · rw [hnode, hprogress, update_of_ne hk, update_of_ne hk]
      exact ⟨rfl, rfl⟩
    · rw [hnode, hprogress, update_self, update_self]
      exact hrec

theorem exists_deliver (cfg : McastConfig) (t : AgApps cfg.nodes) (d : Delivery cfg.nodes) :
    ∃ t', t.deliver cfg d = some t' := by
  unfold deliver onRecvMcast
  split
  next => exact ⟨t, rfl⟩
  next hst =>
    rw [not_not] at hst
    obtain ⟨rt, mp, sh, ready, heq, -⟩ := notifyReceivePacket_received cfg
      (t.progress d.receiver) t.ring.shared hst (cfg.getMcastImmData d.sender d.offset)
    simp only [heq, Option.bind_eq_bind, Option.bind_some, Option.pure_def]
    split
    · exact ⟨_, rfl⟩
    · exact ⟨_, rfl⟩

/-- No delivery fails. -/
theorem exists_run (cfg : McastConfig) (ds : List (Delivery cfg.nodes)) :
    ∃ t, (deliveries cfg).Run (initial cfg) ds t := by
  induction ds using List.reverseRecOn with
  | nil => exact ⟨_, .nil⟩
  | append_singleton ds d ih =>
    obtain ⟨t, ht⟩ := ih
    obtain ⟨t', ht'⟩ := exists_deliver cfg t d
    exact ⟨t', .snoc ht ht'⟩

/-! ## How many packets a marked chunk takes -/

/-- How many packets the node `i` has received of a chunk. -/
def packetCount (cfg : McastConfig) (i : Fin cfg.nodes) (ds : List (Delivery cfg.nodes))
    (chunk : Nat) : Nat :=
  ds.countP fun d => d.receiver = i ∧ chunkOf cfg d = chunk

theorem packetCount_snoc {i : Fin cfg.nodes} {ds : List (Delivery cfg.nodes)}
    {d : Delivery cfg.nodes} : packetCount cfg i (ds ++ [d]) c = packetCount cfg i ds c +
      if d.receiver = i ∧ chunkOf cfg d = c then 1 else 0 := by
  simp [packetCount, List.countP_append, List.countP_singleton]

theorem packetCount_le_snoc {i : Fin cfg.nodes} {ds : List (Delivery cfg.nodes)}
    {d : Delivery cfg.nodes} : packetCount cfg i ds c ≤ packetCount cfg i (ds ++ [d]) c := by
  rw [packetCount_snoc]
  exact Nat.le_add_right ..

/-- The chunks that end a chain and satisfy `p`. -/
def chainEnds (cfg : McastConfig) (p : Nat → Prop) [DecidablePred p] : Finset Nat :=
  (Finset.range cfg.getTotalChunkCount).filter fun c => cfg.isLastChunkOfChain c ∧ p c

/-- The value of an `int` does not grow when it wraps. -/
theorem bmod_le {x : Int} (h : -2 ^ 31 ≤ x) : x.bmod (2 ^ 32) ≤ x := by
  simp only [Int.bmod]
  omega

/-- What holds of the node `i` after the deliveries `ds`. -/
structure Bounded (cfg : McastConfig) (i : Fin cfg.nodes) (ds : List (Delivery cfg.nodes))
    (t : AgApps cfg.nodes) : Prop where
  block : (t.ring.node i).block = i.val
  length : (t.ring.node i).recv.length = cfg.getTotalChunkCount
  range : ∀ s, -2 ^ 31 ≤ ((t.progress i).chunkProgresses s).pkts ∧
    ((t.progress i).chunkProgresses s).pkts < 2 ^ 31
  pkts : ∀ s, ((t.progress i).chunkProgresses s).pkts ≤
    packetCount cfg i ds ((t.progress i).chunkProgresses s).chunk
  marked : (t.ring.node i).state = .multicast → ∀ c, (t.ring.node i).recv.getD c false = true →
    cfg.getPerChunkPacketCount ≤ packetCount cfg i ds c ∧ cfg.getPerChunkPacketCount < 2 ^ 31
  chains : (t.ring.node i).state = .multicast → (t.progress i).completedChains =
    (chainEnds cfg fun c => (t.ring.node i).recv.getD c false = true).card ∧
    (t.progress i).completedChains < cfg.roots
  left : (t.ring.node i).state ≠ .multicast → cfg.getPerChunkPacketCount < 2 ^ 31 ∧ cfg.roots ≤
    (chainEnds cfg fun c => cfg.getPerChunkPacketCount ≤ packetCount cfg i ds c).card

/-- Nothing is received at first. -/
theorem initial_recv (i : Fin cfg.nodes) (c : Nat) :
    ((initial cfg).ring.node i).recv.getD c false = false := by
  show (List.replicate cfg.getTotalChunkCount false).getD c false = false
  rw [List.getD_eq_getElem?_getD, List.getElem?_replicate]
  split <;> rfl

theorem initial_bounded (hr : 1 ≤ cfg.roots) (i : Fin cfg.nodes) :
    Bounded cfg i [] (initial cfg) := by
  constructor
  case block => exact rfl
  case length => exact List.length_replicate
  case range =>
    refine fun _ => ⟨?_, ?_⟩
    · show -2 ^ 31 ≤ (0 : Int)
      decide
    · show (0 : Int) < 2 ^ 31
      decide
  case pkts => exact fun _ => Int.natCast_nonneg _
  case marked =>
    intro _ c hc
    rw [initial_recv] at hc
    cases hc
  case chains =>
    refine fun _ => ⟨?_, hr⟩
    refine (Finset.card_eq_zero.mpr (Finset.filter_eq_empty_iff.mpr fun c _ hc => ?_)).symm
    have hrecv : ((initial cfg).ring.node i).recv.getD c false = true := hc.2
    rw [initial_recv] at hrecv
    cases hrecv
  case left => exact fun h => absurd rfl h

theorem getD_set_iff {l : List Bool} {k c : Nat} (hk : k < l.length) :
    (l.set k true).getD c false = true ↔ l.getD c false = true ∨ c = k := by
  rw [List.getD_eq_getElem?_getD, List.getElem?_set]
  by_cases hkc : k = c
  · simp [hkc, hkc ▸ hk]
  · rw [if_neg hkc, ← List.getD_eq_getElem?_getD]
    simp [Ne.symm hkc]

/-- A chunk that is marked is new or it was marked before. -/
theorem chainEnds_set {l : List Bool} {k : Nat} (hk : k < l.length) :
    (chainEnds cfg fun c => (l.set k true).getD c false = true) =
      chainEnds cfg fun c => l.getD c false = true ∨ c = k := by
  unfold chainEnds
  simp only [getD_set_iff hk]

/-- A chunk that ends a chain counts once. -/
theorem card_chainEnds_or {p : Nat → Prop} [DecidablePred p] {k : Nat}
    (hk : k < cfg.getTotalChunkCount) (hlast : cfg.isLastChunkOfChain k = true) (hp : ¬p k) :
    (chainEnds cfg fun c => p c ∨ c = k).card = (chainEnds cfg p).card + 1 := by
  have hinsert : (chainEnds cfg fun c => p c ∨ c = k) = insert k (chainEnds cfg p) := by
    ext c
    simp only [chainEnds, Finset.mem_filter, Finset.mem_range, Finset.mem_insert]
    constructor
    · rintro ⟨hc, hcl, hpc | rfl⟩
      · exact .inr ⟨hc, hcl, hpc⟩
      · exact .inl rfl
    · rintro (rfl | ⟨hc, hcl, hpc⟩)
      · exact ⟨hk, hlast, .inr rfl⟩
      · exact ⟨hc, hcl, .inl hpc⟩
  rw [hinsert, Finset.card_insert_of_notMem fun hmem => hp (Finset.mem_filter.mp hmem).2.2]

theorem chainEnds_mono {p q : Nat → Prop} [DecidablePred p] [DecidablePred q]
    (h : ∀ c, p c → q c) : (chainEnds cfg p).card ≤ (chainEnds cfg q).card :=
  Finset.card_le_card (Finset.monotone_filter_right _ fun c _ hc => ⟨hc.1, h c hc.2⟩)

theorem length_markOwn (cfg : AgConfig) (block : Nat) (recv : List Bool) :
    (AgRuntime.markOwn cfg block recv).length = recv.length := by
  unfold AgRuntime.markOwn
  induction List.range cfg.getPerBlockChunkCount generalizing recv with
  | nil => rfl
  | cons k l ih => rw [List.foldl_cons, ih, List.length_set]

section Step

variable {i : Fin cfg.nodes} {ds : List (Delivery cfg.nodes)} {d : Delivery cfg.nodes}
  {t t' : AgApps cfg.nodes}

/-- The packets of a block belong to the chunks of the allgather. -/
theorem chunkOf_lt (hoff : d.offset < cfg.getPerBlockPacketCount) :
    chunkOf cfg d < cfg.getTotalChunkCount := by
  refine Nat.div_lt_of_lt_mul ?_
  have hsender : (d.sender.val + 1) * cfg.getPerBlockPacketCount ≤
      cfg.nodes * cfg.getPerBlockPacketCount := Nat.mul_le_mul_right _ d.sender.isLt
  have htotal : cfg.getPerChunkPacketCount * cfg.getTotalChunkCount =
      cfg.nodes * cfg.getPerBlockPacketCount := by
    rw [AgConfig.getTotalChunkCount, McastConfig.getPerBlockPacketCount, Nat.mul_comm cfg.nodes,
      Nat.mul_assoc]
  rw [Nat.add_mul, Nat.one_mul] at hsender
  have hmod := Nat.mod_le (d.sender * cfg.getPerBlockPacketCount + d.offset) (2 ^ 32)
  rw [htotal]
  refine Nat.lt_of_le_of_lt hmod ?_
  omega

/-- The counters after a packet. -/
theorem Bounded.counted (h : Bounded cfg i ds t) (hd : d.receiver = i) (s : Nat) {p : ChunkProgress}
    (hp : p = (counted cfg (t.progress i) (chunkOf cfg d)).chunkProgresses s) :
    (-2 ^ 31 ≤ p.pkts ∧ p.pkts < 2 ^ 31) ∧ p.pkts ≤ packetCount cfg i (ds ++ [d]) p.chunk := by
  have hrange := h.range s
  have hpkts := h.pkts s
  have hone : packetCount cfg i (ds ++ [d]) (chunkOf cfg d) =
      packetCount cfg i ds (chunkOf cfg d) + 1 := by
    rw [packetCount_snoc, if_pos ⟨hd, rfl⟩]
  rw [AgApps.counted] at hp
  by_cases hs : s = cfg.getOriginalSender (chunkOf cfg d)
  · subst hs
    simp only [update_self, AgRuntime.countPacket] at hp
    split at hp
    next hnew =>
      subst hp
      simp only [hone]
      omega
    next hold =>
      rw [not_not] at hold
      subst hp
      simp only [hold] at hpkts ⊢
      rw [hone]
      have hlt := Int.bmod_lt (x := (((t.progress i).chunkProgresses
        (cfg.getOriginalSender (chunkOf cfg d))).pkts + 1)) (m := 2 ^ 32) (by decide)
      have hle := Int.le_bmod (x := (((t.progress i).chunkProgresses
        (cfg.getOriginalSender (chunkOf cfg d))).pkts + 1)) (m := 2 ^ 32) (by decide)
      have hself := bmod_le (x := (((t.progress i).chunkProgresses
        (cfg.getOriginalSender (chunkOf cfg d))).pkts + 1)) (by omega)
      omega
  · simp only [update_of_ne hs] at hp
    subst hp
    have hle : packetCount cfg i ds ((t.progress i).chunkProgresses s).chunk ≤
      packetCount cfg i (ds ++ [d]) ((t.progress i).chunkProgresses s).chunk := packetCount_le_snoc
    exact ⟨hrange, by omega⟩

/-- What a complete chunk has received, as an `int` that is equal to a `uint64_t`. -/
theorem Bounded.complete (h : Bounded cfg i ds t) (hd : d.receiver = i)
    (hpkts : ((AgApps.counted cfg (t.progress i) (chunkOf cfg d)).chunkProgresses
      (cfg.getOriginalSender (chunkOf cfg d))).pkts = cfg.getPerChunkPacketCount) :
    cfg.getPerChunkPacketCount ≤ packetCount cfg i (ds ++ [d]) (chunkOf cfg d) ∧
      cfg.getPerChunkPacketCount < 2 ^ 31 := by
  obtain ⟨hrange, hle⟩ := h.counted hd (cfg.getOriginalSender (chunkOf cfg d)) rfl
  have hchunk : ((AgApps.counted cfg (t.progress i) (chunkOf cfg d)).chunkProgresses
      (cfg.getOriginalSender (chunkOf cfg d))).chunk = chunkOf cfg d := by
    simp only [AgApps.counted, update_self, AgRuntime.countPacket]
    split
    next => rfl
    next hold => exact not_not.mp hold
  rw [hpkts, hchunk] at hle
  omega

/-- A node that is in the multicast phase after a packet. -/
theorem Bounded.of_multicast {rt : AgRuntime} {mp : McastProgress} (hnode : t.ring.node i = rt)
    (hprogress : t.progress i = mp) (hm : rt.state = .multicast) (hblock : rt.block = i.val)
    (hlength : rt.recv.length = cfg.getTotalChunkCount)
    (hcounted : ∀ s, (-2 ^ 31 ≤ (mp.chunkProgresses s).pkts ∧
      (mp.chunkProgresses s).pkts < 2 ^ 31) ∧
      (mp.chunkProgresses s).pkts ≤ packetCount cfg i ds (mp.chunkProgresses s).chunk)
    (hmarked : ∀ c, rt.recv.getD c false = true →
      cfg.getPerChunkPacketCount ≤ packetCount cfg i ds c ∧ cfg.getPerChunkPacketCount < 2 ^ 31)
    (hchains : mp.completedChains = (chainEnds cfg fun c => rt.recv.getD c false = true).card ∧
      mp.completedChains < cfg.roots) : Bounded cfg i ds t := by
  subst hnode hprogress
  constructor
  case block => exact hblock
  case length => exact hlength
  case range => exact fun s => (hcounted s).1
  case pkts => exact fun s => (hcounted s).2
  case marked => exact fun _ => hmarked
  case chains => exact fun _ => hchains
  case left => exact fun hne => absurd hm hne

theorem Bounded.step (h : Bounded cfg i ds t)
    (hoff : d.receiver = i → d.offset < cfg.getPerBlockPacketCount)
    (hst : t.deliver cfg d = some t') : Bounded cfg i (ds ++ [d]) t' := by
  obtain ⟨hframe, hcases⟩ := deliver_cases hst
  have hmono : ∀ c, packetCount cfg i ds c ≤ packetCount cfg i (ds ++ [d]) c :=
    fun _ => packetCount_le_snoc
  -- a node that does not change stays within its bounds
  have hsame : t'.ring.node i = t.ring.node i → t'.progress i = t.progress i →
      Bounded cfg i (ds ++ [d]) t' := by
    intro hnode hprogress
    constructor
    case block => exact hnode ▸ h.block
    case length => exact hnode ▸ h.length
    case range => exact hprogress ▸ h.range
    case pkts =>
      rw [hprogress]
      exact fun s => (h.pkts s).trans (Int.ofNat_le.mpr (hmono _))
    case marked =>
      rw [hnode]
      exact fun hm c hc => ⟨(h.marked hm c hc).1.trans (hmono c), (h.marked hm c hc).2⟩
    case chains => rw [hnode, hprogress]; exact h.chains
    case left =>
      rw [hnode]
      exact fun hm => ⟨(h.left hm).1, (h.left hm).2.trans
        (chainEnds_mono fun c hc => Nat.le_trans hc (hmono c))⟩
  by_cases hd : d.receiver = i
  · rw [hd] at hcases hframe
    rcases hcases with ⟨-, rfl⟩ | ⟨hm, hrec⟩
    · exact hsame rfl rfl
    · have hlt : chunkOf cfg d < (t.ring.node i).recv.length := h.length ▸ chunkOf_lt (hoff hd)
      have hcounted := fun s => h.counted hd s rfl
      generalize hnode : t'.ring.node i = rt' at hrec
      generalize hprogress : t'.progress i = mp' at hrec
      -- what a chunk that is complete adds to the marks
      have hmark : ((AgApps.counted cfg (t.progress i) (chunkOf cfg d)).chunkProgresses
          (cfg.getOriginalSender (chunkOf cfg d))).pkts = cfg.getPerChunkPacketCount →
          ∀ c, (AgApps.marked (t.ring.node i) (chunkOf cfg d)).recv.getD c false = true →
            cfg.getPerChunkPacketCount ≤ packetCount cfg i (ds ++ [d]) c ∧
              cfg.getPerChunkPacketCount < 2 ^ 31 := by
        intro hpkts c hc
        rcases (getD_set_iff hlt).mp hc with hc | rfl
        · exact ⟨(h.marked hm c hc).1.trans (hmono c), (h.marked hm c hc).2⟩
        · exact h.complete hd hpkts
      have hcard : (t.ring.node i).recv.getD (chunkOf cfg d) false = false →
          cfg.isLastChunkOfChain (chunkOf cfg d) = true →
          (chainEnds cfg fun c => (AgApps.marked (t.ring.node i)
            (chunkOf cfg d)).recv.getD c false = true).card =
              (t.progress i).completedChains + 1 := by
        intro hnew hlast
        rw [(h.chains hm).1]
        refine (congrArg Finset.card (chainEnds_set hlt)).trans ?_
        exact card_chainEnds_or (h.length ▸ hlt) hlast (by rw [hnew]; exact Bool.false_ne_true)
      cases hrec with
      | packet hpkts =>
        refine .of_multicast hnode hprogress hm h.block h.length hcounted (fun c hc => ?_)
          (h.chains hm)
        exact ⟨(h.marked hm c hc).1.trans (hmono c), (h.marked hm c hc).2⟩
      | chunk hpkts hold =>
        refine .of_multicast hnode hprogress hm h.block (List.length_set.trans h.length) hcounted
          (hmark hpkts) ⟨(h.chains hm).1.trans (congrArg Finset.card ?_), (h.chains hm).2⟩
        refine Finset.filter_congr fun c _ => and_congr_right fun hlast => ?_
        refine Iff.trans ?_ (getD_set_iff hlt).symm
        refine ⟨.inl, fun hc => ?_⟩
        rcases hc with hc | rfl
        · exact hc
        · rwa [hlast, Bool.and_true, Bool.not_eq_false'] at hold
      | chain hpkts hnew hlast hroots =>
        exact .of_multicast hnode hprogress hm h.block (List.length_set.trans h.length) hcounted
          (hmark hpkts) ⟨(hcard hnew hlast).symm,
            Nat.lt_of_le_of_ne (Nat.succ_le_of_lt (h.chains hm).2) hroots⟩
      | leave hpkts hnew hlast hroots hst' hblock hrecv hT =>
        constructor
        case block => rw [hnode]; exact hblock.trans h.block
        case length =>
          rw [hnode, hrecv, length_markOwn]
          exact List.length_set.trans h.length
        case range => rw [hprogress]; exact fun s => (hcounted s).1
        case pkts => rw [hprogress]; exact fun s => (hcounted s).2
        case marked => rw [hnode, hst']; exact fun hm => nomatch hm
        case chains => rw [hnode, hst']; exact fun hm => nomatch hm
        case left =>
          refine fun _ => ⟨(h.complete hd hpkts).2, ?_⟩
          rw [← hroots, ← hcard hnew hlast]
          exact chainEnds_mono fun c hc => (hmark hpkts c hc).1
  · exact hsame (hframe i (Ne.symm hd)).1 (hframe i (Ne.symm hd)).2

/-- **The run lemma**, for packets of blocks. -/
theorem deliveries_bounded (hr : 1 ≤ cfg.roots) (i : Fin cfg.nodes)
    (hoff : ∀ d ∈ ds, d.receiver = i → d.offset < cfg.getPerBlockPacketCount)
    (h : (deliveries cfg).Run (initial cfg) ds t) : Bounded cfg i ds t := by
  refine h.history (I := fun ds t => (∀ d ∈ ds, d.receiver = i →
    d.offset < cfg.getPerBlockPacketCount) → Bounded cfg i ds t)
    (fun _ => initial_bounded hr i) ?_ hoff
  intro ds t d t' _ ih hst hoff
  exact (ih fun e he => hoff e (List.mem_append_left _ he)).step
    (hoff d (List.mem_append_right _ List.mem_cons_self)) hst

end Step

/-! ## Packets in order -/

theorem offsets_snoc {n : Nat} {i s : Fin n} {ds : List (Delivery n)} {d : Delivery n} :
    offsets i s (ds ++ [d]) =
      offsets i s ds ++ if d.receiver = i ∧ d.sender = s then [d.offset] else [] := by
  unfold offsets
  by_cases h : d.receiver = i ∧ d.sender = s
  · simp [List.filter_append, h]
  · rw [if_neg h]
    simp [List.filter_append, h]

/-- A prefix of the packets that the node `i` receives, each sender's in order. -/
structure InOrder (cfg : McastConfig) (i : Fin cfg.nodes) (ds : List (Delivery cfg.nodes)) :
    Prop where
  other : ∀ d ∈ ds, d.receiver = i → d.sender ≠ i ∧ d.offset < cfg.getPerBlockPacketCount
  order : ∀ s, s ≠ i → offsets i s ds = List.range (offsets i s ds).length

theorem range_of_append {l l' : List Nat} {m : Nat} (h : l ++ l' = List.range m) :
    l = List.range l.length := by
  have hlen : l.length ≤ m := by
    have := congrArg List.length h
    rw [List.length_append, List.length_range] at this
    omega
  have htake := congrArg (List.take l.length) h
  rwa [List.take_left, List.take_range, Nat.min_eq_left hlen] at htake

theorem InOrder.init {i : Fin cfg.nodes} {ds : List (Delivery cfg.nodes)}
    {d : Delivery cfg.nodes} (h : InOrder cfg i (ds ++ [d])) : InOrder cfg i ds := by
  refine ⟨fun e he => h.other e (List.mem_append_left _ he), fun s hs => ?_⟩
  have horder := h.order s hs
  rw [offsets_snoc] at horder
  exact range_of_append horder

/-- The next packet of a sender. -/
theorem InOrder.offset {i : Fin cfg.nodes} {ds : List (Delivery cfg.nodes)}
    {d : Delivery cfg.nodes} (h : InOrder cfg i (ds ++ [d])) (hd : d.receiver = i) :
    d.offset = (offsets i d.sender ds).length := by
  have hs := (h.other d (List.mem_append_right _ List.mem_cons_self) hd).1
  have horder := h.order d.sender hs
  rw [offsets_snoc, if_pos ⟨hd, rfl⟩, List.length_append, List.length_singleton, List.range_succ]
    at horder
  exact List.singleton_inj.mp (List.append_inj_right' horder rfl)

/-- The counters after the first `k` packets of the block `s`. -/
def progressAfter (cfg : McastConfig) (s : Nat) : Nat → ChunkProgress
  | 0 => {}
  | k + 1 =>
    { chunk := s * cfg.getPerBlockChunkCount + k / cfg.getPerChunkPacketCount
      pkts := (k % cfg.getPerChunkPacketCount + 1 : Nat) }

/-- An `int` below its limit does not wrap. -/
theorem bmod_eq {x : Int} (h : -2 ^ 31 ≤ x) (hlt : x < 2 ^ 31) : x.bmod (2 ^ 32) = x := by
  simp only [Int.bmod]
  omega

theorem countPacket_same {p : ChunkProgress} (h : p.chunk = c) :
    AgRuntime.countPacket p c = { p with pkts := (p.pkts + 1).bmod (2 ^ 32) } :=
  if_neg (not_not.mpr h)

theorem countPacket_new {p : ChunkProgress} (h : p.chunk ≠ c) :
    AgRuntime.countPacket p c = { chunk := c, pkts := 1 } :=
  if_pos h

theorem countPacket_progressAfter (hpos : 0 < cfg.getPerChunkPacketCount)
    (hint : cfg.getPerChunkPacketCount < 2 ^ 31) (s k : Nat) :
    AgRuntime.countPacket (progressAfter cfg s k)
      (s * cfg.getPerBlockChunkCount + k / cfg.getPerChunkPacketCount) =
      progressAfter cfg s (k + 1) := by
  cases k with
  | zero =>
    rw [Nat.zero_div, Nat.add_zero]
    by_cases hzero : 0 = s * cfg.getPerBlockChunkCount
    · rw [countPacket_same hzero]
      simp only [progressAfter, ← hzero, Nat.zero_div, Nat.zero_mod]
      rfl
    · rw [countPacket_new hzero]
      simp only [progressAfter, Nat.zero_div, Nat.zero_mod]
      rfl
  | succ k =>
    have h1 := Nat.div_add_mod k cfg.getPerChunkPacketCount
    have h2 := Nat.div_add_mod (k + 1) cfg.getPerChunkPacketCount
    have h3 := Nat.mod_lt k hpos
    have h4 := Nat.mod_lt (k + 1) hpos
    have hdiv : (k + 1) / cfg.getPerChunkPacketCount = k / cfg.getPerChunkPacketCount +
        if cfg.getPerChunkPacketCount ∣ k + 1 then 1 else 0 := Nat.succ_div
    by_cases heq : k / cfg.getPerChunkPacketCount = (k + 1) / cfg.getPerChunkPacketCount
    · have hmod : (k + 1) % cfg.getPerChunkPacketCount = k % cfg.getPerChunkPacketCount + 1 := by
        rw [← heq] at h2
        omega
      rw [countPacket_same (congrArg (s * cfg.getPerBlockChunkCount + ·) heq)]
      simp only [progressAfter, heq, hmod]
      rw [bmod_eq]
      · rfl
      · omega
      · omega
    · have hstep : (k + 1) / cfg.getPerChunkPacketCount = k / cfg.getPerChunkPacketCount + 1 := by
        split at hdiv
        · exact hdiv
        · exact absurd (by rw [hdiv, Nat.add_zero]) heq
      have hmod : (k + 1) % cfg.getPerChunkPacketCount = 0 := by
        rw [hstep, Nat.mul_succ] at h2
        omega
      rw [countPacket_new fun h => heq (Nat.add_left_cancel h)]
      simp only [progressAfter, hmod]
      rfl

/-- The packets of all blocks have different immediate values. -/
theorem chunkOf_eq {d : Delivery cfg.nodes} (hpos : 0 < cfg.getPerChunkPacketCount)
    (hwrap : cfg.nodes * cfg.getPerBlockPacketCount ≤ 2 ^ 32)
    (hoff : d.offset < cfg.getPerBlockPacketCount) : chunkOf cfg d =
      d.sender * cfg.getPerBlockChunkCount + d.offset / cfg.getPerChunkPacketCount := by
  have hsender : (d.sender.val + 1) * cfg.getPerBlockPacketCount ≤
      cfg.nodes * cfg.getPerBlockPacketCount := Nat.mul_le_mul_right _ d.sender.isLt
  rw [Nat.add_mul, Nat.one_mul] at hsender
  rw [chunkOf, McastConfig.getMcastImmData, Nat.mod_eq_of_lt (by omega),
    McastConfig.getPerBlockPacketCount, Nat.mul_left_comm, Nat.mul_add_div hpos]

theorem div_lt_perBlock {off : Nat} (hoff : off < cfg.getPerBlockPacketCount) :
    off / cfg.getPerChunkPacketCount < cfg.getPerBlockChunkCount :=
  Nat.div_lt_of_lt_mul hoff

theorem getOriginalSender_eq {s q : Nat} (hq : q < cfg.getPerBlockChunkCount) :
    cfg.getOriginalSender (s * cfg.getPerBlockChunkCount + q) = s := by
  rw [AgConfig.getOriginalSender, Nat.mul_comm, Nat.mul_add_div (Nat.zero_lt_of_lt hq),
    Nat.div_eq_of_lt hq, Nat.add_zero]

theorem getOriginalSender_chunkOf {d : Delivery cfg.nodes}
    (hpos : 0 < cfg.getPerChunkPacketCount)
    (hwrap : cfg.nodes * cfg.getPerBlockPacketCount ≤ 2 ^ 32)
    (hoff : d.offset < cfg.getPerBlockPacketCount) :
    cfg.getOriginalSender (chunkOf cfg d) = d.sender := by
  rw [chunkOf_eq hpos hwrap hoff, getOriginalSender_eq (div_lt_perBlock hoff)]

section InOrder

variable {i : Fin cfg.nodes} {ds : List (Delivery cfg.nodes)} {d : Delivery cfg.nodes}
  {t t' : AgApps cfg.nodes}

/-- What the node `i` has counted and marked in the multicast phase. -/
structure Progress (cfg : McastConfig) (i : Fin cfg.nodes) (ds : List (Delivery cfg.nodes))
    (t : AgApps cfg.nodes) : Prop where
  counters : ∀ s : Fin cfg.nodes, s ≠ i →
    (t.progress i).chunkProgresses s = progressAfter cfg s (offsets i s ds).length
  marks : ∀ s : Fin cfg.nodes, s ≠ i → ∀ j,
    (j + 1) * cfg.getPerChunkPacketCount ≤ (offsets i s ds).length →
    (t.ring.node i).recv.getD (s * cfg.getPerBlockChunkCount + j) false = true

/-- The counters of the sender after its next packet. -/
theorem Progress.counted_sender (hpos : 0 < cfg.getPerChunkPacketCount)
    (hint : cfg.getPerChunkPacketCount < 2 ^ 31)
    (hwrap : cfg.nodes * cfg.getPerBlockPacketCount ≤ 2 ^ 32) (h : Progress cfg i ds t)
    (hs : d.sender ≠ i) (hoff : d.offset < cfg.getPerBlockPacketCount)
    (hnext : d.offset = (offsets i d.sender ds).length) :
    (counted cfg (t.progress i) (chunkOf cfg d)).chunkProgresses d.sender =
      progressAfter cfg d.sender (d.offset + 1) := by
  have hsender := getOriginalSender_chunkOf hpos hwrap hoff
  rw [counted, hsender]
  simp only [update_self]
  rw [h.counters d.sender hs, ← hnext, chunkOf_eq hpos hwrap hoff,
    countPacket_progressAfter hpos hint]

theorem Progress.step (hpos : 0 < cfg.getPerChunkPacketCount)
    (hint : cfg.getPerChunkPacketCount < 2 ^ 31)
    (hwrap : cfg.nodes * cfg.getPerBlockPacketCount ≤ 2 ^ 32)
    (hlen : (t.ring.node i).recv.length = cfg.getTotalChunkCount)
    (hin : InOrder cfg i (ds ++ [d])) (h : (t.ring.node i).state = .multicast → Progress cfg i ds t)
    (hst : t.deliver cfg d = some t') (hm' : (t'.ring.node i).state = .multicast) :
    Progress cfg i (ds ++ [d]) t' := by
  obtain ⟨hframe, hcases⟩ := deliver_cases hst
  by_cases hd : d.receiver = i
  · obtain ⟨hs, hoff⟩ := hin.other d (List.mem_append_right _ List.mem_cons_self) hd
    have hnext := hin.offset hd
    have hchunk := chunkOf_eq hpos hwrap hoff
    have hsender := getOriginalSender_chunkOf hpos hwrap hoff
    have hlt : chunkOf cfg d < (t.ring.node i).recv.length := hlen ▸ chunkOf_lt hoff
    rw [hd] at hcases
    rcases hcases with ⟨hne, rfl⟩ | ⟨hm, hrec⟩
    · exact absurd hm' hne
    · have hold := h hm
      have hself := hold.counted_sender hpos hint hwrap hs hoff hnext
      -- the counters, whatever else the packet does
      have hcounters : ∀ s : Fin cfg.nodes, s ≠ i →
          (counted cfg (t.progress i) (chunkOf cfg d)).chunkProgresses s =
            progressAfter cfg s (offsets i s (ds ++ [d])).length := by
        intro s hs'
        rw [offsets_snoc]
        by_cases heq : d.sender = s
        · subst heq
          rw [if_pos ⟨hd, rfl⟩, List.length_append, ← hnext]
          exact hself
        · rw [if_neg fun hc => heq hc.2, List.append_nil, ← hold.counters s hs', counted, hsender]
          exact update_of_ne (fun hc => heq (Fin.ext hc).symm) ..
      have hmarks : ∀ recv : List Bool,
          (∀ c, (t.ring.node i).recv.getD c false = true → recv.getD c false = true) →
          (((counted cfg (t.progress i) (chunkOf cfg d)).chunkProgresses
            (cfg.getOriginalSender (chunkOf cfg d))).pkts = cfg.getPerChunkPacketCount →
            recv.getD (chunkOf cfg d) false = true) → ∀ s : Fin cfg.nodes, s ≠ i → ∀ j,
          (j + 1) * cfg.getPerChunkPacketCount ≤ (offsets i s (ds ++ [d])).length →
          recv.getD (s * cfg.getPerBlockChunkCount + j) false = true := by
        intro recv hkeep hnew s hs' j hj
        rw [offsets_snoc] at hj
        by_cases heq : d.sender = s
        · subst heq
          rw [if_pos ⟨hd, rfl⟩, List.length_append, ← hnext, List.length_singleton] at hj
          rcases Nat.lt_or_ge d.offset ((j + 1) * cfg.getPerChunkPacketCount) with hlast | hbefore
          · -- the packet is the last one of the chunk
            have hfull : d.offset + 1 = (j + 1) * cfg.getPerChunkPacketCount := by omega
            rw [Nat.add_mul, Nat.one_mul] at hfull
            have hdiv : d.offset / cfg.getPerChunkPacketCount = j := by
              refine Nat.div_eq_of_lt_le (by omega) ?_
              rw [Nat.add_mul, Nat.one_mul]
              omega
            have hmod := Nat.div_add_mod d.offset cfg.getPerChunkPacketCount
            rw [hdiv, Nat.mul_comm] at hmod
            have hall : d.offset % cfg.getPerChunkPacketCount + 1 = cfg.getPerChunkPacketCount := by
              omega
            rw [hsender, hself, progressAfter, hchunk, hdiv, hall] at hnew
            exact hnew rfl
          · exact hkeep _ (hold.marks d.sender hs j (hnext ▸ hbefore))
        · rw [if_neg fun hc => heq hc.2, List.append_nil] at hj
          exact hkeep _ (hold.marks s hs' j hj)
      have hset : ∀ c, (t.ring.node i).recv.getD c false = true →
          ((t.ring.node i).recv.set (chunkOf cfg d) true).getD c false = true :=
        fun c hc => (getD_set_iff hlt).mpr (.inl hc)
      generalize hnode : t'.ring.node i = rt' at hrec
      generalize hprogress : t'.progress i = mp' at hrec
      cases hrec with
      | packet hpkts =>
        refine ⟨fun s hs' => hprogress ▸ hcounters s hs', ?_⟩
        rw [hnode]
        exact hmarks _ (fun _ hc => hc) fun hpkts' => absurd hpkts' hpkts
      | chunk hpkts hold =>
        refine ⟨fun s hs' => hprogress ▸ hcounters s hs', ?_⟩
        rw [hnode]
        exact hmarks _ hset fun _ => (getD_set_iff hlt).mpr (.inr rfl)
      | chain hpkts hnew hlast hroots =>
        refine ⟨fun s hs' => hprogress ▸ hcounters s hs', ?_⟩
        rw [hnode]
        exact hmarks _ hset fun _ => (getD_set_iff hlt).mpr (.inr rfl)
      | leave hpkts hnew hlast hroots hst' =>
        rw [hnode, hst'] at hm'
        cases hm'
  · obtain ⟨hnode, hprogress⟩ := hframe i (Ne.symm hd)
    have hsame : ∀ s, offsets i s (ds ++ [d]) = offsets i s ds := by
      intro s
      rw [offsets_snoc, if_neg fun hc => hd hc.1, List.append_nil]
    obtain ⟨hcounters, hmarks⟩ := h (hnode ▸ hm')
    constructor
    · simp only [hprogress, hsame]
      exact hcounters
    · simp only [hnode, hsame]
      exact hmarks

theorem initial_progress (hpos : 0 < cfg.getPerChunkPacketCount) :
    Progress cfg i [] (initial cfg) := by
  refine ⟨fun _ _ => rfl, fun s _ j hj => ?_⟩
  have hchunk : 0 < (j + 1) * cfg.getPerChunkPacketCount := Nat.mul_pos (Nat.succ_pos j) hpos
  exact absurd hj (Nat.not_le_of_gt hchunk)

/-- **The run lemma**, for packets in order. -/
theorem deliveries_progress (hr : 1 ≤ cfg.roots) (hpos : 0 < cfg.getPerChunkPacketCount)
    (hint : cfg.getPerChunkPacketCount < 2 ^ 31)
    (hwrap : cfg.nodes * cfg.getPerBlockPacketCount ≤ 2 ^ 32) (hin : InOrder cfg i ds)
    (h : (deliveries cfg).Run (initial cfg) ds t) (hm : (t.ring.node i).state = .multicast) :
    Progress cfg i ds t := by
  refine h.history (I := fun ds t => InOrder cfg i ds → (t.ring.node i).state = .multicast →
    Progress cfg i ds t) (fun _ _ => initial_progress hpos) ?_ hin hm
  intro ds t d t' hrun ih hst hin hm'
  have hbounded := deliveries_bounded hr i (fun e he hei => (hin.init.other e he hei).2) hrun
  exact Progress.step hpos hint hwrap hbounded.length hin (ih hin.init) hst hm'

end InOrder

end AgApps
end Roce
