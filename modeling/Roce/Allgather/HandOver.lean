import Roce.Allgather.Multicast
import Roce.Allgather.Safety

/-! # How often a block is multicast

A node multicasts its block when the application starts, if it is the first of its chain, or when
the previous node hands over. `OnMulticastTransmissionEnd` also hands over at the end of a chain,
to the first node of the next one. This node ignores the message if it has left the multicast
phase, and multicasts its block again if it has not. -/

namespace Roce
namespace AgApps

open Function

/-- How many hand-overs the packets that a node has posted will cause. -/
def pending (sq : RdmaUnreliableSQ) : Nat := sq.toSend.countP (·.sr.onSend)

theorem foldl_postSendDefault (sr : RdmaUnreliableSQ → Nat → SendRequest) (ks : List Nat)
    (hsr : ∀ sq k, (sr sq k).onSend = p k) (sq : RdmaUnreliableSQ) :
    pending (ks.foldl (fun sq k => sq.postSendDefault (sr sq k)) sq) =
      pending sq + ks.countP p := by
  induction ks generalizing sq with
  | nil => rfl
  | cons k ks ih =>
    have hpost : pending (sq.postSendDefault (sr sq k)) = pending sq + if p k then 1 else 0 := by
      rw [pending, RdmaUnreliableSQ.postSendDefault, RdmaUnreliableSQ.postSend, List.countP_append,
        List.countP_singleton, hsr]
      rfl
    rw [List.foldl_cons, ih, hpost, List.countP_cons, Nat.add_assoc, Nat.add_comm (ks.countP p)]

/-- A block causes at most one hand-over. -/
theorem pending_postBlock (cfg : McastConfig) (sq : RdmaUnreliableSQ) (block : Nat) :
    pending (postBlock cfg sq block) ≤ pending sq + 1 := by
  have hone : (List.range cfg.getPerBlockPacketCount).countP
      (fun k => decide (k = cfg.getPerBlockPacketCount - 1)) ≤ 1 :=
    List.nodup_iff_count_le_one.mp List.nodup_range (cfg.getPerBlockPacketCount - 1)
  rw [postBlock, foldl_postSendDefault (fun sq k => blockRequest cfg sq.mtu block k) _
    fun _ _ => rfl]
  exact Nat.add_le_add_left hone _

/-- A packet of the queue causes the hand-over that was counted for it. -/
theorem pending_getNextPacket {sq sq' : RdmaUnreliableSQ}
    (h : sq.getNextPacket (fun _ => []) = some (p, sq'))
    (hs : sq'.sent = sq.sent ++ [⟨p, onSend⟩]) :
    pending sq = pending sq' + if onSend then 1 else 0 := by
  obtain ⟨work, rest, hsend, ⟨-, -, rfl⟩ | ⟨-, -, rfl⟩⟩ := RdmaUnreliableSQ.getNextPacket_cases h
  · have hs := List.append_cancel_left hs
    cases hs
    rw [pending, hsend, List.countP_cons, pending, RdmaUnreliableSQ.advance, List.countP_cons]
    rfl
  · rw [RdmaUnreliableSQ.callOnSend_nil] at hs ⊢
    have hs := List.append_cancel_left hs
    cases hs
    rw [pending, hsend, List.countP_cons]
    rfl

/-! ## What leaves the hand-over alone -/

/-- The block of a runtime does not change. -/
theorem transitionToRecovery_block {cfg : AgConfig} {rt : AgRuntime} {sh : AgShared}
    (h : rt.transitionToRecovery cfg sh = some (rt', sh')) : rt'.block = rt.block := by
  obtain ⟨-, rfl, -⟩ := AgRuntime.transitionToRecovery_cases h
  rfl

theorem completeChain_block {cfg : McastConfig} {rt : AgRuntime} {mp : McastProgress}
    {sh : AgShared} (h : rt.completeChain cfg mp sh = some (rt', mp', sh')) :
    rt'.block = rt.block := by
  unfold AgRuntime.completeChain at h
  split at h
  · simp only at h
    split at h
    · obtain ⟨⟨u, shu⟩, hu, h⟩ := Option.bind_eq_some_iff.mp h
      simp only [Option.pure_def, Option.some.injEq, Prod.mk.injEq] at h
      rw [← h.1]
      exact transitionToRecovery_block hu
    · rw [Option.some.injEq, Prod.mk.injEq] at h
      rw [← h.1]
  · cases h

theorem notifyReceivePacket_block {cfg : McastConfig} {rt : AgRuntime} {mp : McastProgress}
    {sh : AgShared} (h : rt.notifyReceivePacket cfg mp sh p = some (rt', mp', sh', ready)) :
    rt'.block = rt.block := by
  unfold AgRuntime.notifyReceivePacket at h
  split at h
  · rw [Option.some.injEq, Prod.mk.injEq] at h
    rw [← h.1]
  · simp only at h
    split at h
    · obtain ⟨⟨u, new⟩, hu, h⟩ := Option.bind_eq_some_iff.mp h
      obtain ⟨⟨v, mpv, shv⟩, hv, h⟩ := Option.bind_eq_some_iff.mp h
      have hblock : u.block = rt.block := by
        unfold AgRuntime.markChunkAsReceived at hu
        split at hu
        · rw [Option.some.injEq, Prod.mk.injEq] at hu
          rw [← hu.1]
        · cases hu
      simp only [Option.pure_def, Option.some.injEq, Prod.mk.injEq] at h
      rw [← h.1, ← hblock]
      simp only [AgRuntime.completeChunk] at hv
      split at hv
      · exact completeChain_block hv
      · rw [Option.some.injEq, Prod.mk.injEq] at hv
        rw [← hv.1]
    · rw [Option.some.injEq, Prod.mk.injEq] at h
      rw [← h.1]

/-- Only the runtime and the timer of the node `i` have changed. -/
structure Same (i : Fin n) (t t' : AgApps n) : Prop where
  started : t'.started = t.started
  mcast : t'.mcast = t.mcast
  handOver : t'.handOver = t.handOver
  multicasts : t'.multicasts = t.multicasts
  node : ∀ k, k ≠ i → t'.ring.node k = t.ring.node k
  timeout : ∀ k, k ≠ i → t'.timeout k = t.timeout k
  block : (t'.ring.node i).block = (t.ring.node i).block

variable {cfg : McastConfig} {t t' : AgApps n} {i : Fin n}

theorem Same.block_eq (h : Same i t t') (k : Fin n) :
    (t'.ring.node k).block = (t.ring.node k).block := by
  by_cases hk : k = i
  · rw [hk, h.block]
  · rw [h.node k hk]

/-- A node with a new runtime starts the recovery. -/
theorem startRecoveryPhase_same (t : AgApps n) (sh : AgShared) (progress : Fin n → McastProgress)
    (h : rt.block = (t.ring.node i).block) :
    Same i t (startRecoveryPhase { t with
      ring := { t.ring with node := update t.ring.node i rt, shared := sh }, progress } i) where
  started := rfl
  mcast := rfl
  handOver := rfl
  multicasts := rfl
  node _ hk := update_of_ne hk ..
  timeout _ hk := update_of_ne hk ..
  block := (congrArg _ (update_self ..)).trans h

theorem onRecvMcast_same (h : t.onRecvMcast cfg i imm = some t') : Same i t t' := by
  unfold onRecvMcast at h
  split at h
  · rw [← Option.some.inj h]
    exact ⟨rfl, rfl, rfl, rfl, fun _ _ => rfl, fun _ _ => rfl, rfl⟩
  · obtain ⟨⟨rt, mp, sh, ready⟩, hrt, h⟩ := Option.bind_eq_some_iff.mp h
    have hblock := notifyReceivePacket_block hrt
    simp only at h
    split at h
    · rw [← Option.some.inj h]
      exact startRecoveryPhase_same t sh _ hblock
    · rw [← Option.some.inj h]
      exact ⟨rfl, rfl, rfl, rfl, fun _ hk => update_of_ne hk .., fun _ hk => update_of_ne hk ..,
        (congrArg _ (update_self ..)).trans hblock⟩

theorem receiveMcast_same (h : t.receiveMcast cfg i p = some t') : Same i t t' := by
  obtain ⟨notif, -, h⟩ := Option.bind_eq_some_iff.mp h
  cases notif with
  | none =>
    rw [← Option.some.inj h]
    exact ⟨rfl, rfl, rfl, rfl, fun _ _ => rfl, fun _ _ => rfl, rfl⟩
  | some notif => exact onRecvMcast_same h

theorem onCutoffTimer_same (h : t.onCutoffTimer cfg i = some t') : Same i t t' := by
  obtain ⟨⟨rt, sh⟩, hrt, h⟩ := Option.bind_eq_some_iff.mp h
  rw [← Option.some.inj h]
  exact startRecoveryPhase_same t sh _ (transitionToRecovery_block hrt)

theorem markovPacket_block {acc acc' : MarkovState}
    (h : markovPacket cfg pkts acc k = some acc') : acc'.1.block = acc.1.block := by
  unfold markovPacket at h
  simp only at h
  split at h
  · obtain ⟨⟨rt, mp, sh, ready⟩, hrt, h⟩ := Option.bind_eq_some_iff.mp h
    rw [← Option.some.inj h]
    exact notifyReceivePacket_block hrt
  · rw [← Option.some.inj h]

theorem foldlM_markovPacket_block {acc acc' : MarkovState} {l : List Nat}
    (h : l.foldlM (markovPacket cfg pkts) acc = some acc') : acc'.1.block = acc.1.block :=
  foldlM_invariant (I := fun _ t => t.1.block = acc.1.block)
    (fun hblock hs => (markovPacket_block hs).trans hblock) rfl h

theorem runMarkovMcast_same (h : t.runMarkovMcast cfg i pkts = some t') : Same i t t' := by
  obtain ⟨⟨rt, mp, sh, transitioned⟩, hfold, h⟩ := Option.bind_eq_some_iff.mp h
  obtain ⟨⟨rt', sh'⟩, hrt, h⟩ := Option.bind_eq_some_iff.mp h
  have hblock : rt'.block = (t.ring.node i).block := by
    rw [← foldlM_markovPacket_block hfold]
    simp only [endMarkov] at hrt
    split at hrt
    · rw [Option.some.injEq, Prod.mk.injEq] at hrt
      rw [hrt.1]
    · exact transitionToRecovery_block hrt
  rw [← Option.some.inj h]
  exact startRecoveryPhase_same t sh' _ hblock

theorem recovery_same {ring : AgRing n} {t : AgApps n} {e : AgRing.Event n}
    (h : AgRing.Step cfg.toAgConfig t.ring e ring) : Same e.node t { t with ring } :=
  ⟨rfl, rfl, rfl, rfl, h.acts.frame, fun _ _ => rfl, h.acts.block⟩

/-- `StartMulticast` posts the block of the node in the multicast phase, and does nothing
otherwise. -/
theorem startMulticast_eq (cfg : McastConfig) (t : AgApps n) (i : Fin n) :
    ((t.ring.node i).state ≠ .multicast ∧ t.startMulticast cfg i = t) ∨
    ((t.ring.node i).state = .multicast ∧ t.startMulticast cfg i = { t with
      mcast := update t.mcast i (postBlock cfg (t.mcast i) (t.ring.node i).block)
      multicasts := update t.multicasts i (t.multicasts i + 1) }) := by
  unfold startMulticast
  by_cases hst : (t.ring.node i).state = .multicast
  · exact .inr ⟨hst, if_neg (not_not.mpr hst)⟩
  · exact .inl ⟨hst, if_pos hst⟩

/-! ## One hand-over for each multicast -/

/-- What holds as long as no hand-over message makes the first node of a chain multicast: each
multicast of a node was caused by one of its left neighbour, the first node of a chain apart. -/
structure HandedOver (cfg : McastConfig) (t : AgApps cfg.nodes) : Prop where
  block : ∀ i, (t.ring.node i).block = i.val
  idle : ∀ i, t.started i = false → t.multicasts i = 0
  first : ∀ i : Fin cfg.nodes, cfg.isFirstInChain i = true → t.multicasts i ≤ 1
  chain : ∀ i, cfg.isFirstInChain (right i) = false →
    t.multicasts (right i) + t.handOver i + pending (t.mcast i) ≤ t.multicasts i

theorem HandedOver.congr {t t' : AgApps cfg.nodes} {i : Fin cfg.nodes} (h : HandedOver cfg t)
    (hs : Same i t t') : HandedOver cfg t' := by
  constructor
  case block => exact fun k => (hs.block_eq k).trans (h.block k)
  case idle => rw [hs.started, hs.multicasts]; exact h.idle
  case first => rw [hs.multicasts]; exact h.first
  case chain => rw [hs.multicasts, hs.handOver, hs.mcast]; exact h.chain

theorem HandedOver.air {t : AgApps cfg.nodes} (h : HandedOver cfg t)
    (air : Fin cfg.nodes → Fin cfg.nodes → List Packet) : HandedOver cfg { t with air } :=
  ⟨h.block, h.idle, h.first, h.chain⟩

theorem HandedOver.timeout {t : AgApps cfg.nodes} (h : HandedOver cfg t)
    (timeout : Fin cfg.nodes → Option Timeout) : HandedOver cfg { t with timeout } :=
  ⟨h.block, h.idle, h.first, h.chain⟩

/-- The hand-over messages that the first node of a chain receives in the multicast phase make it
multicast its block again. -/
def NoRestart (cfg : McastConfig) (t : AgApps cfg.nodes) (e : Event cfg.nodes) : Prop :=
  ∀ i : Fin cfg.nodes, e = .handOver i → cfg.isFirstInChain i = true →
    (t.ring.node i).state ≠ .multicast

theorem initial_handedOver (cfg : McastConfig) : HandedOver cfg (initial cfg) :=
  ⟨fun _ => rfl, fun _ _ => rfl, fun _ _ => Nat.zero_le _, fun _ _ => Nat.le_refl _⟩

section Steps

variable {t t' : AgApps cfg.nodes} {i : Fin cfg.nodes}

/-- A node that is alone is the first of its chain. -/
theorem isFirstInChain_of_alone (h : right i = i) : cfg.isFirstInChain i = true := by
  have hi := i.isLt
  have hlt : cfg.nodes < 2 := by
    by_contra hn
    exact right_ne (Nat.le_of_not_lt hn) i h
  rw [show i.val = 0 by omega]
  exact McastConfig.isFirstInChain_zero i.pos

/-- A node multicasts its block, at most once if it is the first of its chain, and because of a
hand-over that is no longer counted otherwise. -/
theorem HandedOver.multicast (h : HandedOver cfg t) (hs : t.started i = true)
    (hfirst : cfg.isFirstInChain i = true → t.multicasts i = 0)
    (hchain : cfg.isFirstInChain i = false →
      t.multicasts i + 1 + t.handOver (left i) + pending (t.mcast (left i)) ≤
        t.multicasts (left i)) :
    HandedOver cfg { t with
      mcast := update t.mcast i (postBlock cfg (t.mcast i) (t.ring.node i).block)
      multicasts := update t.multicasts i (t.multicasts i + 1) } := by
  constructor
  case block => exact h.block
  case idle =>
    intro k hk
    have hne : k ≠ i := fun heq => by rw [heq, hs] at hk; cases hk
    simpa only [update_of_ne hne] using h.idle k hk
  case first =>
    intro k hk
    by_cases hki : k = i
    · subst hki
      simp only [update_self, hfirst hk, Nat.le_refl]
    · simpa only [update_of_ne hki] using h.first k hk
  case chain =>
    intro k hk
    by_cases hki : k = i
    · subst hki
      have hne : right k ≠ k := fun heq => by
        rw [heq, isFirstInChain_of_alone heq] at hk
        cases hk
      have hold := h.chain k hk
      have hblock := pending_postBlock cfg (t.mcast k) (t.ring.node k).block
      simp only [update_self, update_of_ne hne]
      omega
    · by_cases hkr : right k = i
      · have hleft : k = left i := by rw [← hkr, left_right]
        rw [hkr] at hk
        have hold := hchain hk
        rw [← hleft] at hold
        simp only [hkr, update_self, update_of_ne hki]
        omega
      · simpa only [update_of_ne hki, update_of_ne hkr] using h.chain k hk

theorem HandedOver.start (h : HandedOver cfg t) (hst : t.startApplication cfg i = some t') :
    HandedOver cfg t' := by
  unfold startApplication at hst
  split at hst
  next => cases hst
  next hs =>
    have hstarted : ∀ timeout, HandedOver cfg
        { t with started := update t.started i true, timeout } := by
      intro timeout
      refine ⟨h.block, fun k hk => ?_, h.first, h.chain⟩
      change update t.started i true k = false at hk
      by_cases hki : k = i
      · rw [hki, update_self] at hk
        cases hk
      · rw [update_of_ne hki] at hk
        exact h.idle k hk
    simp only at hst
    split at hst
    · rw [← Option.some.inj hst]
      exact hstarted _
    · split at hst
      next hfirst =>
        rw [← Option.some.inj hst]
        rw [h.block] at hfirst
        rcases startMulticast_eq cfg { t with
          started := update t.started i true
          timeout := update t.timeout i (some .cutoff) } i with ⟨-, heq⟩ | ⟨-, heq⟩
        · rw [heq]
          exact hstarted _
        · rw [heq]
          refine (hstarted _).multicast (update_self ..) (fun _ => ?_) fun hno => ?_
          · exact h.idle i (Bool.eq_false_iff.mpr hs)
          · rw [hfirst] at hno
            cases hno
      next =>
        rw [← Option.some.inj hst]
        exact hstarted _

theorem HandedOver.transmit {sq : RdmaUnreliableSQ} (h : HandedOver cfg t)
    (hp : (t.mcast i).getNextPacket (fun _ => []) = some (p, sq))
    (hs : sq.sent = (t.mcast i).sent ++ [⟨p, onSend⟩]) :
    HandedOver cfg (t.transmit i p onSend sq) := by
  refine ⟨h.block, h.idle, h.first, fun k hk => ?_⟩
  have hold := h.chain k hk
  simp only [AgApps.transmit]
  by_cases hki : k = i
  · subst hki
    rw [pending_getNextPacket hp hs] at hold
    simp only [update_self]
    omega
  · simpa only [update_of_ne hki] using hold

theorem HandedOver.handOver (h : HandedOver cfg t) (hs : t.started i = true)
    (hk : t.handOver (left i) = k + 1)
    (hno : cfg.isFirstInChain i = true → (t.ring.node i).state ≠ .multicast) :
    HandedOver cfg
      (startMulticast cfg { t with handOver := update t.handOver (left i) k } i) := by
  have hless : HandedOver cfg { t with handOver := update t.handOver (left i) k } := by
    refine ⟨h.block, h.idle, h.first, fun j hj => ?_⟩
    have hold := h.chain j hj
    by_cases hji : j = left i
    · rw [hji] at hold ⊢
      simp only [update_self]
      omega
    · simpa only [update_of_ne hji] using hold
  rcases startMulticast_eq cfg { t with handOver := update t.handOver (left i) k } i with
    ⟨-, heq⟩ | ⟨hst, heq⟩
  · rw [heq]
    exact hless
  · rw [heq]
    refine hless.multicast hs (fun hfirst => absurd hst (hno hfirst)) fun hfirst => ?_
    have hold := h.chain (left i)
    rw [right_left] at hold
    have hold := hold hfirst
    simp only [update_self]
    omega

/-- **The step lemma.** -/
theorem HandedOver.step (h : HandedOver cfg t) (hno : NoRestart cfg t e) (hst : Step cfg t e t') :
    HandedOver cfg t' := by
  cases hst with
  | start hrt => exact h.start hrt
  | transmit hp hs => exact h.transmit hp hs
  | receive _ _ hrt => exact (h.air _).congr (receiveMcast_same hrt)
  | handOver hs hk => exact h.handOver hs hk fun hfirst => hno _ rfl hfirst
  | cutoff _ hrt => exact (h.timeout _).congr (onCutoffTimer_same hrt)
  | markov _ _ hrt => exact (h.timeout _).congr (runMarkovMcast_same hrt)
  | recovery _ _ hring => exact h.congr (recovery_same hring)

end Steps

/-- **The run lemma.** -/
theorem allgather_handedOver {t : AgApps cfg.nodes}
    (h : ((allgather cfg).restrict (NoRestart cfg)).Reachable t) : HandedOver cfg t := by
  refine Machine.Reachable.invariant (M := (allgather cfg).restrict (NoRestart cfg))
    (fun h0 => ?_) (fun _ hi hst => hi.step hst.1 hst.2) h
  rw [h0]
  exact initial_handedOver cfg

/-- The multicasts go around the ring once. -/
theorem HandedOver.multicasts_le {t : AgApps cfg.nodes} (h : HandedOver cfg t) :
    ∀ i, t.multicasts i ≤ 1 := by
  intro i
  have hpos := i.pos
  refine ring_induction (P := fun i => t.multicasts i ≤ 1) ⟨0, hpos⟩
    (h.first _ (McastConfig.isFirstInChain_zero hpos)) (fun k hk => ?_) i
  cases hfirst : cfg.isFirstInChain (right k)
  · have hchain := h.chain k hfirst
    omega
  · exact h.first _ hfirst

/-! ## A restart -/

/-- What holds in every run: the first node of a chain multicasts its block when it starts, and
nobody does if the multicast phase is skipped. -/
structure Begun (cfg : McastConfig) (t : AgApps cfg.nodes) : Prop where
  block : ∀ i, (t.ring.node i).block = i.val
  waiting : ∀ i, t.started i = false → (t.ring.node i).state = .multicast ∧ t.timeout i = none
  begun : cfg.shouldSkipMcast = false → ∀ i : Fin cfg.nodes, cfg.isFirstInChain i = true →
    t.started i = true → 1 ≤ t.multicasts i
  skipped : cfg.shouldSkipMcast = true → ∀ i, t.handOver i = 0 ∧ (t.mcast i).toSend = []

theorem initial_begun (cfg : McastConfig) : Begun cfg (initial cfg) :=
  ⟨fun _ => rfl, fun _ _ => ⟨rfl, rfl⟩, fun _ _ _ h => (nomatch h), fun _ _ => ⟨rfl, rfl⟩⟩

section Restart

variable {t t' : AgApps cfg.nodes} {i : Fin cfg.nodes}

theorem Begun.congr (h : Begun cfg t) (hs : Same i t t') (hi : t.started i = true) :
    Begun cfg t' := by
  constructor
  case block => exact fun k => (hs.block_eq k).trans (h.block k)
  case waiting =>
    intro k hk
    rw [hs.started] at hk
    have hne : k ≠ i := fun heq => by rw [heq, hi] at hk; cases hk
    rw [hs.node k hne, hs.timeout k hne]
    exact h.waiting k hk
  case begun => rw [hs.started, hs.multicasts]; exact h.begun
  case skipped => rw [hs.handOver, hs.mcast]; exact h.skipped

/-- A multicast does not harm, unless the multicast phase is skipped. -/
theorem Begun.multicast (h : Begun cfg t) (hskip : cfg.shouldSkipMcast = false) :
    Begun cfg (t.startMulticast cfg i) := by
  rcases startMulticast_eq cfg t i with ⟨-, heq⟩ | ⟨-, heq⟩
  · rw [heq]
    exact h
  · rw [heq]
    refine ⟨h.block, h.waiting, fun hno k hfirst hk => ?_, fun hyes => ?_⟩
    · have hold := h.begun hno k hfirst hk
      by_cases hki : k = i
      · simp only [hki, update_self, Nat.le_add_left]
      · simpa only [update_of_ne hki] using hold
    · rw [hskip] at hyes
      cases hyes

theorem Begun.air (h : Begun cfg t) (air : Fin cfg.nodes → Fin cfg.nodes → List Packet) :
    Begun cfg { t with air } :=
  ⟨h.block, h.waiting, h.begun, h.skipped⟩

/-- The timer of a node that has started does not matter. -/
theorem Begun.timer (h : Begun cfg t) (hi : t.started i = true) (x : Option Timeout) :
    Begun cfg { t with timeout := update t.timeout i x } := by
  refine ⟨h.block, fun k hk => ?_, h.begun, h.skipped⟩
  have hne : k ≠ i := fun heq => by rw [heq, hi] at hk; cases hk
  simpa only [update_of_ne hne] using h.waiting k hk

theorem Begun.start (h : Begun cfg t) (hst : t.startApplication cfg i = some t') :
    Begun cfg t' := by
  unfold startApplication at hst
  split at hst
  next => cases hst
  next hs =>
    have hstate := (h.waiting i (Bool.eq_false_iff.mpr hs)).1
    have hwaiting : ∀ k, update t.started i true k = false → k ≠ i ∧ t.started k = false := by
      intro k hk
      have hne : k ≠ i := fun heq => by rw [heq, update_self] at hk; cases hk
      rw [update_of_ne hne] at hk
      exact ⟨hne, hk⟩
    simp only at hst
    split at hst
    next hskip =>
      rw [← Option.some.inj hst]
      refine ⟨h.block, fun k hk => ?_, fun hno => ?_, h.skipped⟩
      · obtain ⟨hne, hk⟩ := hwaiting k hk
        simpa only [update_of_ne hne] using h.waiting k hk
      · rw [hskip] at hno
        cases hno
    next hskip =>
      have hnot : ∀ {P : Prop}, cfg.shouldSkipMcast = true → P := fun hyes => absurd hyes hskip
      split at hst
      next hfirst =>
        rw [← Option.some.inj hst, startMulticast, if_neg (not_not.mpr hstate)]
        refine ⟨h.block, fun k hk => ?_, fun hno k hk hks => ?_, hnot⟩
        · obtain ⟨hne, hk⟩ := hwaiting k hk
          simpa only [update_of_ne hne] using h.waiting k hk
        · by_cases hki : k = i
          · simp only [hki, update_self, Nat.le_add_left]
          · simp only [update_of_ne hki] at hks ⊢
            exact h.begun hno k hk hks
      next hfirst =>
        rw [← Option.some.inj hst]
        refine ⟨h.block, fun k hk => ?_, fun hno k hk hks => ?_, hnot⟩
        · obtain ⟨hne, hk⟩ := hwaiting k hk
          simpa only [update_of_ne hne] using h.waiting k hk
        · have hki : k ≠ i := by
            rintro rfl
            rw [h.block, hk] at hfirst
            exact hfirst rfl
          simp only [update_of_ne hki] at hks
          exact h.begun hno k hk hks

theorem Begun.step (h : Begun cfg t) (hst : Step cfg t e t') : Begun cfg t' := by
  have hstarted : ∀ {i x}, t.timeout i = some x → t.started i = true := by
    intro i x hx
    cases hs : t.started i
    · rw [(h.waiting i hs).2] at hx
      cases hx
    · rfl
  cases hst with
  | start hrt => exact h.start hrt
  | @transmit _ _ _ i _ hp =>
    refine ⟨h.block, h.waiting, h.begun, fun hskip => ?_⟩
    obtain ⟨work, rest, hsend, -⟩ := RdmaUnreliableSQ.getNextPacket_cases hp
    rw [(h.skipped hskip i).2] at hsend
    cases hsend
  | receive hs _ hrt => exact (h.air _).congr (receiveMcast_same hrt) hs
  | @handOver k _ i hs hk =>
    have hskip : cfg.shouldSkipMcast = false := by
      cases hskip : cfg.shouldSkipMcast
      · rfl
      · rw [(h.skipped hskip _).1] at hk
        cases hk
    have hless : Begun cfg { t with handOver := update t.handOver (left i) k } := by
      refine ⟨h.block, h.waiting, h.begun, fun hyes => ?_⟩
      rw [hskip] at hyes
      cases hyes
    exact hless.multicast hskip
  | cutoff ht hrt => exact (h.timer (hstarted ht) _).congr (onCutoffTimer_same hrt) (hstarted ht)
  | markov ht _ hrt =>
    exact (h.timer (hstarted ht) _).congr (runMarkovMcast_same hrt) (hstarted ht)
  | recovery _ hs hring => exact h.congr (recovery_same hring) hs

theorem allgather_begun (h : (allgather cfg).Reachable t) : Begun cfg t :=
  h.invariant (fun h0 => by rw [h0]; exact initial_begun cfg) fun _ hi hst => hi.step hst

/-- The first node of a chain that receives a hand-over in the multicast phase has multicast its
block before. -/
theorem restart (h : (allgather cfg).Reachable t) (hst : Step cfg t e t')
    (hno : ¬NoRestart cfg t e) : ∃ i, 2 ≤ t'.multicasts i := by
  have hb := allgather_begun h
  unfold NoRestart at hno
  push Not at hno
  obtain ⟨i, rfl, hfirst, hstate⟩ := hno
  cases hst with
  | @handOver k _ _ hs hk =>
    have hskip : cfg.shouldSkipMcast = false := by
      cases hskip : cfg.shouldSkipMcast
      · rfl
      · rw [(hb.skipped hskip _).1] at hk
        cases hk
    have hone := hb.begun hskip i hfirst hs
    refine ⟨i, ?_⟩
    rw [startMulticast, if_neg (not_not.mpr hstate)]
    simp only [update_self]
    omega

end Restart

/-- **Each block is multicast at most once**, as long as no hand-over reaches the first node of a
chain in the multicast phase; and one that does makes this node multicast its block again. -/
theorem multicast_once (cfg : McastConfig) :
    (∀ t, ((allgather cfg).restrict (NoRestart cfg)).Reachable t → ∀ i, t.multicasts i ≤ 1) ∧
      ∀ t e t', (allgather cfg).Reachable t → (allgather cfg).step t e t' → ¬NoRestart cfg t e →
        ∃ i, 2 ≤ t'.multicasts i :=
  ⟨fun _ h => (allgather_handedOver h).multicasts_le, fun _ _ _ h hst hno => restart h hst hno⟩

/-- Two nodes in one chain, with one packet each. -/
abbrev pairConfig : McastConfig where
  nodes := 2
  mtu := 30000

/-- Both nodes start, the first one hands over to the second and the second one back to the first,
while the packet of the second one is on its way. -/
theorem handsBack : ∃ t : AgApps pairConfig.nodes,
    ((allgather pairConfig).restrict (NoRestart pairConfig)).Reachable t ∧ t.started 0 = true ∧
      t.handOver (left 0) = 0 + 1 ∧ (t.ring.node 0).state = .multicast ∧
      (∀ i, t.multicasts i = 1) ∧ t.timeout 0 = some .cutoff ∧
      ∃ t', onCutoffTimer pairConfig { t with timeout := update t.timeout 0 none } 0 = some t' ∧
        (t'.ring.node 0).state = .recovery := by
  have hno : ∀ (t : AgApps pairConfig.nodes) (e : Event pairConfig.nodes), e ≠ .handOver 0 →
      NoRestart pairConfig t e := by
    intro t e he i hi hfirst
    have hzero : ∀ i : Fin pairConfig.nodes, pairConfig.isFirstInChain i = true → i = 0 := by decide
    exact absurd (hzero i hfirst ▸ hi) he
  have hinit : ((allgather pairConfig).restrict (NoRestart pairConfig)).Reachable
      (initial pairConfig) := .init rfl
  have hstart := hinit.step ⟨hno _ (.start 0) (by simp), show Step _ _ (.start 0) _ from .start rfl⟩
  have hstart' := hstart.step
    ⟨hno _ (.start 1) (by simp), show Step _ _ (.start 1) _ from .start rfl⟩
  have hsend := hstart'.step
    ⟨hno _ (.transmit 0) (by simp), show Step _ _ (.transmit 0) _ from .transmit rfl rfl⟩
  have hhand := hsend.step
    ⟨hno _ (.handOver 1) (by simp), show Step _ _ (.handOver 1) _ from .handOver rfl rfl⟩
  have hsend' := hhand.step
    ⟨hno _ (.transmit 1) (by simp), show Step _ _ (.transmit 1) _ from .transmit rfl rfl⟩
  exact ⟨_, hsend', rfl, rfl, rfl, by decide, rfl, _, rfl, rfl⟩

/-- The second node hands over to the first one, after the timer of this one and before. -/
theorem multicast_once_pair :
    (∃ t, ((allgather pairConfig).restrict (NoRestart pairConfig)).Reachable t ∧
      t.handOver (left 0) = 0 ∧ (∀ i, t.multicasts i = 1) ∧ ∀ i, t.multicasts i ≤ 1) ∧
    ∃ t, (allgather pairConfig).Reachable t ∧ ∃ i, 2 ≤ t.multicasts i := by
  obtain ⟨t, h, hs, hk, hstate, hmulticasts, htimeout, t', hcutoff, hleft⟩ := handsBack
  constructor
  · have hsame := onCutoffTimer_same hcutoff
    have hlate : (t'.ring.node 0).state ≠ .multicast := by
      rw [hleft]
      exact fun hc => nomatch hc
    have hstep : Step pairConfig t (.cutoff 0) t' := .cutoff htimeout hcutoff
    have hstep' : Step pairConfig t' (.handOver 0) _ :=
      .handOver (hsame.started ▸ hs) (hsame.handOver ▸ hk)
    have hno : NoRestart pairConfig t (.cutoff 0) := by
      rintro i hi
      cases hi
    have hno' : NoRestart pairConfig t' (.handOver 0) := by
      rintro i hi -
      cases hi
      exact hlate
    have h' := (h.step ⟨hno, hstep⟩).step ⟨hno', hstep'⟩
    rw [startMulticast, if_pos hlate] at h'
    refine ⟨_, h', ?_, hsame.multicasts ▸ hmulticasts, (multicast_once pairConfig).1 _ h'⟩
    simp only [update_self]
  · have hstep : (allgather pairConfig).step t (.handOver 0) _ := .handOver hs hk
    exact ⟨_, h.of_restrict.step hstep, (multicast_once pairConfig).2 t _ _ h.of_restrict hstep
      fun hno => hno 0 rfl (by decide) hstate⟩

/-- The first node is still in the multicast phase when the second one hands over. -/
theorem multicast_twice : ∃ t, (allgather pairConfig).Reachable t ∧ t.multicasts 0 = 2 := by
  obtain ⟨t, h, hs, hk, hstate, hmulticasts, -⟩ := handsBack
  have hstep : (allgather pairConfig).step t (.handOver 0) _ := .handOver hs hk
  refine ⟨_, h.of_restrict.step hstep, ?_⟩
  rw [startMulticast, if_neg (not_not.mpr hstate)]
  simp only [update_self, hmulticasts]

end AgApps
end Roce
