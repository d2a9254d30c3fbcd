import Roce.Allgather.Deliveries

/-! # The immediate values of the multicast packets

`StartMulticast` asks for an immediate value for each packet of its block. The send queue takes each
request for one fragment, and replaces the value by the number of the fragment. So all packets count
for the first chunk of the first block, which does not end a chain, and nobody leaves the multicast
phase because of them. -/

namespace Roce
namespace AgApps

open Function

/-- The packets that `k` calls of `GetNextPacket` hand out. -/
def sentPackets : Nat → RdmaUnreliableSQ → List Packet
  | 0, _ => []
  | k + 1, sq =>
    match sq.getNextPacket fun _ => [] with
    | none => []
    | some (p, sq) => p :: sentPackets k sq

/-- The packets of a block, as the queue pair of its node sends them after `StartMulticast`. -/
def sentBlock (cfg : McastConfig) (s : Fin cfg.nodes) : List Packet :=
  sentPackets cfg.getPerBlockPacketCount (postBlock cfg ((initial cfg).mcast s) s)

/-- A packet as its sender sends it is received. -/
def deliverSent (cfg : McastConfig) (t : AgApps cfg.nodes) (d : Delivery cfg.nodes) :
    Option (AgApps cfg.nodes) := do
  let p ← (sentBlock cfg d.sender)[d.offset]?
  t.receiveMcast cfg d.receiver p

/-- The deliveries of the packets that are sent, in any order. -/
def sentDeliveries (cfg : McastConfig) : Machine (AgApps cfg.nodes) (Delivery cfg.nodes) :=
  ⟨(· = initial cfg), fun t d t' => t.deliverSent cfg d = some t'⟩

/-! ## The send queue -/

/-- The requests that wait will be cut into fragments, take one packet each, and are not begun. -/
def Unfragmented (sq : RdmaUnreliableSQ) : Prop :=
  ∀ work ∈ sq.toSend, work.fragmentAsImmediate = true ∧ work.sr.payloadSize.toNat ≤ sq.mtu ∧
    work.bytesSent = 0 ∧ work.sentFragments = 0

/-- What the receive queue reads of the first fragment of a request. -/
structure FirstFragment (p : Packet) : Prop where
  reliable : p.bth.reliable = false
  notif : p.bth.notif = true
  imm : p.bth.imm = 0

variable {cfg : McastConfig} {sq sq' : RdmaUnreliableSQ}

theorem unfragmented_initial (mtu : Nat) : Unfragmented { mtu } := nofun

/-- `StartMulticast` posts the requests of one MTU that a block takes. -/
theorem Unfragmented.postBlock (h : Unfragmented sq) (block : Nat) :
    Unfragmented (AgApps.postBlock cfg sq block) ∧
      (AgApps.postBlock cfg sq block).toSend.length =
        sq.toSend.length + cfg.getPerBlockPacketCount := by
  have hposts (ks : List Nat) (sq : RdmaUnreliableSQ) (h : Unfragmented sq) :
      let sq' := ks.foldl
        (fun sq k => sq.postSendDefault (blockRequest cfg sq.mtu block k)) sq
      Unfragmented sq' ∧ sq'.toSend.length = sq.toSend.length + ks.length := by
    induction ks generalizing sq with
    | nil => exact ⟨h, rfl⟩
    | cons k ks ih =>
      have hpost : Unfragmented (sq.postSendDefault (blockRequest cfg sq.mtu block k)) := by
        intro work hwork
        rcases List.mem_append.mp hwork with hold | hnew
        · exact h work hold
        · rw [List.mem_singleton.mp hnew]
          refine ⟨rfl, ?_, rfl, rfl⟩
          show (UInt32.ofNat sq.mtu).toNat ≤ sq.mtu
          rw [UInt32.toNat_ofNat']
          exact Nat.mod_le ..
      obtain ⟨hall, hlen⟩ := ih _ hpost
      refine ⟨hall, hlen.trans ?_⟩
      rw [RdmaUnreliableSQ.postSendDefault, RdmaUnreliableSQ.postSend, List.length_append,
        List.length_singleton, List.length_cons, Nat.add_assoc, Nat.add_comm 1]
  have hall := hposts (List.range cfg.getPerBlockPacketCount) sq h
  rwa [List.length_range] at hall

/-- The next packet is a whole request, and the immediate value of the request is lost. -/
theorem Unfragmented.getNextPacket (h : Unfragmented sq)
    (hnext : sq.getNextPacket (fun _ => []) = some (p, sq')) :
    FirstFragment p ∧ Unfragmented sq' ∧ sq.toSend.length = sq'.toSend.length + 1 := by
  obtain ⟨work, rest, hsend, hcases⟩ := RdmaUnreliableSQ.getNextPacket_cases hnext
  obtain ⟨hfragment, hsize, hbytes, hsent⟩ := h work (hsend ▸ List.mem_cons_self)
  have himm : RdmaUnreliableSQ.nextImm work = 0 := by
    rw [RdmaUnreliableSQ.nextImm, if_pos hfragment, hsent]
  rcases hcases with ⟨hlarge, -⟩ | ⟨-, rfl, rfl⟩
  · rw [hbytes, UInt32.sub_zero] at hlarge
    exact absurd hsize (Nat.not_le_of_lt hlarge)
  · rw [RdmaUnreliableSQ.callOnSend_nil]
    refine ⟨⟨rfl, rfl, himm⟩, fun work' hwork => ?_, ?_⟩
    · exact h work' (hsend ▸ List.mem_cons_of_mem _ hwork)
    · rw [hsend]
      rfl

theorem sentPackets_spec (h : Unfragmented sq) {k : Nat} (hk : k ≤ sq.toSend.length) :
    (sentPackets k sq).length = k ∧ ∀ p ∈ sentPackets k sq, FirstFragment p := by
  induction k generalizing sq with
  | zero => exact ⟨rfl, nofun⟩
  | succ k ih =>
    unfold sentPackets
    cases hnext : sq.getNextPacket fun _ => [] with
    | none =>
      unfold RdmaUnreliableSQ.getNextPacket at hnext
      split at hnext
      next hempty =>
        rw [hempty] at hk
        cases hk
      next =>
        dsimp only at hnext
        split at hnext <;> cases hnext
    | some next =>
      obtain ⟨hp, hrest, hlen⟩ := h.getNextPacket hnext
      obtain ⟨hcount, hall⟩ := ih hrest (Nat.le_of_succ_le_succ (hk.trans_eq hlen))
      exact ⟨congrArg (· + 1) hcount, List.forall_mem_cons.mpr ⟨hp, hall⟩⟩

theorem sentBlock_spec (cfg : McastConfig) (s : Fin cfg.nodes) :
    (sentBlock cfg s).length = cfg.getPerBlockPacketCount ∧
      ∀ p ∈ sentBlock cfg s, FirstFragment p := by
  obtain ⟨hall, hlen⟩ := (unfragmented_initial cfg.mtu).postBlock s
  exact sentPackets_spec hall (hlen ▸ Nat.le_add_left ..)

/-! ## The receivers -/

variable {t t' : AgApps cfg.nodes} {i : Fin cfg.nodes}

/-- No node has left the multicast phase, and no message of the recovery is on its way. -/
structure AllMulticast (t : AgApps n) : Prop where
  state : ∀ i, (t.ring.node i).state = .multicast
  quiet : t.ring.Quiet

theorem initial_allMulticast (cfg : McastConfig) : AllMulticast (initial cfg) :=
  ⟨fun _ => rfl, fun _ => ⟨rfl, rfl, rfl, rfl⟩⟩

theorem FirstFragment.receiveMcast (h : FirstFragment p) :
    t.receiveMcast cfg i p = t.onRecvMcast cfg i 0 := by
  rw [AgApps.receiveMcast, RdmaUnreliableRQ.receiveUdp, if_neg (by rw [h.reliable]; decide),
    h.notif]
  show t.onRecvMcast cfg i p.bth.imm.toNat = _
  rw [h.imm]
  rfl

/-- The first node does not end a chain. -/
theorem isLastChunkOfChain_zero (hn : 1 ≤ cfg.nodes) : cfg.isLastChunkOfChain 0 = false := by
  have horder : cfg.getChainOrder (cfg.getOriginalSender 0) = .first := by
    rw [AgConfig.getOriginalSender, Nat.zero_div, McastConfig.getChainOrder,
      if_pos (McastConfig.isFirstInChain_zero hn)]
  rw [McastConfig.isLastChunkOfChain, horder]
  rfl

/-- The recovery is started only if the node has left the multicast phase. -/
theorem notifyReceivePacket_ready {rt : AgRuntime}
    (h : rt.notifyReceivePacket cfg mp sh packet = some (rt', mp', sh', true)) :
    rt'.state = .recovery := by
  unfold AgRuntime.notifyReceivePacket at h
  split at h
  · cases h
  · dsimp only at h
    split at h
    · obtain ⟨⟨marked, new⟩, -, h⟩ := Option.bind_eq_some_iff.mp h
      obtain ⟨⟨rt₂, mp₂, sh₂⟩, -, h⟩ := Option.bind_eq_some_iff.mp h
      simp only [Option.pure_def, Option.some.injEq, Prod.mk.injEq, Bool.and_eq_true,
        decide_eq_true_eq] at h
      rw [← h.1]
      exact h.2.2.2.2
    · cases h

/-- A packet with the immediate value 0 is counted, and marks at most the first chunk. -/
theorem AllMulticast.onRecvMcast (h : AllMulticast t) (i : Fin cfg.nodes) :
    ∃ t', t.onRecvMcast cfg i 0 = some t' ∧ AllMulticast t' ∧ t'.mcast = t.mcast ∧
      t'.air = t.air := by
  obtain ⟨rt, mp, sh, ready, heq, hrec⟩ :=
    notifyReceivePacket_received cfg (t.progress i) t.ring.shared (h.state i) 0
  rw [Nat.zero_mod, Nat.zero_div] at hrec
  have hfirst := isLastChunkOfChain_zero (Nat.lt_of_le_of_lt i.val.zero_le i.isLt)
  have hstate : rt.state = .multicast := by
    cases hrec with
    | packet => exact h.state i
    | chunk => exact h.state i
    | chain _ _ hlast => rw [hfirst] at hlast; cases hlast
    | leave _ _ hlast => rw [hfirst] at hlast; cases hlast
  have hready : ready = false := by
    cases ready with
    | false => rfl
    | true =>
      rw [notifyReceivePacket_ready heq] at hstate
      cases hstate
  subst hready
  rw [AgApps.onRecvMcast, if_neg (not_not.mpr (h.state i))]
  simp only [heq, Option.bind_eq_bind, Option.bind_some, Option.pure_def, Bool.false_eq_true,
    ↓reduceIte]
  refine ⟨_, rfl, ⟨fun k => ?_, h.quiet⟩, rfl, rfl⟩
  show (update t.ring.node i rt k).state = .multicast
  by_cases hk : k = i
  · rw [hk, update_self, hstate]
  · rw [update_of_ne hk, h.state k]

theorem AllMulticast.receiveMcast (h : AllMulticast t) (hp : FirstFragment p) (i : Fin cfg.nodes) :
    ∃ t', t.receiveMcast cfg i p = some t' ∧ AllMulticast t' ∧ t'.mcast = t.mcast ∧
      t'.air = t.air := by
  rw [hp.receiveMcast]
  exact h.onRecvMcast i

/-! ## The runs -/

theorem AllMulticast.deliverSent (h : AllMulticast t) {d : Delivery cfg.nodes}
    (hst : t.deliverSent cfg d = some t') : AllMulticast t' := by
  obtain ⟨p, hp, hst⟩ := Option.bind_eq_some_iff.mp hst
  obtain ⟨t₁, heq, hall, -⟩ :=
    h.receiveMcast ((sentBlock_spec cfg d.sender).2 p (List.mem_of_getElem? hp)) d.receiver
  rw [heq] at hst
  exact Option.some.inj hst ▸ hall

/-- No node leaves the multicast phase, whatever it receives. -/
theorem sentDeliveries_allMulticast {ds : List (Delivery cfg.nodes)}
    (h : (sentDeliveries cfg).Run (initial cfg) ds t) : AllMulticast t :=
  h.preserves (I := AllMulticast) (fun hall hst => hall.deliverSent hst) (initial_allMulticast cfg)

/-- No delivery fails. -/
theorem exists_sentDeliveries (cfg : McastConfig) {ds : List (Delivery cfg.nodes)}
    (hds : ∀ d ∈ ds, d.offset < cfg.getPerBlockPacketCount) :
    ∃ t, (sentDeliveries cfg).Run (initial cfg) ds t := by
  induction ds using List.reverseRecOn with
  | nil => exact ⟨_, .nil⟩
  | append_singleton ds d ih =>
    obtain ⟨t, ht⟩ := ih fun e he => hds e (List.mem_append_left _ he)
    obtain ⟨hlen, hall⟩ := sentBlock_spec cfg d.sender
    have hoff : d.offset < (sentBlock cfg d.sender).length :=
      hlen ▸ hds d (List.mem_append_right _ List.mem_cons_self)
    obtain ⟨t', ht', -⟩ := (sentDeliveries_allMulticast ht).receiveMcast
      (hall _ (List.getElem_mem hoff)) d.receiver
    refine ⟨t', .snoc ht ?_⟩
    show t.deliverSent cfg d = some t'
    rw [AgApps.deliverSent, List.getElem?_eq_getElem hoff]
    exact ht'

/-- What holds of an allgather until a timer fires. -/
structure OnlyFirst (t : AgApps n) : Prop extends AllMulticast t where
  posted : ∀ i, Unfragmented (t.mcast i)
  air : ∀ s i, ∀ p ∈ t.air s i, FirstFragment p

/-- An event that is not the timeout of a node. -/
def Untimed : Event n → Prop
  | .cutoff _ | .markov _ _ => False
  | _ => True

theorem OnlyFirst.startMulticast (h : OnlyFirst t) (i : Fin cfg.nodes) :
    OnlyFirst (t.startMulticast cfg i) := by
  unfold AgApps.startMulticast
  split
  · exact h
  · refine ⟨⟨h.state, h.quiet⟩, fun k => ?_, h.air⟩
    show Unfragmented (update t.mcast i _ k)
    by_cases hk : k = i
    · rw [hk, update_self]
      exact ((h.posted i).postBlock _).1
    · rw [update_of_ne hk]
      exact h.posted k

/-- No message of the recovery is on its way, so nothing of it can be received. -/
theorem not_step_of_quiet {ring ring' : AgRing n} (h : ring.Quiet) {e : AgRing.Event n}
    (he : ∀ i, e ≠ .leave i) : ¬AgRing.Step cfg.toAgConfig ring e ring' := by
  intro hst
  cases hst with
  | leave => exact he _ rfl
  | request hq => rw [(h _).1] at hq; cases hq
  | requestAck hq => rw [(h _).2.1] at hq; cases hq
  | block hq => rw [(h _).2.2.1] at hq; cases hq
  | blockAck hq => rw [(h _).2.2.2] at hq; cases hq

theorem OnlyFirst.step {e : Event cfg.nodes} (h : OnlyFirst t) (he : Untimed e)
    (hst : (allgather cfg).step t e t') : OnlyFirst t' := by
  cases hst with
  | start hst =>
    unfold startApplication at hst
    split at hst
    · cases hst
    · have hstarted : ∀ started timeout, OnlyFirst { t with started, timeout } :=
        fun _ _ => ⟨⟨h.state, h.quiet⟩, h.posted, h.air⟩
      dsimp only at hst
      split at hst
      · exact Option.some.inj hst ▸ hstarted _ _
      · split at hst
        · exact Option.some.inj hst ▸ (hstarted _ _).startMulticast _
        · exact Option.some.inj hst ▸ hstarted _ _
  | @transmit p onSend _ i sq hnext hsent =>
    obtain ⟨hp, hrest, -⟩ := (h.posted i).getNextPacket hnext
    refine ⟨⟨h.state, h.quiet⟩, fun k => ?_, fun s j q hq => ?_⟩
    · show Unfragmented (update t.mcast i sq k)
      by_cases hk : k = i
      · rw [hk, update_self]
        exact hrest
      · rw [update_of_ne hk]
        exact h.posted k
    · change q ∈ update t.air i _ s j at hq
      by_cases hs : s = i
      · rw [hs, update_self] at hq
        split at hq
        · exact h.air i j q hq
        · rcases List.mem_append.mp hq with hold | hnew
          · exact h.air i j q hold
          · rw [List.mem_singleton.mp hnew]
            exact hp
      · rw [update_of_ne hs] at hq
        exact h.air s j q hq
  | @receive p _ _ s i hs hp hst =>
    have hp := h.air s i p hp
    have hair : AllMulticast
        { t with air := update t.air s (update (t.air s) i ((t.air s i).erase p)) } :=
      ⟨h.state, h.quiet⟩
    obtain ⟨t₁, heq, hall, hmcast, hrest⟩ := hair.receiveMcast hp i
    rw [hst, Option.some.injEq] at heq
    subst heq
    refine ⟨hall, hmcast ▸ h.posted, fun s' j q hq => h.air s' j q ?_⟩
    rw [hrest] at hq
    change q ∈ update t.air s _ s' j at hq
    by_cases hs' : s' = s
    · rw [hs', update_self] at hq
      rw [hs']
      by_cases hj : j = i
      · rw [hj, update_self] at hq
        rw [hj]
        exact List.mem_of_mem_erase hq
      · rwa [update_of_ne hj] at hq
    · rwa [update_of_ne hs'] at hq
  | handOver hs hk =>
    refine OnlyFirst.startMulticast ?_ _
    exact ⟨⟨h.state, h.quiet⟩, h.posted, h.air⟩
  | cutoff => cases he
  | markov => cases he
  | recovery hleave _ hst => exact absurd hst (not_step_of_quiet h.quiet hleave)

/-- Before the first timeout all nodes are in the multicast phase, however many packets they have
received. -/
theorem allgather_onlyFirst {es : List (Event cfg.nodes)} (hes : ∀ e ∈ es, Untimed e)
    (h : (allgather cfg).Run (initial cfg) es t) : OnlyFirst t := by
  induction h with
  | nil => exact ⟨initial_allMulticast cfg, fun _ => unfragmented_initial _, fun _ _ _ => nofun⟩
  | snoc _ hst ih =>
    exact (ih fun e he => hes e (List.mem_append_left _ he)).step
      (hes _ (List.mem_append_right _ List.mem_cons_self)) hst

end AgApps
end Roce
