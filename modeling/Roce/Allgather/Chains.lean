import Mathlib.Algebra.Order.Ring.Nat
import Mathlib.Data.Finset.Card
import Mathlib.Data.Finset.Image
import Mathlib.Data.Finset.Range
import Roce.Allgather.Config

/-! # The chains of the multicast phase

The part of `ag-config.cc` that the multicast phase reads: the packets of a block and the immediate
values they carry, and the division of the nodes into `RootCount` chains. The nodes of a chain
multicast their blocks one after the other, all chains at the same time. -/

namespace Roce

/-- The members of `AgConfig` that the multicast phase reads, with their default values. -/
structure McastConfig extends AgConfig where
  mtu : Nat
  roots : Nat := 1
  mcastStrategy : String := "simulate"
  deriving DecidableEq, Repr

inductive AgChainOrder where
  | first
  | middle
  | last
  deriving DecidableEq, Repr

namespace McastConfig

variable (cfg : McastConfig)

def getRootCount : Nat := cfg.roots

def shouldSkipMcast : Bool := cfg.mcastStrategy = "markov"

def getPerChunkPacketCount : Nat := ceilDiv cfg.csize cfg.mtu

def getPerBlockPacketCount : Nat := cfg.getPerChunkPacketCount * cfg.getPerBlockChunkCount

/-- `GetMcastImmData`, a 32-bit value. -/
def getMcastImmData (sender pktOffset : Nat) : Nat :=
  (sender * cfg.getPerBlockPacketCount + pktOffset) % 2 ^ 32

/-- `ParseMcastImmData`: the sender and the chunk. -/
def parseMcastImmData (imm : Nat) : Nat × Nat :=
  (cfg.getOriginalSender (imm / cfg.getPerChunkPacketCount), imm / cfg.getPerChunkPacketCount)

def getNearestFirstBlockHigherOrEqu (block : Nat) : Nat :=
  ceilDiv (block * cfg.roots) cfg.nodes * cfg.nodes / cfg.roots

def isFirstInChain (block : Nat) : Bool := block = cfg.getNearestFirstBlockHigherOrEqu block

def getChainOrder (block : Nat) : AgChainOrder :=
  if cfg.isFirstInChain block then .first
  else if cfg.isFirstInChain ((block + 1) % cfg.nodes) then .last
  else .middle

def isLastChunkOfBlock (chunk : Nat) : Bool := (chunk + 1) % cfg.getPerBlockChunkCount = 0

def isLastChunkOfChain (chunk : Nat) : Bool :=
  cfg.getChainOrder (cfg.getOriginalSender chunk) = .last && cfg.isLastChunkOfBlock chunk

/-- The first node of the chain `k`. -/
def chainStart (k : Nat) : Nat := k * cfg.nodes / cfg.roots

/-! ## The first node of a chain -/

theorem ceilDiv_eq {x n k : Nat} (hlo : k * n < x + n) (hhi : x ≤ k * n) : ceilDiv x n = k := by
  refine Nat.div_eq_of_lt_le ?_ ?_
  · omega
  · rw [Nat.add_mul, Nat.one_mul]
    omega

section Chains

variable {cfg} (hr : 1 ≤ cfg.roots) (hrn : cfg.roots ≤ cfg.nodes)

@[simp] theorem chainStart_zero : cfg.chainStart 0 = 0 := by
  rw [chainStart, Nat.zero_mul, Nat.zero_div]

theorem isFirstInChain_zero (hn : 1 ≤ cfg.nodes) : cfg.isFirstInChain 0 = true := by
  have hceil : ceilDiv (0 * cfg.roots) cfg.nodes = 0 := ceilDiv_eq (by omega) (by omega)
  rw [isFirstInChain, getNearestFirstBlockHigherOrEqu, hceil, Nat.zero_mul, Nat.zero_div]
  rfl

include hr

theorem chainStart_roots : cfg.chainStart cfg.roots = cfg.nodes :=
  Nat.mul_div_cancel_left _ hr

/-- A gap between two chains is at least `m` nodes wide if there are `m` nodes for each root. -/
theorem chainStart_add_le {m : Nat} (h : m * cfg.roots ≤ cfg.nodes) (k : Nat) :
    cfg.chainStart k + m ≤ cfg.chainStart (k + 1) := by
  rw [chainStart, chainStart, ← Nat.add_mul_div_right _ _ hr, Nat.add_mul, Nat.one_mul]
  exact Nat.div_le_div_right (Nat.add_le_add_left h _)

include hrn

theorem chainStart_strictMono : StrictMono cfg.chainStart :=
  strictMono_nat_of_lt_succ fun k =>
    chainStart_add_le hr ((Nat.one_mul _).symm ▸ hrn : 1 * cfg.roots ≤ cfg.nodes) k

theorem ceilDiv_chainStart (k : Nat) : ceilDiv (cfg.chainStart k * cfg.roots) cfg.nodes = k := by
  have hlt := Nat.lt_div_mul_add (a := k * cfg.nodes) hr
  have hle := Nat.div_mul_le_self (k * cfg.nodes) cfg.roots
  refine ceilDiv_eq ?_ hle
  rw [chainStart]
  omega

/-- A node is first in its chain if it is the first node of some chain. -/
theorem isFirstInChain_iff {b : Nat} (hb : b < cfg.nodes) :
    cfg.isFirstInChain b = true ↔ ∃ k < cfg.roots, b = cfg.chainStart k := by
  constructor
  · intro h
    have hb' : b = cfg.chainStart (ceilDiv (b * cfg.roots) cfg.nodes) := of_decide_eq_true h
    refine ⟨_, ?_, hb'⟩
    rw [← (chainStart_strictMono hr hrn).lt_iff_lt, ← hb', chainStart_roots hr]
    exact hb
  · rintro ⟨k, -, rfl⟩
    rw [isFirstInChain, getNearestFirstBlockHigherOrEqu, ceilDiv_chainStart hr hrn]
    exact decide_eq_true rfl

/-! ## The last node of a chain -/

/-- A node is last in its chain if the next chain follows it and it is not the first one. -/
theorem getChainOrder_eq_last {b : Nat} (hb : b < cfg.nodes) : cfg.getChainOrder b = .last ↔
    ∃ k < cfg.roots, b + 1 = cfg.chainStart (k + 1) ∧ cfg.chainStart k < b := by
  have hmono := chainStart_strictMono hr hrn
  have hlast : cfg.getChainOrder b = .last ↔
      cfg.isFirstInChain b = false ∧ cfg.isFirstInChain ((b + 1) % cfg.nodes) = true := by
    unfold getChainOrder
    cases cfg.isFirstInChain b <;> cases cfg.isFirstInChain ((b + 1) % cfg.nodes) <;> simp
  rw [hlast, ← Bool.not_eq_true, isFirstInChain_iff hr hrn hb,
    isFirstInChain_iff hr hrn (Nat.mod_lt _ (Nat.zero_lt_of_lt hb))]
  constructor
  · rintro ⟨hfirst, j, hj, hnext⟩
    obtain ⟨k, hk, hend⟩ : ∃ k < cfg.roots, b + 1 = cfg.chainStart (k + 1) := by
      by_cases hbn : b + 1 = cfg.nodes
      · refine ⟨cfg.roots - 1, by omega, ?_⟩
        rw [Nat.sub_add_cancel hr, chainStart_roots hr, hbn]
      · rw [Nat.mod_eq_of_lt (by omega)] at hnext
        cases j with
        | zero =>
          rw [chainStart_zero] at hnext
          cases hnext
        | succ j => exact ⟨j, by omega, hnext⟩
    refine ⟨k, hk, hend, ?_⟩
    have hlt : cfg.chainStart k < cfg.chainStart (k + 1) := hmono (Nat.lt_succ_self k)
    have hne : b ≠ cfg.chainStart k := fun heq => hfirst ⟨k, hk, heq⟩
    omega
  · rintro ⟨k, hk, hend, hlt⟩
    constructor
    · rintro ⟨j, -, rfl⟩
      have hkj := hmono.lt_iff_lt.mp hlt
      have hjk : j < k + 1 := hmono.lt_iff_lt.mp (by omega)
      omega
    · by_cases hkr : k + 1 = cfg.roots
      · refine ⟨0, by omega, ?_⟩
        rw [hend, hkr, chainStart_roots hr, Nat.mod_self, chainStart_zero]
      · refine ⟨k + 1, by omega, ?_⟩
        rw [hend, Nat.mod_eq_of_lt]
        rw [← chainStart_roots hr]
        exact hmono (by omega)

/-- The blocks of the nodes that are last in their chain. -/
def lastBlocks (cfg : McastConfig) : Finset Nat :=
  (Finset.range cfg.nodes).filter fun b => cfg.getChainOrder b = .last

/-- The last nodes of the chains that have more than one node. -/
theorem lastBlocks_eq : cfg.lastBlocks =
    ((Finset.range cfg.roots).filter fun k => cfg.chainStart k + 2 ≤ cfg.chainStart (k + 1)).image
      fun k => cfg.chainStart (k + 1) - 1 := by
  have hmono := chainStart_strictMono hr hrn
  ext b
  simp only [lastBlocks, Finset.mem_filter, Finset.mem_range, Finset.mem_image]
  constructor
  · rintro ⟨hb, hlast⟩
    obtain ⟨k, hk, hend, hlt⟩ := (getChainOrder_eq_last hr hrn hb).mp hlast
    exact ⟨k, ⟨hk, by omega⟩, by omega⟩
  · rintro ⟨k, ⟨hk, hwide⟩, rfl⟩
    have hle := hmono.monotone hk
    rw [Nat.succ_eq_add_one, chainStart_roots hr] at hle
    have hb : cfg.chainStart (k + 1) - 1 < cfg.nodes := by omega
    exact ⟨hb, (getChainOrder_eq_last hr hrn hb).mpr ⟨k, hk, by omega, by omega⟩⟩

theorem card_lastBlocks : cfg.lastBlocks.card = ((Finset.range cfg.roots).filter fun k =>
    cfg.chainStart k + 2 ≤ cfg.chainStart (k + 1)).card := by
  have hmono := chainStart_strictMono hr hrn
  rw [lastBlocks_eq hr hrn]
  refine Finset.card_image_of_injOn fun j _ k _ heq => ?_
  have heq : cfg.chainStart (j + 1) - 1 = cfg.chainStart (k + 1) - 1 := heq
  have hj : cfg.chainStart 0 < cfg.chainStart (j + 1) := hmono (Nat.zero_lt_succ j)
  have hk : cfg.chainStart 0 < cfg.chainStart (k + 1) := hmono (Nat.zero_lt_succ k)
  have hjk : cfg.chainStart (j + 1) = cfg.chainStart (k + 1) := by omega
  exact Nat.succ_injective (hmono.injective hjk)

theorem card_lastBlocks_le : cfg.lastBlocks.card ≤ cfg.roots := by
  rw [card_lastBlocks hr hrn]
  exact (Finset.card_filter_le _ _).trans (Finset.card_range _).le

/-- Each chain has a last node that is not also its first one, if and only if there are two nodes
for each root. -/
theorem card_lastBlocks_eq_iff : cfg.lastBlocks.card = cfg.roots ↔ 2 * cfg.roots ≤ cfg.nodes := by
  rw [card_lastBlocks hr hrn]
  constructor
  · intro h
    have hall : ∀ k < cfg.roots, cfg.chainStart k + 2 ≤ cfg.chainStart (k + 1) := by
      intro k hk
      have hfilter := Finset.card_filter_eq_iff.mp (h.trans (Finset.card_range _).symm)
      exact hfilter k (Finset.mem_range.mpr hk)
    have hsum : ∀ k ≤ cfg.roots, 2 * k ≤ cfg.chainStart k := by
      intro k
      induction k with
      | zero => exact fun _ => Nat.zero_le _
      | succ k ih =>
        intro hk
        have hwide := hall k hk
        have hle := ih (Nat.le_of_succ_le hk)
        omega
    exact chainStart_roots hr ▸ hsum cfg.roots le_rfl
  · intro h
    rw [Finset.filter_true_of_mem fun k _ => chainStart_add_le hr h k, Finset.card_range]

end Chains
end McastConfig
end Roce
