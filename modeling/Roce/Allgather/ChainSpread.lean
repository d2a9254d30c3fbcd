import Mathlib.Order.Bounds.Basic
import Roce.Allgather.Chains

/-! # The chains are evenly spread

The chains are as long as each other up to one node, and the code finds the next start of a chain by
a rounded division there and back. The division rounds up by adding the divisor first, and it is
this sum that has to fit into 64 bits. -/

namespace Roce
namespace McastConfig

/-- The number of nodes of a chain. -/
def chainLength (cfg : McastConfig) (k : Nat) : Nat := cfg.chainStart (k + 1) - cfg.chainStart k

section
variable {cfg : McastConfig} (hr : 1 ≤ cfg.roots) (hrn : cfg.roots ≤ cfg.nodes)

/-- `CeilDiv` is the least factor that reaches the number. -/
theorem ceilDiv_le_iff {x n k : Nat} (hn : 0 < n) : ceilDiv x n ≤ k ↔ x ≤ k * n := by
  rw [ceilDiv, ← Nat.lt_succ_iff, Nat.div_lt_iff_lt_mul hn, Nat.succ_mul]
  omega

include hr

theorem chainLength_le (j k : Nat) : cfg.chainLength j ≤ cfg.chainLength k + 1 := by
  have hlen : ∀ i, cfg.chainLength i = cfg.nodes / cfg.roots ∨
      cfg.chainLength i = cfg.nodes / cfg.roots + 1 := by
    intro i
    rw [chainLength, chainStart, chainStart, Nat.add_mul, Nat.one_mul, Nat.add_div hr,
      Nat.add_assoc, Nat.add_sub_cancel_left]
    split
    · exact .inr rfl
    · exact .inl rfl
  have hj := hlen j
  have hk := hlen k
  omega

include hrn

/-- The nodes that are first in their chain are as many as the roots. -/
theorem card_isFirstInChain :
    ((Finset.range cfg.nodes).filter (cfg.isFirstInChain ·)).card = cfg.roots := by
  have hmono := chainStart_strictMono hr hrn
  have himage : (Finset.range cfg.nodes).filter (cfg.isFirstInChain ·) =
      (Finset.range cfg.roots).image cfg.chainStart := by
    ext b
    simp only [Finset.mem_filter, Finset.mem_range, Finset.mem_image]
    constructor
    · rintro ⟨hb, hfirst⟩
      obtain ⟨k, hk, rfl⟩ := (isFirstInChain_iff hr hrn hb).mp hfirst
      exact ⟨k, hk, rfl⟩
    · rintro ⟨k, hk, rfl⟩
      have hlt : cfg.chainStart k < cfg.nodes := by
        have := hmono hk
        rwa [chainStart_roots hr] at this
      exact ⟨hlt, (isFirstInChain_iff hr hrn hlt).mpr ⟨k, hk, rfl⟩⟩
  rw [himage, Finset.card_image_of_injective _ hmono.injective, Finset.card_range]

theorem isLeast_getNearestFirstBlockHigherOrEqu {b : Nat} (hb : b ≤ cfg.nodes) :
    IsLeast {s | b ≤ s ∧ (s < cfg.nodes ∧ cfg.isFirstInChain s = true ∨ s = cfg.nodes)}
      (cfg.getNearestFirstBlockHigherOrEqu b) := by
  have hmono := chainStart_strictMono hr hrn
  have hn : 0 < cfg.nodes := Nat.lt_of_lt_of_le hr hrn
  have hnearest : cfg.getNearestFirstBlockHigherOrEqu b =
      cfg.chainStart (ceilDiv (b * cfg.roots) cfg.nodes) := rfl
  have hceil : ∀ k, ceilDiv (b * cfg.roots) cfg.nodes ≤ k ↔ b ≤ cfg.chainStart k := fun k => by
    rw [ceilDiv_le_iff hn, chainStart, Nat.le_div_iff_mul_le hr]
  rw [hnearest]
  refine ⟨⟨(hceil _).mp le_rfl, ?_⟩, ?_⟩
  · have hle : ceilDiv (b * cfg.roots) cfg.nodes ≤ cfg.roots := by
      rw [hceil, chainStart_roots hr]
      exact hb
    rcases Nat.lt_or_eq_of_le hle with hlt | heq
    · have hstart := hmono hlt
      rw [chainStart_roots hr] at hstart
      exact .inl ⟨hstart, (isFirstInChain_iff hr hrn hstart).mpr ⟨_, hlt, rfl⟩⟩
    · rw [heq]
      exact .inr (chainStart_roots hr)
  · rintro s ⟨hbs, ⟨hs, hfirst⟩ | rfl⟩
    · obtain ⟨k, -, rfl⟩ := (isFirstInChain_iff hr hrn hs).mp hfirst
      exact hmono.monotone ((hceil k).mpr hbs)
    · have hle := hmono.monotone ((hceil cfg.roots).mpr (by rw [chainStart_roots hr]; exact hb))
      rwa [chainStart_roots hr] at hle

end
end McastConfig

/-! ## With 64 bits -/

/-- `CeilDiv<uint64_t>`. -/
def ceilDiv64 (num den : UInt64) : UInt64 := (num + den - 1) / den

/-- The members of `AgConfig` that the chains depend on. -/
structure ChainConfig where
  nodes : UInt64
  roots : UInt64
  deriving DecidableEq, Repr

namespace ChainConfig

def getNearestFirstBlockHigherOrEqu (cfg : ChainConfig) (block : UInt64) : UInt64 :=
  ceilDiv64 (block * cfg.roots) cfg.nodes * cfg.nodes / cfg.roots

def isFirstInChain (cfg : ChainConfig) (block : UInt64) : Bool :=
  block = cfg.getNearestFirstBlockHigherOrEqu block

/-- The same configuration with natural numbers. -/
def toMcastConfig (cfg : ChainConfig) : McastConfig where
  nodes := cfg.nodes.toNat
  roots := cfg.roots.toNat
  mtu := 1

/-- The starts of the chains: where they are, how many, how they are found, and how far they are
from each other. -/
structure EvenlySpread (cfg : ChainConfig) : Prop where
  starts : ∀ b < cfg.nodes, cfg.isFirstInChain b ↔
    ∃ k < cfg.roots.toNat, b.toNat = k * cfg.nodes.toNat / cfg.roots.toNat
  count : ((Finset.range cfg.nodes.toNat).filter (cfg.isFirstInChain <| UInt64.ofNat ·)).card =
    cfg.roots.toNat
  nearest : ∀ b ≤ cfg.nodes,
    IsLeast {s | b ≤ s ∧ (s < cfg.nodes ∧ cfg.isFirstInChain s ∨ s = cfg.nodes)}
      (cfg.getNearestFirstBlockHigherOrEqu b)
  lengths : ∀ j < cfg.roots.toNat, ∀ k < cfg.roots.toNat,
    cfg.toMcastConfig.chainLength j ≤ cfg.toMcastConfig.chainLength k + 1

section
variable {cfg : ChainConfig} (hr : 1 ≤ cfg.roots) (hrn : cfg.roots ≤ cfg.nodes)
  (hfit : cfg.nodes.toNat * cfg.roots.toNat + cfg.nodes.toNat ≤ 2 ^ 64)

theorem toNat_ceilDiv64 {num den : UInt64} (hden : 0 < den.toNat)
    (h : num.toNat + den.toNat ≤ 2 ^ 64) :
    (ceilDiv64 num den).toNat = ceilDiv num.toNat den.toNat := by
  have hsum : (num + den - 1).toNat = num.toNat + den.toNat - 1 := by
    rw [UInt64.toNat_sub, UInt64.toNat_add]
    simp only [UInt64.reduceToNat]
    omega
  rw [ceilDiv64, UInt64.toNat_div, hsum, ceilDiv]

include hr hrn hfit

/-- Nothing wraps around. -/
theorem toNat_getNearestFirstBlockHigherOrEqu {b : UInt64} (hb : b ≤ cfg.nodes) :
    (cfg.getNearestFirstBlockHigherOrEqu b).toNat =
      cfg.toMcastConfig.getNearestFirstBlockHigherOrEqu b.toNat := by
  have hr' : 1 ≤ cfg.roots.toNat := UInt64.le_iff_toNat_le.mp hr
  have hrn' : cfg.roots.toNat ≤ cfg.nodes.toNat := UInt64.le_iff_toNat_le.mp hrn
  have hb' : b.toNat * cfg.roots.toNat ≤ cfg.nodes.toNat * cfg.roots.toNat :=
    Nat.mul_le_mul_right _ (UInt64.le_iff_toNat_le.mp hb)
  have hprod : (b * cfg.roots).toNat = b.toNat * cfg.roots.toNat := by
    rw [UInt64.toNat_mul, Nat.mod_eq_of_lt (by omega)]
  have hceil : (ceilDiv64 (b * cfg.roots) cfg.nodes).toNat =
      ceilDiv (b.toNat * cfg.roots.toNat) cfg.nodes.toNat := by
    rw [toNat_ceilDiv64 (by omega) (by rw [hprod]; omega), hprod]
  have hle : ceilDiv (b.toNat * cfg.roots.toNat) cfg.nodes.toNat * cfg.nodes.toNat ≤
      cfg.roots.toNat * cfg.nodes.toNat := by
    refine Nat.mul_le_mul_right _ ((McastConfig.ceilDiv_le_iff (by omega)).mpr ?_)
    rw [Nat.mul_comm cfg.roots.toNat]
    exact hb'
  rw [Nat.mul_comm cfg.roots.toNat] at hle
  rw [getNearestFirstBlockHigherOrEqu, UInt64.toNat_div, UInt64.toNat_mul, hceil,
    Nat.mod_eq_of_lt (by omega)]
  rfl

theorem isFirstInChain_toNat {b : UInt64} (hb : b ≤ cfg.nodes) :
    cfg.isFirstInChain b = cfg.toMcastConfig.isFirstInChain b.toNat := by
  rw [isFirstInChain, McastConfig.isFirstInChain,
    ← toNat_getNearestFirstBlockHigherOrEqu hr hrn hfit hb]
  exact decide_eq_decide.mpr UInt64.toNat_inj.symm

/-- **The chains are evenly spread**, as long as the sum in `CeilDiv` has 64 bits. -/
theorem evenlySpread : EvenlySpread cfg := by
  have hr' : 1 ≤ cfg.toMcastConfig.roots := UInt64.le_iff_toNat_le.mp hr
  have hrn' : cfg.toMcastConfig.roots ≤ cfg.toMcastConfig.nodes := UInt64.le_iff_toNat_le.mp hrn
  constructor
  case starts =>
    intro b hb
    rw [isFirstInChain_toNat hr hrn hfit (UInt64.le_of_lt hb)]
    exact McastConfig.isFirstInChain_iff hr' hrn' (UInt64.lt_iff_toNat_lt.mp hb)
  case count =>
    refine (congrArg Finset.card (Finset.filter_congr fun b hb => ?_)).trans
      (McastConfig.card_isFirstInChain hr' hrn')
    have hlt := cfg.nodes.toNat_lt
    have hb' := Finset.mem_range.mp hb
    have htoNat : (UInt64.ofNat b).toNat = b := UInt64.toNat_ofNat_of_lt' (hb'.trans hlt)
    rw [isFirstInChain_toNat hr hrn hfit (UInt64.le_iff_toNat_le.mpr (by omega)), htoNat]
  case nearest =>
    intro b hb
    have hleast := McastConfig.isLeast_getNearestFirstBlockHigherOrEqu hr' hrn'
      (UInt64.le_iff_toNat_le.mp hb)
    rw [← toNat_getNearestFirstBlockHigherOrEqu hr hrn hfit hb] at hleast
    have hmem : ∀ s : UInt64, (s < cfg.nodes ∧ cfg.isFirstInChain s ∨ s = cfg.nodes) ↔
        (s.toNat < cfg.toMcastConfig.nodes ∧ cfg.toMcastConfig.isFirstInChain s.toNat = true ∨
          s.toNat = cfg.toMcastConfig.nodes) := by
      intro s
      refine or_congr (and_congr_right_iff.mpr fun hs => ?_) UInt64.toNat_inj.symm
      rw [isFirstInChain_toNat hr hrn hfit (UInt64.le_of_lt hs)]
    constructor
    · exact ⟨UInt64.le_iff_toNat_le.mpr hleast.1.1, (hmem _).mpr hleast.1.2⟩
    · rintro s ⟨hbs, hs⟩
      exact UInt64.le_iff_toNat_le.mpr
        (hleast.2 ⟨UInt64.le_iff_toNat_le.mp hbs, (hmem s).mp hs⟩)
  case lengths => exact fun j _ k _ => McastConfig.chainLength_le hr' j k

end

theorem evenlySpread_five : EvenlySpread { nodes := 5, roots := 3 } :=
  evenlySpread (by decide) (by decide) (by decide)

/-- All products have 64 bits, but the node after the last one is not found. -/
theorem not_evenlySpread_large : ¬∀ cfg : ChainConfig, 1 ≤ cfg.roots → cfg.roots ≤ cfg.nodes →
    cfg.nodes.toNat * cfg.roots.toNat < 2 ^ 64 → EvenlySpread cfg := by
  intro h
  have hspread := h { nodes := 2 ^ 40 + 1, roots := 2 ^ 24 - 1 } (by decide) (by decide)
    (by decide +kernel)
  have hle := (hspread.nearest (2 ^ 40 + 1) (by decide)).1.1
  exact absurd hle (by decide +kernel)

end ChainConfig
end Roce
