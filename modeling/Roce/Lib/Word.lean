import Mathlib.Algebra.Order.Ring.Nat
import Mathlib.Tactic.Common

/-! # Fixed-width arithmetic on natural numbers

A machine word of width `w` is a natural number below `2 ^ w`; the operations of the source
that may leave the range are followed by a truncation. -/

namespace Roce

/-- Truncation to `uint16_t`. -/
def u16 (n : Nat) : Nat := n % 2 ^ 16

/-- Truncation to `uint32_t`. -/
def u32 (n : Nat) : Nat := n % 2 ^ 32

/-- Truncation to `uint64_t`. -/
def u64 (n : Nat) : Nat := n % 2 ^ 64

/-- `a - b` on `uint64_t`, for `a` and `b` in range. -/
def sub64 (a b : Nat) : Nat := (a + 2 ^ 64 - b) % 2 ^ 64

/-- `a - b` on `uint32_t`, for `a` and `b` in range. -/
def sub32 (a b : Nat) : Nat := (a + 2 ^ 32 - b) % 2 ^ 32

/-- Conversion of a `uint32_t` to `int`. -/
def i32 (n : Nat) : Int := if u32 n < 2 ^ 31 then (u32 n : Int) else (u32 n : Int) - 2 ^ 32

theorem u32_of_lt (h : n < 2 ^ 32) : u32 n = n := Nat.mod_eq_of_lt h

theorem u64_of_lt (h : n < 2 ^ 64) : u64 n = n := Nat.mod_eq_of_lt h

theorem u32_lt (n : Nat) : u32 n < 2 ^ 32 := Nat.mod_lt _ (by decide)

theorem i32_of_lt (h : n < 2 ^ 31) : i32 n = n := by
  unfold i32 u32; omega

theorem u32_le (n : Nat) : u32 n ≤ n := Nat.mod_le ..

theorem sub64_of_le (h : b ≤ a) (ha : a < 2 ^ 64) : sub64 a b = a - b := by
  unfold sub64; omega

theorem sub32_of_le (h : b ≤ a) (ha : a < 2 ^ 32) : sub32 a b = a - b := by
  unfold sub32; omega

theorem u32_add_u32 (a b : Nat) : u32 (u32 a + b) = u32 (a + b) := Nat.mod_add_mod ..

/-- What was added is subtracted, also if the sum wraps. -/
theorem sub32_u32_add (a : Nat) (hb : b < 2 ^ 32) : sub32 (u32 (b + a)) b = u32 a := by
  unfold sub32 u32; omega

end Roce
