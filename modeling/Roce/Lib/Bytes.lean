import Mathlib.Data.Nat.Digits.Defs
import Mathlib.Tactic.Common

/-! # Numbers as bytes

The encodings of a number in a fixed count of bytes, in either order, and readers of a list of
bytes. A reader that reads what was written gives the number back, up to the width. -/

namespace Roce.Bytes

/-- The lowest bytes of a number, from the lowest one on. -/
def le : Nat → Nat → List UInt8
  | 0, _ => []
  | k + 1, n => .ofNat n :: le k (n / 256)

/-- The lowest bytes of a number, the lowest one last. -/
def be (k n : Nat) : List UInt8 := (le k n).reverse

/-- The number that bytes encode, from the lowest one on. -/
def value (bs : List UInt8) : Nat := Nat.ofDigits 256 (bs.map UInt8.toNat)

@[simp] theorem length_le : (le k n).length = k := by
  induction k generalizing n with
  | zero => rfl
  | succ k ih => exact congrArg Nat.succ ih

@[simp] theorem length_be : (be k n).length = k := by
  rw [be, List.length_reverse, length_le]

theorem value_le : value (le k n) = n % 256 ^ k := by
  induction k generalizing n with
  | zero => exact (Nat.mod_one n).symm
  | succ k ih =>
    have hrest : Nat.ofDigits 256 ((le k (n / 256)).map UInt8.toNat) = n / 256 % 256 ^ k := ih
    have hbyte : (UInt8.ofNat n).toNat = n % 256 := UInt8.toNat_ofNat'
    rw [value, le, List.map_cons, Nat.ofDigits_cons, hrest, hbyte, pow_succ', Nat.mod_mul]

theorem le_mod : le k (n % 256 ^ k) = le k n := by
  induction k generalizing n with
  | zero => rfl
  | succ k ih =>
    have hbyte : UInt8.ofNat (n % 256 ^ (k + 1)) = .ofNat n := by
      rw [← UInt8.toNat_inj, UInt8.toNat_ofNat', UInt8.toNat_ofNat', pow_succ']
      exact Nat.mod_mul_right_mod n 256 _
    rw [le, le, hbyte, pow_succ', Nat.mod_mul_right_div_self, ih]

theorem be_mod : be k (n % 256 ^ k) = be k n := congrArg List.reverse le_mod

theorem le_congr (h : n % 256 ^ k = m % 256 ^ k) : le k n = le k m := by
  rw [← le_mod, h, le_mod]

theorem be_congr (h : n % 256 ^ k = m % 256 ^ k) : be k n = be k m :=
  congrArg List.reverse (le_congr h)

/-! ## Readers -/

/-- A reader of the bytes that are left. -/
abbrev Reader := StateT (List UInt8) Option

/-- Reads some bytes. -/
def bytes (k : Nat) : Reader (List UInt8) := fun bs =>
  if k ≤ bs.length then some (bs.take k, bs.drop k) else none

def skip (k : Nat) : Reader Unit := discard (bytes k)

def readLe (k : Nat) : Reader Nat := value <$> bytes k

def readBe (k : Nat) : Reader Nat := (fun bs => value bs.reverse) <$> bytes k

variable {rest : List UInt8}

theorem bytes_append {bs : List UInt8} (h : bs.length = k) :
    bytes k (bs ++ rest) = some (bs, rest) := by
  rw [bytes, if_pos (by rw [List.length_append, h]; exact Nat.le_add_right ..), ← h,
    List.take_left, List.drop_left]

/-- One reader after another. -/
theorem bind_eq {x : Reader α} {f : α → Reader β} (h : x bs = some (a, rest)) :
    (x >>= f) bs = f a rest := by
  show x bs >>= (fun y => f y.1 y.2) = _
  rw [h]
  rfl

theorem map_eq {x : Reader α} {f : α → β} (h : x bs = some (a, rest)) :
    (f <$> x) bs = some (f a, rest) := by
  show x bs >>= (fun y => some (f y.1, y.2)) = _
  rw [h]
  rfl

theorem skip_append {bs : List UInt8} (h : bs.length = k) : skip k (bs ++ rest) = some ((), rest) :=
  map_eq (bytes_append h)

theorem readLe_le : readLe k (le k n ++ rest) = some (n % 256 ^ k, rest) := by
  rw [← value_le]
  exact map_eq (bytes_append length_le)

theorem readBe_be : readBe k (be k n ++ rest) = some (n % 256 ^ k, rest) := by
  have hvalue : value (be k n).reverse = n % 256 ^ k := by rw [be, List.reverse_reverse, value_le]
  rw [← hvalue]
  exact map_eq (bytes_append length_be)

theorem readLe_bind (f : Nat → Reader β) :
    (readLe k >>= f) (le k n ++ rest) = f (n % 256 ^ k) rest :=
  bind_eq readLe_le

theorem readBe_bind (f : Nat → Reader β) :
    (readBe k >>= f) (be k n ++ rest) = f (n % 256 ^ k) rest :=
  bind_eq readBe_be

/-- A number that fits, read as a value of another type. -/
theorem map_readLe_bind {of : Nat → α} (hn : n < 256 ^ k) (hof : of n = x) (f : α → Reader β) :
    ((of <$> readLe k) >>= f) (le k n ++ rest) = f x rest := by
  refine bind_eq ((map_eq readLe_le).trans ?_)
  rw [Nat.mod_eq_of_lt hn, hof]

theorem map_readBe_bind {of : Nat → α} (hn : n < 256 ^ k) (hof : of n = x) (f : α → Reader β) :
    ((of <$> readBe k) >>= f) (be k n ++ rest) = f x rest := by
  refine bind_eq ((map_eq readBe_be).trans ?_)
  rw [Nat.mod_eq_of_lt hn, hof]

theorem skip_bind {bs : List UInt8} (h : bs.length = k) (f : Unit → Reader β) :
    (skip k >>= f) (bs ++ rest) = f () rest :=
  bind_eq (skip_append h)

/-- Skips a part of what is to be skipped. -/
theorem skip_add (k j : Nat) : skip (k + j) = skip k >>= fun _ => skip j := by
  funext bs
  show (bytes (k + j) bs >>= fun y => some ((), y.2)) = (bytes k bs >>= fun y => some ((), y.2)) >>=
    fun y => bytes j y.2 >>= fun y => some ((), y.2)
  unfold bytes
  by_cases hk : k ≤ bs.length
  · have hle : k + j ≤ bs.length ↔ j ≤ (bs.drop k).length := by
      rw [List.length_drop]
      omega
    simp only [hk, ↓reduceIte, hle, Option.bind_eq_bind, Option.bind_some, List.drop_drop]
    split
    · rfl
    · rfl
  · rw [if_neg hk, if_neg (by omega)]
    rfl

theorem skip_add_bind {bs : List UInt8} (h : bs.length = k) (f : Unit → Reader β) :
    (skip (k + j) >>= f) (bs ++ rest) = (skip j >>= f) rest := by
  rw [skip_add, bind_assoc, skip_bind h]

/-- Skips one of several numbers. -/
theorem skip_be_bind (f : Unit → Reader β) :
    (skip (k + j) >>= f) (be k n ++ rest) = (skip j >>= f) rest :=
  skip_add_bind length_be f

/-! ## What holds of what is read -/

/-- Whatever the bytes are, the reader gives only such values. -/
def Ensures (x : Reader α) (P : α → Prop) : Prop :=
  ∀ ⦃bs a rest⦄, x bs = some (a, rest) → P a

namespace Ensures

theorem pure {P : α → Prop} (h : P a) : Ensures (pure a) P := by
  intro bs b rest hb
  cases hb
  exact h

/-- What the last reader gives, whatever was read before. -/
theorem bind {x : Reader α} {f : α → Reader β} {P : β → Prop} (h : ∀ a, Ensures (f a) P) :
    Ensures (x >>= f) P := by
  intro bs b rest hb
  obtain ⟨⟨a, mid⟩, -, hf⟩ := Option.bind_eq_some_iff.mp hb
  exact h a hf

/-- What the last reader gives, of what the one before it gave. -/
theorem bind_of {x : Reader α} {f : α → Reader β} {P : β → Prop} {Q : α → Prop} (hx : Ensures x Q)
    (h : ∀ a, Q a → Ensures (f a) P) : Ensures (x >>= f) P := by
  intro bs b rest hb
  obtain ⟨⟨a, mid⟩, ha, hf⟩ := Option.bind_eq_some_iff.mp hb
  exact h a (hx ha) hf

end Ensures

/-! ## Readers that agree -/

/-- Where the one reader gives a value, the other one takes the same bytes, and gives a related
value. -/
def Agrees (x : Reader α) (y : Reader β) (R : α → β → Prop) : Prop :=
  ∀ ⦃bs a rest⦄, x bs = some (a, rest) → ∃ b, y bs = some (b, rest) ∧ R a b

theorem value_lt (bs : List UInt8) : value bs < 256 ^ bs.length := by
  have hlt := Nat.ofDigits_lt_base_pow_length' (b := 254) (l := bs.map UInt8.toNat) fun d hd => by
    obtain ⟨b, -, rfl⟩ := List.mem_map.mp hd
    exact b.toNat_lt
  rwa [List.length_map] at hlt

namespace Agrees

theorem pure {R : α → β → Prop} (h : R a b) : Agrees (pure a) (pure b) R := by
  intro bs a' rest ha
  cases ha
  exact ⟨b, rfl, h⟩

theorem bind {x : Reader α} {y : Reader β} {f : α → Reader γ} {g : β → Reader δ}
    {R : α → β → Prop} {S : γ → δ → Prop} (hx : Agrees x y R)
    (hf : ∀ a b, R a b → Agrees (f a) (g b) S) : Agrees (x >>= f) (y >>= g) S := by
  intro bs c rest hc
  obtain ⟨⟨a, mid⟩, ha, hc⟩ := Option.bind_eq_some_iff.mp hc
  obtain ⟨b, hb, hR⟩ := hx ha
  obtain ⟨d, hd, hS⟩ := hf a b hR hc
  exact ⟨d, (bind_eq hb).trans hd, hS⟩

theorem refl (x : Reader α) : Agrees x x Eq := fun _ a _ h => ⟨a, h, rfl⟩

theorem bind_pure {x : Reader α} {y : Reader β} {f : α → γ} {R : α → β → Prop} {S : γ → β → Prop}
    (hx : Agrees x y R) (hf : ∀ a b, R a b → S (f a) b) :
    Agrees (x >>= fun a => Pure.pure (f a)) y S := by
  intro bs c rest hc
  obtain ⟨⟨a, mid⟩, ha, hc⟩ := Option.bind_eq_some_iff.mp hc
  cases hc
  obtain ⟨b, hb, hR⟩ := hx ha
  exact ⟨b, hb, hf a b hR⟩

theorem map {x : Reader α} {y : Reader β} {f : α → γ} {g : β → δ} {S : γ → δ → Prop}
    (h : Agrees x y fun a b => S (f a) (g b)) : Agrees (f <$> x) (g <$> y) S := by
  intro bs c rest hc
  obtain ⟨⟨a, mid⟩, ha, hc⟩ := Option.bind_eq_some_iff.mp hc
  cases hc
  obtain ⟨b, hb, hS⟩ := h ha
  exact ⟨g b, map_eq hb, hS⟩

/-- Two views of the same bytes. -/
theorem map_bytes {f : List UInt8 → γ} {g : List UInt8 → δ} {S : γ → δ → Prop}
    (h : ∀ bs, bs.length = k → S (f bs) (g bs)) : Agrees (f <$> bytes k) (g <$> bytes k) S := by
  refine map fun bs taken rest htaken => ⟨taken, htaken, h taken ?_⟩
  unfold bytes at htaken
  split at htaken
  · cases htaken
    exact List.length_take_of_le ‹_›
  · cases htaken

variable {of : Nat → α} {num : α → Nat}

/-- A number that fits, and a value of another type for it. -/
theorem map_readLe (h : ∀ n < 256 ^ k, num (of n) = n) :
    Agrees (of <$> readLe k) (readLe k) fun a n => num a = n := by
  rw [readLe, Functor.map_map]
  exact map_bytes fun bs hlen => h _ (hlen ▸ value_lt bs)

theorem map_readBe (h : ∀ n < 256 ^ k, num (of n) = n) :
    Agrees (of <$> readBe k) (readBe k) fun a n => num a = n := by
  rw [readBe, Functor.map_map]
  refine map_bytes fun bs hlen => h _ ?_
  rw [← hlen, ← List.length_reverse]
  exact value_lt bs.reverse

/-- What the one reader looks at, the other one skips. -/
theorem skip_le : Agrees (of <$> readLe k) (skip k) fun _ _ => True := by
  rw [readLe, Functor.map_map]
  exact map_bytes (g := fun _ => ()) fun _ _ => trivial

theorem skip_be : Agrees (of <$> readBe k) (skip k) fun _ _ => True := by
  rw [readBe, Functor.map_map]
  exact map_bytes (g := fun _ => ()) fun _ _ => trivial

end Agrees

end Roce.Bytes
