import VoleZk.Mvzk.Fp59Inv

/-!
# `FP59`: operators with an integer

Every operator of `FP59` has an overload that takes a 64-bit integer.  Comparison and assignment
reduce the integer first.  The arithmetic ones do not: they hand it to `add_mod` and `mult_mod` as
it is, and these are written for operands below the modulus.

So an integer that is not reduced may be one conditional subtraction short of the canonical word,
or the sum or the difference may wrap around at `2 ^ 64`, and `2 ^ 64` is not 0 in the field.  For
each operator this file says exactly which operands it is right on.

## What is here

* `FP59.addWord`, `FP59.subWord`, `FP59.mulWord`, `FP59.shiftLeft`, `FP59.eqWord`,
  `FP59.assignWord` — the overloads;
* `FP59.HighFits` — the products that `mult_mod` gets right, with `FP59.highFits_of_le`;
* `FP59.mixed_exact_iff` — **where each overload agrees with the field**.
-/

set_option autoImplicit false

namespace VoleZk

namespace FP59

/-- `operator+` with an integer. -/
def addWord (x c : ℕ) : ℕ := addMod x c

/-- `operator-` with an integer. -/
def subWord (x c : ℕ) : ℕ := addMod x (wordSub P59 c)

/-- `operator*` with an integer. -/
def mulWord (x c : ℕ) : ℕ := multMod x c

/-- `operator<<`. -/
def shiftLeft (x n : ℕ) : ℕ := multMod x (word (1 <<< n))

/-- `operator==` with an integer. -/
def eqWord (x c : ℕ) : Bool := x == mod c

/-- `operator=` from an integer. -/
def assignWord (c : ℕ) : ℕ := mod c

/-! ## Sums and differences -/

/-- One wrap-around is not a multiple of the modulus. -/
theorem two_pow_word_ne_zero : (2 ^ 64 : ZMod P59) ≠ 0 := by
  intro h
  have hdvd : P59 ∣ 2 ^ 64 := by
    rw [← ZMod.natCast_eq_zero_iff, Nat.cast_pow, Nat.cast_ofNat]
    exact h
  exact absurd hdvd (by decide)

/-- A word that is off by one wrap-around is not the right one. -/
theorem not_residue_of_wrap {r : ℕ} {z : ZMod P59} (h : (r : ZMod P59) = z + 2 ^ 64) :
    ¬Residue r z := by
  rintro ⟨-, hr⟩
  rw [hr, left_eq_add] at h
  exact two_pow_word_ne_zero h

theorem ite_sub_cast (r : ℕ) : ((if P59 ≤ r then r - P59 else r : ℕ) : ZMod P59) = r := by
  split
  · rename_i h
    rw [Nat.cast_sub h, ZMod.natCast_self, sub_zero]
  · rfl

theorem wordSub_cast {a b : ℕ} (ha : a < 2 ^ 64) (h : b ≤ a) :
    (wordSub a b : ZMod P59) = a - b := by
  rw [wordSub_of_le ha h, Nat.cast_sub h]

/-- A negative difference is off by one wrap-around. -/
theorem wordSub_cast_of_lt {a b : ℕ} (h : a < b) (hb : b < 2 ^ 64) :
    (wordSub a b : ZMod P59) = a - b + 2 ^ 64 := by
  rw [wordSub, word_of_lt (by omega), Nat.cast_sub (by omega), Nat.cast_add, Nat.cast_pow,
    Nat.cast_ofNat]
  ring

theorem residue_addWord_iff {x c : ℕ} (hx : x < P59) (hc : c < 2 ^ 64) :
    Residue (addWord x c) (x + c) ↔ x + c < 2 * P59 := by
  have hP := P59_eq
  rw [addWord]
  constructor
  · intro h
    by_contra hlarge
    rcases lt_or_ge (x + c) (2 ^ 64) with hlt | hge
    · -- one subtraction does not reach the canonical word
      have hcanon := h.1
      rw [addMod, word_of_lt hlt, if_pos (by omega)] at hcanon
      omega
    · have hword : word (x + c) = x + c - 2 ^ 64 := by
        rw [word, Nat.mod_eq_sub_mod hge, Nat.mod_eq_of_lt (by omega)]
      have hres := h.2
      rw [addMod, hword, ite_sub_cast, Nat.cast_sub hge, Nat.cast_add, Nat.cast_pow,
        Nat.cast_ofNat, sub_eq_self] at hres
      exact two_pow_word_ne_zero hres
  · intro h
    rw [← Nat.cast_add]
    exact (residue_iff _).mpr (addMod_eq h)

theorem residue_subWord_iff {x c : ℕ} (hx : x < P59) (hc : c < 2 ^ 64) :
    Residue (subWord x c) (x - c) ↔ c ≤ x + P59 := by
  have hP := P59_eq
  rw [subWord]
  constructor
  · intro h
    by_contra hlarge
    -- the difference is negative, and the sum does not wrap it back
    have hneg : wordSub P59 c = P59 + 2 ^ 64 - c := word_of_lt (by omega)
    have hword : word (x + wordSub P59 c) = x + wordSub P59 c := word_of_lt (by omega)
    refine not_residue_of_wrap ?_ h
    rw [addMod, hword, ite_sub_cast, Nat.cast_add, wordSub_cast_of_lt (by omega) hc,
      ZMod.natCast_self]
    ring
  · intro h
    rcases le_or_gt c P59 with hle | hgt
    · have hsum : x + wordSub P59 c < 2 * P59 := by
        rw [wordSub_of_le (by omega) hle]
        omega
      have hcast : ((x + wordSub P59 c : ℕ) : ZMod P59) = x - c := by
        rw [Nat.cast_add, wordSub_cast (by omega) hle, ZMod.natCast_self]
        ring
      rw [addMod_eq hsum, ← hcast]
      exact residue_mod _
    · -- both steps wrap around, and the sum is canonical already
      have hneg : wordSub P59 c = P59 + 2 ^ 64 - c := word_of_lt (by omega)
      have hword : word (x + wordSub P59 c) = x + P59 - c := by
        rw [hneg, word, Nat.mod_eq_sub_mod (by omega), Nat.mod_eq_of_lt (by omega)]
        omega
      rw [addMod, hword, if_neg (by omega)]
      refine ⟨by omega, ?_⟩
      rw [Nat.cast_sub h, Nat.cast_add, ZMod.natCast_self, add_zero]

/-! ## Products -/

/-- The high part of the product exceeds the modulus by no more than what the low part and the
folded high part add to it. -/
def HighFits (p : ℕ) : Prop := p / 2 ^ 59 ≤ P59 + p % 2 ^ 59 + p / 2 ^ 59 * 2 ^ 28 % P59

instance (p : ℕ) : Decidable (HighFits p) := inferInstanceAs (Decidable (_ ≤ _))

/-- Every product of a canonical word by an integer up to `2 ^ 59`: in particular by a canonical
one, and every shift by at most 59 bits. -/
theorem highFits_of_le {x c : ℕ} (hx : x < P59) (hc : c ≤ 2 ^ 59) : HighFits (x * c) := by
  have hdiv : x * c / 2 ^ 59 ≤ x :=
    Nat.div_le_of_le_mul (by rw [mul_comm]; exact Nat.mul_le_mul_right _ hc)
  exact hdiv.trans (by omega)

theorem fold_mod (i : ℕ) : fold i % P59 = i * 2 ^ 28 % P59 := by
  rw [← fold_add, Nat.add_mul_mod_self_left]

/-- What `mult_mod` subtracts the high part from is large enough exactly if `HighFits` says so. -/
theorem highFits_iff (p : ℕ) :
    HighFits p ↔ p / 2 ^ 59 ≤ foldMod (p / 2 ^ 59) + p % 2 ^ 59 + P59 := by
  have hP := P59_eq
  rw [HighFits, ← fold_mod]
  generalize hi : p / 2 ^ 59 = i
  rcases lt_or_ge (fold i) (2 * P59) with hlt | hge
  · rw [foldMod, ite_sub_eq_mod hlt]
    omega
  · -- a fold as large as that comes from a high part that is too large in any case
    have hmod : fold i % P59 < P59 := Nat.mod_lt _ P59_pos
    have hsub : foldMod i = fold i - P59 := if_pos (by omega)
    have hlow : p % 2 ^ 59 < 2 ^ 59 := Nat.mod_lt _ (by decide)
    have hfold : fold i = i / 2 ^ 31 * (2 ^ 28 - 1) + i * 2 ^ 28 % 2 ^ 59 := rfl
    omega

/-- The fold never exceeds the high part by a whole modulus. -/
theorem foldMod_le_add (i : ℕ) : foldMod i + 2 ^ 31 ≤ P59 + i := by
  have hP := P59_eq
  rcases foldMod_cases i with ⟨heq, hlt⟩ | heq
  · rw [heq]
    exact fold_sub_le hlt
  · have hfold : fold i = i / 2 ^ 31 * (2 ^ 28 - 1) + i * 2 ^ 28 % 2 ^ 59 := rfl
    omega

/-- In the field, the fold stands for the high part times `2 ^ 28`. -/
theorem foldMod_cast (i : ℕ) : (foldMod i : ZMod P59) = i * 2 ^ 28 := by
  have h := congrArg (Nat.cast : ℕ → ZMod P59) (fold_add i)
  rw [Nat.cast_add, Nat.cast_mul, Nat.cast_mul, ZMod.natCast_self, zero_mul, add_zero,
    Nat.cast_pow, Nat.cast_ofNat] at h
  rw [foldMod, ite_sub_cast, h]

/-- Bit 59 is worth `2 ^ 28 - 1`. -/
theorem two_pow_59_cast : (2 ^ 59 : ZMod P59) = 2 ^ 28 - 1 := by
  have h59 : 2 ^ 59 + 1 = P59 + 2 ^ 28 := rfl
  have h := congrArg (Nat.cast : ℕ → ZMod P59) h59
  rw [Nat.cast_add, Nat.cast_add, ZMod.natCast_self, zero_add, Nat.cast_pow, Nat.cast_pow,
    Nat.cast_ofNat, Nat.cast_one] at h
  exact eq_sub_of_add_eq h

/-- A product, from what `mult_mod` splits it into. -/
theorem split_cast (p : ℕ) :
    (p : ZMod P59) = foldMod (p / 2 ^ 59) + (p % 2 ^ 59 : ℕ) - (p / 2 ^ 59 : ℕ) := by
  have h := congrArg (Nat.cast : ℕ → ZMod P59) (Nat.div_add_mod p (2 ^ 59))
  rw [Nat.cast_add, Nat.cast_mul, Nat.cast_pow, Nat.cast_ofNat, two_pow_59_cast] at h
  rw [foldMod_cast, ← h]
  ring

/-- A product whose high part does not fit is off by one wrap-around: the sum before the last
subtractions is negative, and taken modulo `2 ^ 64`. -/
theorem multMod_cast_of_not_highFits {a b : ℕ} (hp : a * b < 2 ^ 123) (h : ¬HighFits (a * b)) :
    (multMod a b : ZMod P59) = (a * b : ℕ) + 2 ^ 64 := by
  have hcast := split_cast (a * b)
  rw [highFits_iff, not_le, Nat.add_right_comm] at h
  rw [multMod_eq_wordSub hp rfl rfl, ite_sub_cast, ite_sub_cast, Nat.add_right_comm,
    wordSub_cast_of_lt h (by omega), hcast, Nat.cast_add, Nat.cast_add, ZMod.natCast_self, add_zero]

theorem residue_multMod_iff {a b : ℕ} (hp : a * b < 2 ^ 123) :
    Residue (multMod a b) (a * b) ↔ HighFits (a * b) := by
  have hP := P59_eq
  constructor
  · intro h
    by_contra hneg
    refine not_residue_of_wrap ?_ h
    rw [multMod_cast_of_not_highFits hp hneg, Nat.cast_mul]
  · intro h
    have hfold := foldMod_le_add (a * b / 2 ^ 59)
    have hword := fold_lt_word (i := a * b / 2 ^ 59) (by omega)
    have hle := foldMod_le (a * b / 2 ^ 59)
    have hcast := split_cast (a * b)
    rw [highFits_iff] at h
    rw [multMod_eq_wordSub hp rfl rfl, ← Nat.cast_mul]
    have hlow : a * b % 2 ^ 59 < 2 ^ 59 := Nat.mod_lt _ (by decide)
    generalize a * b / 2 ^ 59 = i at *
    generalize a * b % 2 ^ 59 = l at *
    have hsum : ((foldMod i + l + P59 : ℕ) : ZMod P59) - i = (a * b : ℕ) := by
      rw [hcast, Nat.cast_add, Nat.cast_add, ZMod.natCast_self, add_zero]
    rw [wordSub_of_le (by omega) h, ite_sub_sub_eq_mod (by omega) rfl, ← hsum, ← Nat.cast_sub h]
    exact residue_mod _

/-- Whatever the operands are, the product is a word. -/
theorem multMod_lt_word (a b : ℕ) : multMod a b < 2 ^ 64 := by
  have hword : ∀ c d, wordSub c d < 2 ^ 64 := fun _ _ => Nat.mod_lt _ (by decide)
  have hsub : ∀ r < 2 ^ 64, (if P59 ≤ r then r - P59 else r) < 2 ^ 64 := by
    intro r hr
    split <;> omega
  rw [multMod]
  exact hsub _ (hsub _ (hword _ _))

theorem multMod_zero_right (a : ℕ) : multMod a 0 = 0 := by
  rw [multMod, Nat.mul_zero]
  rfl

/-! ## All of them -/

theorem word_mul_lt {x c : ℕ} (hx : x < P59) (hc : c < 2 ^ 64) : x * c < 2 ^ 123 := by
  have hP := P59_eq
  have hle : x * c ≤ (P59 - 1) * (2 ^ 64 - 1) := Nat.mul_le_mul (by omega) (by omega)
  rw [hP] at hle
  omega

/-- **Where the overloads agree with the field.**  Comparison and assignment always do; a sum does
below twice the modulus, a difference if it is at least minus the modulus, and a product or a shift
if the high part of the product fits. -/
theorem mixed_exact_iff {x c n : ℕ} (hx : x < P59) (hc : c < 2 ^ 64) (hn : n < 64) :
    (Residue (addWord x c) (x + c) ↔ x + c < 2 * P59) ∧
      (Residue (subWord x c) (x - c) ↔ c ≤ x + P59) ∧
      (Residue (mulWord x c) (x * c) ↔ HighFits (x * c)) ∧
      (Residue (shiftLeft x n) (x * 2 ^ n) ↔ HighFits (x * 2 ^ n)) ∧
      (eqWord x c = true ↔ (x : ZMod P59) = c) ∧ Residue (assignWord c) c := by
  have hmod : Residue (mod c) c := (residue_iff c).mpr (mod_eq hc)
  refine ⟨residue_addWord_iff hx hc, residue_subWord_iff hx hc,
    residue_multMod_iff (word_mul_lt hx hc), ?_, ?_, hmod⟩
  · have hpow : 2 ^ n < 2 ^ 64 := Nat.pow_lt_pow_right (by decide) hn
    have hone : word (1 <<< n) = 2 ^ n := by
      rw [Nat.one_shiftLeft, word_of_lt hpow]
    have h := residue_multMod_iff (word_mul_lt hx hpow)
    rw [shiftLeft, hone]
    simpa using h
  · rw [eqWord, beq_iff_eq]
    exact ⟨fun h => h ▸ hmod.2, fun h => (residue_self hx).unique (h ▸ hmod)⟩

/-- A reduced integer, and a shift by one bit. -/
theorem mixed_exact_iff_reduced :
    Residue (subWord 5 7) ((5 : ℕ) - (7 : ℕ)) ∧ Residue (shiftLeft 5 1) ((5 : ℕ) * 2 ^ 1) := by
  have h := mixed_exact_iff (x := 5) (c := 7) (n := 1) (by decide) (by decide) (by decide)
  exact ⟨h.2.1.mpr (by decide), h.2.2.2.1.mpr (by decide)⟩

/-- The largest operands: all four arithmetic overloads are wrong. -/
theorem mixed_not_exact :
    ¬Residue (addWord (P59 - 1) (2 ^ 64 - 1)) ((P59 - 1 : ℕ) + (2 ^ 64 - 1 : ℕ)) ∧
      ¬Residue (subWord (P59 - 1) (2 ^ 64 - 1)) ((P59 - 1 : ℕ) - (2 ^ 64 - 1 : ℕ)) ∧
      ¬Residue (mulWord (P59 - 1) (2 ^ 64 - 1)) ((P59 - 1 : ℕ) * (2 ^ 64 - 1 : ℕ)) ∧
      ¬Residue (shiftLeft (P59 - 1) 63) ((P59 - 1 : ℕ) * 2 ^ 63) := by
  refine ⟨?_, ?_, ?_, ?_⟩
  · rw [residue_addWord_iff (by decide) (by decide)]
    decide
  · rw [residue_subWord_iff (by decide) (by decide)]
    decide
  · rw [mulWord, residue_multMod_iff (by decide)]
    decide
  · have h := residue_multMod_iff (a := P59 - 1) (b := 2 ^ 63) (by decide)
    rw [Nat.cast_pow, Nat.cast_ofNat] at h
    rw [shiftLeft, show word (1 <<< 63) = 2 ^ 63 by decide, h]
    decide

end FP59

end VoleZk
