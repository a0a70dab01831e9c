import Mathlib.Algebra.Order.Ring.Abs
import Mathlib.Data.Int.ModEq
import Mathlib.RingTheory.Coprime.Basic
import Mathlib.Tactic.Linarith

/-!
# Euclid's algorithm with one cofactor

To invert `a` modulo `p` the algorithm divides `p` by `a` and goes on with divisor and remainder.
With each of the two remainders it keeps the cofactor of `a`, and not the one of `p`.  The two
cofactors have opposite signs throughout, so nothing cancels when the next one is computed, and
their sizes are tied to the remainders by one equation.

## What is here

* `Euclid.State`, `Euclid.State.next`, `Euclid.start`;
* `Euclid.Inv` — what holds at every turn, with `Euclid.inv_start` and `Euclid.Inv.next`;
* `Euclid.Inv.abs_newK_le`, `Euclid.Inv.quotient_mul_le` — **nothing computed on the way exceeds
  `p`**;
* `Euclid.Inv.inverse` — when the remainder is 0, the cofactor before it inverts `a`.
-/

set_option autoImplicit false

namespace Euclid

/-- Two remainders in a row, each with its cofactor. -/
structure State where
  /-- The cofactor of the last divisor. -/
  k : ℤ
  /-- The cofactor of the last remainder. -/
  newK : ℤ
  /-- The last divisor. -/
  r : ℤ
  /-- The last remainder. -/
  newR : ℤ
deriving DecidableEq

/-- Before the first division. -/
def start (p a : ℤ) : State := ⟨0, 1, p, a⟩

/-- One division. -/
def State.next (s : State) : State :=
  ⟨s.newK, s.k - s.r / s.newR * s.newK, s.newR, s.r - s.r / s.newR * s.newR⟩

/-- What holds at every turn. -/
structure Inv (p a : ℤ) (s : State) : Prop where
  newR_nonneg : 0 ≤ s.newR
  newR_lt : s.newR < s.r
  r_le : s.r ≤ p
  coprime : IsCoprime s.r s.newR
  cofactor : s.k * a ≡ s.r [ZMOD p]
  newCofactor : s.newK * a ≡ s.newR [ZMOD p]
  /-- The cofactors do not have the same sign. -/
  signs : s.k * s.newK ≤ 0
  size : |s.k| * s.newR + |s.newK| * s.r = p
  abs_k_lt : |s.k| < p

variable {p a : ℤ} {s : State}

theorem inv_start (ha : 0 < a) (hap : a < p) (hcop : IsCoprime p a) : Inv p a (start p a) where
  newR_nonneg := ha.le
  newR_lt := hap
  r_le := le_rfl
  coprime := hcop
  cofactor := by simp [start, Int.ModEq]
  newCofactor := by simp [start]
  signs := by simp [start]
  size := by simp [start]
  abs_k_lt := by simpa [start] using ha.trans hap

/-- Subtracting a multiple of a number of the other sign adds up the sizes. -/
theorem abs_sub_mul {k k' q : ℤ} (hq : 0 ≤ q) (h : k * k' ≤ 0) :
    |k - q * k'| = |k| + q * |k'| := by
  rcases mul_nonpos_iff.mp h with ⟨hk, hk'⟩ | ⟨hk, hk'⟩
  · have hqk : q * k' ≤ 0 := mul_nonpos_of_nonneg_of_nonpos hq hk'
    rw [abs_of_nonneg hk, abs_of_nonpos hk', abs_of_nonneg (by linarith)]
    ring
  · have hqk : 0 ≤ q * k' := mul_nonneg hq hk'
    rw [abs_of_nonpos hk, abs_of_nonneg hk', abs_of_nonpos (by linarith)]
    ring

namespace Inv

theorem r_pos (h : Inv p a s) : 0 < s.r := h.newR_nonneg.trans_lt h.newR_lt

theorem p_pos (h : Inv p a s) : 0 < p := h.r_pos.trans_le h.r_le

theorem newR_pos (h : Inv p a s) (h0 : s.newR ≠ 0) : 0 < s.newR := h.newR_nonneg.lt_of_ne' h0

theorem quotient_nonneg (h : Inv p a s) : 0 ≤ s.r / s.newR :=
  Int.ediv_nonneg h.r_pos.le h.newR_nonneg

theorem newK_mul_r_le (h : Inv p a s) : |s.newK| * s.r ≤ p := by
  have hk : 0 ≤ |s.k| * s.newR := mul_nonneg (abs_nonneg _) h.newR_nonneg
  linarith [h.size]

/-- **The cofactors do not exceed the modulus.** -/
theorem abs_newK_le (h : Inv p a s) : |s.newK| ≤ p :=
  (le_mul_of_one_le_right (abs_nonneg _) h.r_pos).trans h.newK_mul_r_le

theorem abs_newK_lt (h : Inv p a s) (h0 : s.newR ≠ 0) : |s.newK| < p := by
  have hr : 2 ≤ s.r := by linarith [h.newR_pos h0, h.newR_lt]
  have hdouble : |s.newK| * 2 ≤ p :=
    (mul_le_mul_of_nonneg_left hr (abs_nonneg _)).trans h.newK_mul_r_le
  linarith [abs_nonneg s.newK, h.p_pos]

theorem remainder_eq : s.r - s.r / s.newR * s.newR = s.r % s.newR := by
  rw [Int.emod_def, mul_comm]

/-- **One division keeps the invariant.** -/
theorem next (h : Inv p a s) (h0 : s.newR ≠ 0) : Inv p a s.next where
  newR_nonneg := by
    rw [State.next, remainder_eq]
    exact Int.emod_nonneg _ h0
  newR_lt := by
    rw [State.next, remainder_eq]
    exact Int.emod_lt_of_pos _ (h.newR_pos h0)
  r_le := h.newR_lt.le.trans h.r_le
  coprime := by
    have hcop := h.coprime.symm.add_mul_left_right (-(s.r / s.newR))
    rwa [mul_neg, mul_comm s.newR, ← sub_eq_add_neg] at hcop
  cofactor := h.newCofactor
  newCofactor := by
    have hsub := h.cofactor.sub (h.newCofactor.mul_left (s.r / s.newR))
    rwa [← mul_assoc, ← sub_mul] at hsub
  signs := by
    have hsq : 0 ≤ s.r / s.newR * s.newK ^ 2 := mul_nonneg h.quotient_nonneg (sq_nonneg _)
    show s.newK * (s.k - s.r / s.newR * s.newK) ≤ 0
    linarith [h.signs]
  size := by
    show |s.newK| * (s.r - s.r / s.newR * s.newR) + |s.k - s.r / s.newR * s.newK| * s.newR = p
    rw [abs_sub_mul h.quotient_nonneg h.signs]
    linarith [h.size]
  abs_k_lt := h.abs_newK_lt h0

/-- The product subtracted from a cofactor does not exceed the modulus either. -/
theorem quotient_mul_le (h : Inv p a s) (h0 : s.newR ≠ 0) : |s.r / s.newR * s.newK| ≤ p := by
  have hnext : |s.k - s.r / s.newR * s.newK| ≤ p := (h.next h0).abs_newK_le
  rw [abs_sub_mul h.quotient_nonneg h.signs] at hnext
  rw [abs_mul, abs_of_nonneg h.quotient_nonneg]
  linarith [abs_nonneg s.k]

theorem quotient_le (h : Inv p a s) : s.r / s.newR ≤ p :=
  (Int.ediv_le_self _ h.r_pos.le).trans h.r_le

/-- **The cofactor left at the end is the inverse.** -/
theorem inverse (h : Inv p a s) (h0 : s.newR = 0) : s.k * a ≡ 1 [ZMOD p] := by
  have hunit : IsUnit s.r := by
    have hcop := h.coprime
    rwa [h0, isCoprime_zero_right] at hcop
  have hr : s.r = 1 := by
    rcases Int.isUnit_iff.mp hunit with hr | hr
    · exact hr
    · linarith [h.r_pos]
  simpa only [hr] using h.cofactor

end Inv

end Euclid
