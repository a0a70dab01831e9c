import Mathlib.RingTheory.AdjoinRoot
import Mathlib.Algebra.Polynomial.Degree.Lemmas
import Mathlib.Algebra.Field.ZMod
import Mathlib.Tactic.LinearCombination

/-!
# Words of `w` bits as residues of binary polynomials

A word of `w` bits stands for a polynomial of degree below `w` over the two-element field, bit `i`
being the coefficient of `X ^ i`.  Exclusive or is addition; multiplication is modulo
`X ^ w + p`, where the word `p` holds the low coefficients of the modulus.

`Gf2k.mul` multiplies by shifting and reducing one bit at a time, and `Gf2k.clmul` with
`Gf2k.reduce` by a double-length product reduced at the end.  Both are multiplication in the
quotient ring, which is where their laws come from: `Gf2k.toRing` is injective, so an equation of
words is an equation in a commutative ring.

## What is here

* `Gf2k.xorSum`, and how additive maps act on it;
* `Gf2k.map_eq_sum_bits` — an additive map is determined on the words of one bit;
* `Gf2k.toRing`, `Gf2k.toRing_xor`, `Gf2k.toRing_injective`;
* `Gf2k.toRing_mul`, `Gf2k.toRing_reduce_clmul` — **both products are the ring's.**
-/

set_option autoImplicit false

open Polynomial Finset

namespace Gf2k

variable {w : ℕ}

/-! ## Exclusive or of many words -/

/-- The exclusive or of the first `n` words. -/
def xorSum (n : ℕ) (f : ℕ → BitVec w) : BitVec w :=
  (List.range n).foldl (fun acc i => acc ^^^ f i) 0

@[simp] theorem xorSum_zero (f : ℕ → BitVec w) : xorSum 0 f = 0 := rfl

theorem xorSum_succ (n : ℕ) (f : ℕ → BitVec w) : xorSum (n + 1) f = xorSum n f ^^^ f n := by
  rw [xorSum, List.range_succ, List.foldl_append]
  rfl

theorem xorSum_congr {n : ℕ} {f g : ℕ → BitVec w} (h : ∀ i < n, f i = g i) :
    xorSum n f = xorSum n g := by
  induction n with
  | zero => rfl
  | succ n ih =>
    rw [xorSum_succ, xorSum_succ, ih fun i hi => h i (Nat.lt_succ_of_lt hi),
      h n (Nat.lt_succ_self n)]

theorem xorSum_xor (n : ℕ) (f g : ℕ → BitVec w) :
    (xorSum n fun i => f i ^^^ g i) = xorSum n f ^^^ xorSum n g := by
  induction n with
  | zero => simp
  | succ n ih =>
    rw [xorSum_succ, xorSum_succ, xorSum_succ, ih]
    ac_rfl

/-- All words but one are zero. -/
theorem xorSum_single {n i : ℕ} (hi : i < n) (a : BitVec w) :
    (xorSum n fun j => if j = i then a else 0) = a := by
  have hzero : ∀ k ≤ i, (xorSum k fun j => if j = i then a else 0) = 0 := fun k hk => by
    induction k with
    | zero => rfl
    | succ k ih => rw [xorSum_succ, ih (Nat.le_of_succ_le hk), if_neg (Nat.ne_of_lt hk)]; simp
  induction n with
  | zero => exact absurd hi (Nat.not_lt_zero i)
  | succ n ih =>
    rw [xorSum_succ]
    rcases Nat.lt_succ_iff_lt_or_eq.mp hi with hlt | rfl
    · rw [ih hlt, if_neg hlt.ne']
      simp
    · rw [hzero i le_rfl, if_pos rfl]
      exact BitVec.zero_xor

section Additive

variable {K : Type*} [AddCommGroup K] {φ : BitVec w → K}

theorem map_zero (hφ : ∀ a b, φ (a ^^^ b) = φ a + φ b) : φ 0 = 0 := by
  have h := hφ 0 0
  rw [BitVec.xor_self] at h
  exact left_eq_add.mp h

theorem map_xorSum (hφ : ∀ a b, φ (a ^^^ b) = φ a + φ b) (n : ℕ) (f : ℕ → BitVec w) :
    φ (xorSum n f) = ∑ i ∈ range n, φ (f i) := by
  induction n with
  | zero => rw [xorSum_zero, map_zero hφ, sum_range_zero]
  | succ n ih => rw [xorSum_succ, hφ, ih, sum_range_succ]

/-- The bits of a word below `n`, split off one at a time. -/
theorem map_eq_sum_bits_of_lt (hφ : ∀ a b, φ (a ^^^ b) = φ a + φ b) {n : ℕ} (hn : n ≤ w) :
    ∀ a : BitVec w, (∀ i, n ≤ i → a.getLsbD i = false) →
      φ a = ∑ i ∈ range n, if a.getLsbD i then φ (BitVec.twoPow w i) else 0 := by
  induction n with
  | zero =>
    intro a ha
    have : a = 0 := BitVec.eq_of_getLsbD_eq fun i _ => by simp [ha i (Nat.zero_le i)]
    rw [this, map_zero hφ, sum_range_zero]
  | succ n ih =>
    intro a ha
    set t : BitVec w := if a.getLsbD n then BitVec.twoPow w n else 0 with ht
    have hbit : ∀ i, t.getLsbD i = (a.getLsbD n && decide (i = n)) := by
      intro i
      rw [ht]
      by_cases hb : a.getLsbD n
      · have hnw : n < w := hn
        by_cases hin : i = n
        · subst hin
          simp [hb, hnw]
        · have : ¬ n = i := fun h => hin h.symm
          simp [hb, BitVec.getLsbD_twoPow, hin, this]
      · simp [hb]
    have hrest : ∀ i, n ≤ i → (a ^^^ t).getLsbD i = false := by
      intro i hi
      rw [BitVec.getLsbD_xor, hbit]
      by_cases hin : i = n
      · simp [hin]
      · simp [hin, ha i (by omega)]
    have hsplit : a = (a ^^^ t) ^^^ t := by
      rw [BitVec.xor_assoc, BitVec.xor_self, BitVec.xor_zero]
    have hsum : ∑ i ∈ range n, (if (a ^^^ t).getLsbD i then φ (BitVec.twoPow w i) else 0)
        = ∑ i ∈ range n, if a.getLsbD i then φ (BitVec.twoPow w i) else 0 := by
      refine sum_congr rfl fun i hi => ?_
      have hin : i ≠ n := (mem_range.mp hi).ne
      rw [BitVec.getLsbD_xor, hbit]
      simp [hin]
    have htop : φ t = if a.getLsbD n then φ (BitVec.twoPow w n) else 0 := by
      rw [ht]
      split
      · rfl
      · exact map_zero hφ
    conv_lhs => rw [hsplit]
    rw [hφ, ih (by omega) _ hrest, hsum, htop, sum_range_succ]

/-- **An additive map is determined on the words of one bit.** -/
theorem map_eq_sum_bits (hφ : ∀ a b, φ (a ^^^ b) = φ a + φ b) (a : BitVec w) :
    φ a = ∑ i ∈ range w, if a.getLsbD i then φ (BitVec.twoPow w i) else 0 :=
  map_eq_sum_bits_of_lt hφ le_rfl a fun i hi => BitVec.getLsbD_of_ge a i hi

end Additive

/-! ## The quotient ring -/

/-- The polynomial of a word. -/
noncomputable def toPoly (a : BitVec w) : (ZMod 2)[X] :=
  ∑ i ∈ range w, if a.getLsbD i then X ^ i else 0

/-- The modulus with low coefficients `p`. -/
noncomputable def modulus (p : BitVec w) : (ZMod 2)[X] := X ^ w + toPoly p

/-- The class of a word. -/
noncomputable def toRing (p a : BitVec w) : AdjoinRoot (modulus p) :=
  AdjoinRoot.mk (modulus p) (toPoly a)

theorem toPoly_coeff (a : BitVec w) (i : ℕ) :
    (toPoly a).coeff i = if a.getLsbD i then 1 else 0 := by
  have hterm : ∀ j, ((if a.getLsbD j then X ^ j else 0 : (ZMod 2)[X])).coeff i
      = if j = i then (if a.getLsbD i then 1 else 0) else 0 := by
    intro j
    by_cases hji : j = i
    · subst hji
      split <;> simp
    · have hij : ¬ i = j := fun h => hji h.symm
      rw [if_neg hji]
      split <;> simp [coeff_X_pow, hij]
  rw [toPoly, finsetSum_coeff, sum_congr rfl fun j _ => hterm j, sum_ite_eq']
  by_cases hi : i < w
  · rw [if_pos (mem_range.mpr hi)]
  · rw [if_neg fun h => hi (mem_range.mp h), BitVec.getLsbD_of_ge a i (not_lt.mp hi)]
    rfl

theorem toPoly_degree_lt (a : BitVec w) : (toPoly a).degree < w := by
  rw [degree_lt_iff_coeff_zero]
  intro i hi
  rw [toPoly_coeff, BitVec.getLsbD_of_ge a i hi]
  rfl

theorem modulus_degree (p : BitVec w) : (modulus p).degree = w := by
  rw [modulus, degree_add_eq_left_of_degree_lt, degree_X_pow]
  rw [degree_X_pow]
  exact toPoly_degree_lt p

theorem toPoly_injective : Function.Injective (toPoly : BitVec w → (ZMod 2)[X]) := by
  intro a b h
  refine BitVec.eq_of_getLsbD_eq fun i _ => ?_
  have hcoeff : (toPoly a).coeff i = (toPoly b).coeff i := by rw [h]
  rw [toPoly_coeff, toPoly_coeff] at hcoeff
  cases ha : a.getLsbD i <;> cases hb : b.getLsbD i <;> simp_all

theorem toPoly_xor (a b : BitVec w) : toPoly (a ^^^ b) = toPoly a + toPoly b := by
  rw [toPoly, toPoly, toPoly, ← sum_add_distrib]
  refine sum_congr rfl fun i _ => ?_
  have htwo : ((X : (ZMod 2)[X]) ^ i + X ^ i) = 0 := CharTwo.add_self_eq_zero _
  rw [BitVec.getLsbD_xor]
  cases a.getLsbD i <;> cases b.getLsbD i <;> simp [htwo]

theorem toPoly_twoPow {i : ℕ} (hi : i < w) : toPoly (BitVec.twoPow w i) = X ^ i := by
  rw [toPoly, sum_eq_single_of_mem i (mem_range.mpr hi)]
  · simp [hi]
  · intro j _ hji
    have : ¬ i = j := fun h => hji h.symm
    simp [BitVec.getLsbD_twoPow, this]

variable (p : BitVec w)

/-- Addition is exclusive or. -/
theorem toRing_xor (a b : BitVec w) : toRing p (a ^^^ b) = toRing p a + toRing p b := by
  rw [toRing, toPoly_xor, map_add]
  rfl

/-- **An equation of words is an equation in the ring.** -/
theorem toRing_injective : Function.Injective (toRing p) := by
  intro a b h
  refine toPoly_injective ?_
  rw [toRing, toRing, ← sub_eq_zero, ← map_sub, AdjoinRoot.mk_eq_zero] at h
  have hdeg : (toPoly a - toPoly b).degree < (modulus p).degree := by
    rw [modulus_degree]
    exact (degree_sub_le _ _).trans_lt (max_lt (toPoly_degree_lt a) (toPoly_degree_lt b))
  exact sub_eq_zero.mp (eq_zero_of_dvd_of_degree_lt h hdeg)

theorem toRing_twoPow {i : ℕ} (hi : i < w) :
    toRing p (BitVec.twoPow w i) = AdjoinRoot.root (modulus p) ^ i := by
  rw [toRing, toPoly_twoPow hi, map_pow, AdjoinRoot.mk_X]

/-- The characteristic is 2. -/
theorem two_eq_zero : (2 : AdjoinRoot (modulus p)) = 0 := by
  have h : (2 : ZMod 2) = 0 := rfl
  have hmap := congrArg (AdjoinRoot.of (modulus p)) h
  rwa [map_ofNat, RingHom.map_zero] at hmap

/-- The word `p` is the residue of `X ^ w`. -/
theorem toRing_low : toRing p p = AdjoinRoot.root (modulus p) ^ w := by
  have hself : AdjoinRoot.mk (modulus p) (X ^ w + toPoly p) = 0 := AdjoinRoot.mk_self
  rw [map_add, map_pow, AdjoinRoot.mk_X] at hself
  have htwo := two_eq_zero p
  rw [toRing]
  linear_combination hself - AdjoinRoot.root (modulus p) ^ w * htwo

/-! ## Shifts -/

/-- The part of a word that a shift to the left keeps, and the part that it loses. -/
theorem toPoly_shift (a : BitVec w) {i : ℕ} (hi : i ≤ w) :
    toPoly (a <<< i) + X ^ w * toPoly (a >>> (w - i)) = X ^ i * toPoly a := by
  ext n
  rw [coeff_add, coeff_X_pow_mul', coeff_X_pow_mul', toPoly_coeff, toPoly_coeff, toPoly_coeff,
    BitVec.getLsbD_shiftLeft, BitVec.getLsbD_ushiftRight]
  by_cases hn : n < w
  · by_cases hin : n < i
    · have hni : ¬ i ≤ n := not_le.mpr hin
      have hwn : ¬ w ≤ n := not_le.mpr hn
      simp [hin, hni, hwn]
    · have hni : i ≤ n := not_lt.mp hin
      have hwn : ¬ w ≤ n := not_le.mpr hn
      simp [hn, hin, hni, hwn]
  · have hwn : w ≤ n := not_lt.mp hn
    have hni : i ≤ n := hi.trans hwn
    have hidx : w - i + (n - w) = n - i := by omega
    simp [hn, hwn, hni, hidx]

theorem toRing_shift (a : BitVec w) {i : ℕ} (hi : i ≤ w) :
    toRing p (a <<< i) + AdjoinRoot.root (modulus p) ^ w * toRing p (a >>> (w - i))
      = AdjoinRoot.root (modulus p) ^ i * toRing p a := by
  have h := congrArg (AdjoinRoot.mk (modulus p)) (toPoly_shift a hi)
  rwa [map_add, map_mul, map_mul, map_pow, map_pow, AdjoinRoot.mk_X] at h

/-! ## Products -/

/-- Multiplication by `X`: shift, and reduce the bit shifted out. -/
def mulX (a : BitVec w) : BitVec w := (a <<< 1) ^^^ (if a.msb then p else 0)

/-- Multiplication, one bit of the second factor at a time. -/
def mul (a b : BitVec w) : BitVec w :=
  xorSum w fun i => if b.getLsbD i then (mulX p)^[i] a else 0

theorem toRing_zero : toRing p 0 = 0 := map_zero (toRing_xor p)

theorem toRing_eq_sum_bits (a : BitVec w) :
    toRing p a = ∑ i ∈ range w, if a.getLsbD i then AdjoinRoot.root (modulus p) ^ i else 0 := by
  rw [map_eq_sum_bits (toRing_xor p)]
  refine sum_congr rfl fun i hi => ?_
  rw [toRing_twoPow p (mem_range.mp hi)]

theorem toRing_mulX (hw : 0 < w) (a : BitVec w) :
    toRing p (mulX p a) = AdjoinRoot.root (modulus p) * toRing p a := by
  have hmsb : a >>> (w - 1) = if a.msb then BitVec.twoPow w 0 else 0 := by
    refine BitVec.eq_of_getLsbD_eq fun i hi => ?_
    rw [BitVec.getLsbD_ushiftRight]
    by_cases hi0 : i = 0
    · subst hi0
      rw [BitVec.msb_eq_getLsbD_last, Nat.add_zero]
      split <;> simp_all
    · rw [BitVec.getLsbD_of_ge a _ (by omega)]
      have : ¬ 0 = i := fun h => hi0 h.symm
      split <;> simp [BitVec.getLsbD_twoPow, this]
  have hshift := toRing_shift p a (i := 1) hw
  have hcarry : toRing p (if a.msb then p else 0)
      = AdjoinRoot.root (modulus p) ^ w * toRing p (a >>> (w - 1)) := by
    rw [hmsb]
    split
    · rw [toRing_low, toRing_twoPow p hw, pow_zero, mul_one]
    · rw [toRing_zero, mul_zero]
  rw [mulX, toRing_xor, hcarry, hshift, pow_one]

/-- **`mul` is the product of the ring.** -/
theorem toRing_mul (a b : BitVec w) : toRing p (mul p a b) = toRing p a * toRing p b := by
  have hiter : ∀ i, 0 < w → toRing p ((mulX p)^[i] a)
      = AdjoinRoot.root (modulus p) ^ i * toRing p a := by
    intro i hw
    induction i with
    | zero => rw [Function.iterate_zero_apply, pow_zero, one_mul]
    | succ i ih =>
      rw [Function.iterate_succ_apply', toRing_mulX p hw, ih, pow_succ]
      ring
  rw [mul, map_xorSum (toRing_xor p), toRing_eq_sum_bits p b, mul_sum]
  refine sum_congr rfl fun i hi => ?_
  split
  · rw [hiter i ((Nat.zero_le i).trans_lt (mem_range.mp hi)), mul_comm]
  · rw [toRing_zero, mul_zero]

/-- The double-length product, low word first. -/
def clmul (a b : BitVec w) : BitVec w × BitVec w :=
  (xorSum w fun i => if b.getLsbD i then a <<< i else 0,
    xorSum w fun i => if b.getLsbD i then a >>> (w - i) else 0)

/-- A double-length word, reduced. -/
def reduce (a : BitVec w × BitVec w) : BitVec w := a.1 ^^^ mul p a.2 p

theorem toRing_reduce (a : BitVec w × BitVec w) :
    toRing p (reduce p a) = toRing p a.1 + AdjoinRoot.root (modulus p) ^ w * toRing p a.2 := by
  rw [reduce, toRing_xor, toRing_mul, toRing_low, mul_comm]

/-- **The reduced double-length product is the product of the ring.** -/
theorem toRing_reduce_clmul (a b : BitVec w) :
    toRing p (reduce p (clmul a b)) = toRing p a * toRing p b := by
  rw [toRing_reduce, clmul, map_xorSum (toRing_xor p), map_xorSum (toRing_xor p), mul_sum,
    ← sum_add_distrib, toRing_eq_sum_bits p b, mul_sum]
  refine sum_congr rfl fun i hi => ?_
  split
  · rw [toRing_shift p a (mem_range.mp hi).le, mul_comm]
  · rw [toRing_zero, mul_zero, mul_zero, add_zero]

end Gf2k
