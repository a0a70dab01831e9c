import VoleZk.Lib.Gf2k
import Mathlib.FieldTheory.Finite.Extension

/-!
# When the residues form a field

An irreducible factor of a binary polynomial divides `X ^ (2 ^ n) - X` exactly if its degree divides
`n`.  So a modulus of degree `2 ^ (k + 1)` that divides `X ^ (2 ^ 2 ^ (k + 1)) - X` has only factors
whose degree is a power of two, and if it has no factor in common with `X ^ (2 ^ 2 ^ k) - X`, it has
only one.  Both conditions are computations with words: squaring `X`, and an inverse.

## What is here

* `Gf2k.horner` — multiplication in one pass, and `Gf2k.toRing_horner`;
* `Gf2k.sqIter` — repeated squaring, and `Gf2k.toRing_sqIter`;
* `Gf2k.irreducible_of_sqIter` — **the test**.
-/

set_option autoImplicit false

open Polynomial Finset

namespace Gf2k

variable {w : ℕ}

/-! ## Squaring -/

/-- Multiplication by Horner's rule, from bit `n - 1` of `b` down. -/
def horner (p a b : BitVec w) : ℕ → BitVec w → BitVec w
  | 0, acc => acc
  | n + 1, acc => horner p a b n (mulX p acc ^^^ if b.getLsbD n then a else 0)

/-- Square `n` times. -/
def sqIter (p : BitVec w) : ℕ → BitVec w → BitVec w
  | 0, a => a
  | n + 1, a => sqIter p n (horner p a a w 0)

variable {p : BitVec w}

theorem sqIter_add (m n : ℕ) (a : BitVec w) : sqIter p (m + n) a = sqIter p n (sqIter p m a) := by
  induction m generalizing a with
  | zero => rw [Nat.zero_add, sqIter]
  | succ m ih => rw [Nat.succ_add, sqIter, sqIter, ih]

theorem toRing_horner (hw : 0 < w) (a b : BitVec w) (n : ℕ) (acc : BitVec w) :
    toRing p (horner p a b n acc) = AdjoinRoot.root (modulus p) ^ n * toRing p acc +
      toRing p a * ∑ i ∈ range n, if b.getLsbD i then AdjoinRoot.root (modulus p) ^ i else 0 := by
  induction n generalizing acc with
  | zero => rw [horner, pow_zero, one_mul, sum_range_zero, mul_zero, add_zero]
  | succ n ih =>
    have hbit : toRing p (if b.getLsbD n then a else 0)
        = if b.getLsbD n then toRing p a else 0 := by
      split
      · rfl
      · exact toRing_zero p
    rw [horner, ih, toRing_xor, toRing_mulX p hw, hbit, sum_range_succ]
    split <;> ring

/-- **Horner's rule gives the product of the ring.** -/
theorem toRing_horner_zero (hw : 0 < w) (a b : BitVec w) :
    toRing p (horner p a b w 0) = toRing p a * toRing p b := by
  rw [toRing_horner hw, toRing_zero, mul_zero, zero_add, ← toRing_eq_sum_bits]

theorem toRing_sqIter (hw : 0 < w) (n : ℕ) (a : BitVec w) :
    toRing p (sqIter p n a) = toRing p a ^ 2 ^ n := by
  induction n generalizing a with
  | zero => rw [sqIter, pow_zero, pow_one]
  | succ n ih => rw [sqIter, ih, toRing_horner_zero hw, ← pow_two, ← pow_mul, ← pow_succ']

/-! ## The test -/

theorem modulus_monic (p : BitVec w) : (modulus p).Monic := by
  refine monic_X_pow_add ?_
  exact toPoly_degree_lt p

theorem modulus_natDegree (p : BitVec w) : (modulus p).natDegree = w :=
  natDegree_eq_of_degree_eq_some (modulus_degree p)

/-- A power of two divides `2 ^ (k + 1)` only if it is that or divides `2 ^ k`. -/
theorem dvd_two_pow_of_le {d k : ℕ} (h : d ∣ 2 ^ (k + 1)) (hle : d ≤ 2 ^ k) : d ∣ 2 ^ k := by
  obtain ⟨j, -, rfl⟩ := (Nat.dvd_prime_pow Nat.prime_two).mp h
  exact Nat.pow_dvd_pow 2 ((Nat.pow_le_pow_iff_right (by decide)).mp hle)

/-- **A modulus is irreducible** if squaring `X` comes back to `X` after `w` steps and
`X ^ (2 ^ (w / 2)) - X` has an inverse. -/
theorem irreducible_of_sqIter {k : ℕ} (hw : w = 2 ^ (k + 1)) {u : BitVec w}
    (hback : sqIter p w (BitVec.twoPow w 1) = BitVec.twoPow w 1)
    (hinv : horner p u (sqIter p (2 ^ k) (BitVec.twoPow w 1) ^^^ BitVec.twoPow w 1) w 0
      = BitVec.twoPow w 0) : Irreducible (modulus p) := by
  have hpos : 0 < w := hw ▸ Nat.two_pow_pos _
  have hone : 1 < w := hw ▸ Nat.one_lt_two_pow (Nat.succ_ne_zero k)
  have hroot : toRing p (BitVec.twoPow w 1) = AdjoinRoot.mk (modulus p) X := by
    rw [toRing_twoPow p hone, pow_one, AdjoinRoot.mk_X]
  have hcard : Nat.card (ZMod 2) = 2 := Nat.card_zmod 2
  -- the modulus divides `X ^ (2 ^ w) - X`
  have hdvd : modulus p ∣ X ^ 2 ^ w - X := by
    have hring := congrArg (toRing p) hback
    rwa [toRing_sqIter hpos, hroot, ← map_pow, ← sub_eq_zero, ← map_sub,
      AdjoinRoot.mk_eq_zero] at hring
  -- a combination of the modulus and `X ^ (2 ^ 2 ^ k) - X` is 1
  have hbezout : modulus p ∣ toPoly u * (X ^ 2 ^ 2 ^ k - X) - 1 := by
    have hring := congrArg (toRing p) hinv
    rw [toRing_horner_zero hpos, toRing_xor, toRing_sqIter hpos, hroot, toRing_twoPow p hpos,
      pow_zero] at hring
    have htwo := two_eq_zero p
    rw [← AdjoinRoot.mk_eq_zero, map_sub, map_mul, map_sub, map_pow, map_one, ← toRing, ← hring]
    linear_combination (-toRing p u * AdjoinRoot.mk (modulus p) X) * htwo
  have hunit : ¬IsUnit (modulus p) := fun h => by
    have hdeg := natDegree_eq_zero_of_isUnit h
    rw [modulus_natDegree] at hdeg
    exact hpos.ne' hdeg
  rw [irreducible_iff_lt_natDegree_lt (modulus_monic p).ne_zero hunit]
  intro q hq hqdeg hqdvd
  rw [modulus_natDegree, mem_Ioc] at hqdeg
  have hqunit : ¬IsUnit q := fun h => hqdeg.1.ne' (natDegree_eq_zero_of_isUnit h)
  obtain ⟨g, hg, hgq⟩ := WfDvdMonoid.exists_irreducible_factor hqunit hq.ne_zero
  have hgmod := hgq.trans hqdvd
  have hle : g.natDegree ≤ 2 ^ k := by
    have hhalf : w / 2 = 2 ^ k := by rw [hw, pow_succ, Nat.mul_div_cancel _ Nat.two_pos]
    exact (natDegree_le_of_dvd hgq hq.ne_zero).trans (hhalf ▸ hqdeg.2)
  have hwdvd : g.natDegree ∣ 2 ^ (k + 1) := by
    rw [← hw]
    refine hg.natDegree_dvd_of_dvd_X_pow_card_pow_sub_X ?_
    rw [hcard]
    exact hgmod.trans hdvd
  have hghalf : g ∣ X ^ 2 ^ 2 ^ k - X := by
    have hmp := hg.natDegree_dvd_iff_dvd_X_pow_card_pow_sub_X.mp (dvd_two_pow_of_le hwdvd hle)
    rwa [hcard] at hmp
  have hgone : g ∣ 1 := by
    have hsub := dvd_sub (hghalf.mul_left (toPoly u)) (hgmod.trans hbezout)
    rwa [sub_sub_cancel] at hsub
  exact hg.not_isUnit (isUnit_of_dvd_one hgone)

end Gf2k
