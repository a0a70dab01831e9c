import Mathlib.Algebra.BigOperators.Ring.Finset
import Mathlib.Algebra.Polynomial.Roots
import Mathlib.Tactic.LinearCombination

/-!
# Checking relations of degree 2 at a secret key

A prover holds values with MACs, a verifier the keys `mac - val * Δ` for a secret `Δ`.  A relation
of degree 2 between the values, computed from the keys instead, is a polynomial of degree 2 in `Δ`.
The prover knows its coefficients, and the one of `Δ ^ 2` is by how much the relation is off.  So
the prover sends the other two, masked by a share of a random value, and the verifier compares.

## What is here

* `KeyCheck.Share`, `KeyCheck.Share.key`;
* `KeyCheck.Term`, the three coefficients, and `KeyCheck.Term.sum`, a combination of terms;
* `KeyCheck.Term.gate`, `KeyCheck.Term.mulAdd`, `KeyCheck.Term.constant` — a product, one more
  summand of an inner product, and a public constant, from keys;
* `KeyCheck.Term.inner`, a whole inner product with a constant;
* `KeyCheck.accepts_honest_iff` — **an honest prover passes exactly if `Δ ^ 2` times the error is
  0**;
* `KeyCheck.card_le_two` — **whatever is sent, at most two keys accept an error.**
-/

set_option autoImplicit false

open Finset

namespace KeyCheck

variable {R : Type*} [CommRing R]

/-- A value with its MAC. -/
structure Share (R : Type*) where
  /-- The value. -/
  val : R
  /-- The MAC. -/
  mac : R

/-- The verifier's key. -/
def Share.key (delta : R) (s : Share R) : R := s.mac - s.val * delta

/-- The coefficients of a relation, as a polynomial in the key. -/
@[ext]
structure Term (R : Type*) where
  /-- The coefficient of `Δ ^ 0`. -/
  const : R
  /-- The coefficient of `Δ ^ 1`, with its sign changed. -/
  lin : R
  /-- The coefficient of `Δ ^ 2`: by how much the relation is off. -/
  err : R

namespace Term

variable (delta : R)

/-- The value at the key. -/
def atKey (t : Term R) : R := t.const - t.lin * delta + t.err * delta ^ 2

/-- A combination of the first `n` terms. -/
def sum (n : ℕ) (chi : ℕ → R) (t : ℕ → Term R) : Term R where
  const := ∑ i ∈ range n, chi i * (t i).const
  lin := ∑ i ∈ range n, chi i * (t i).lin
  err := ∑ i ∈ range n, chi i * (t i).err

/-- The verifier combines what it has for the terms. -/
theorem sum_atKey (n : ℕ) (chi : ℕ → R) (t : ℕ → Term R) :
    (sum n chi t).atKey delta = ∑ i ∈ range n, chi i * (t i).atKey delta := by
  simp only [atKey, sum, mul_add, mul_sub, sum_add_distrib, sum_sub_distrib, sum_mul, mul_assoc]

/-- A product. -/
def gate (a b c : Share R) : Term R where
  const := a.mac * b.mac
  lin := a.val * b.mac + b.val * a.mac - c.mac
  err := a.val * b.val - c.val

theorem gate_atKey (a b c : Share R) :
    (gate a b c).atKey delta = a.key delta * b.key delta + c.key delta * delta := by
  rw [atKey, gate, Share.key, Share.key, Share.key]
  ring

/-- A public constant.  It has no key: the verifier scales it by `Δ ^ 2`. -/
def constant (k : R) : Term R := ⟨0, 0, k⟩

theorem constant_atKey (k : R) : (constant k).atKey delta = k * delta ^ 2 := by
  rw [atKey, constant]
  ring

/-- One product more, with a public coefficient. -/
def mulAdd (t : Term R) (c : R) (a b : Share R) : Term R where
  const := t.const + c * (a.mac * b.mac)
  lin := t.lin + c * (a.mac * b.val + b.mac * a.val)
  err := t.err + c * (a.val * b.val)

theorem mulAdd_atKey (t : Term R) (c : R) (a b : Share R) :
    (t.mulAdd c a b).atKey delta = t.atKey delta + c * (a.key delta * b.key delta) := by
  rw [atKey, atKey, mulAdd, Share.key, Share.key]
  ring

/-- An inner product with public coefficients, and a public constant. -/
def inner (n : ℕ) (c : ℕ → R) (a b : ℕ → Share R) (k : R) : Term R where
  const := ∑ i ∈ range n, c i * ((a i).mac * (b i).mac)
  lin := ∑ i ∈ range n, c i * ((a i).mac * (b i).val + (b i).mac * (a i).val)
  err := k + ∑ i ∈ range n, c i * ((a i).val * (b i).val)

theorem inner_atKey (n : ℕ) (c : ℕ → R) (a b : ℕ → Share R) (k : R) :
    (inner n c a b k).atKey delta
      = ∑ i ∈ range n, c i * ((a i).key delta * (b i).key delta) + k * delta ^ 2 := by
  induction n with
  | zero => simp [atKey, inner]
  | succ n ih =>
    rw [sum_range_succ, add_right_comm, ← ih]
    simp only [atKey, inner, Share.key, sum_range_succ]
    ring

end Term

/-! ## The comparison -/

/-- The comparison of the verifier: the pair received, against the value at the key and the key of
the mask. -/
def Accepts (t : Term R) (mask : Share R) (delta : R) (A : R × R) : Prop :=
  A.1 = t.atKey delta + mask.key delta + A.2 * delta

/-- **An honest prover passes exactly if `Δ ^ 2` times the error is 0.** -/
theorem accepts_honest_iff (t : Term R) (mask : Share R) (delta : R) :
    Accepts t mask delta (t.const + mask.mac, t.lin + mask.val) ↔ delta ^ 2 * t.err = 0 := by
  rw [Accepts, Term.atKey, Share.key]
  constructor
  · intro h
    linear_combination -h
  · intro h
    linear_combination -h

/-- **Whatever is sent, at most two keys accept an error.** -/
theorem card_le_two [IsDomain R] {ι : Type*} {f : ι → R} {t : Term R} (ht : t.err ≠ 0)
    {mask : Share R} {A : R × R} {S : Finset ι} (hf : Set.InjOn f S)
    (hS : ∀ x ∈ S, Accepts t mask (f x) A) : S.card ≤ 2 := by
  classical
  -- the keys that accept are roots of this polynomial
  let p : Polynomial R := .C t.err * .X ^ 2 + .C (A.2 - t.lin - mask.val) * .X
    + .C (t.const + mask.mac - A.1)
  have hne : p ≠ 0 := fun hzero => by
    have hcoeff : p.coeff 2 = 0 := by rw [hzero, Polynomial.coeff_zero]
    simp only [p, Polynomial.coeff_add, Polynomial.coeff_C_mul, Polynomial.coeff_X_pow,
      Polynomial.coeff_X, Polynomial.coeff_C] at hcoeff
    exact ht (by simpa using hcoeff)
  have hroots : S.image f ⊆ p.roots.toFinset := by
    intro x hx
    obtain ⟨i, hi, rfl⟩ := Finset.mem_image.mp hx
    have hacc := hS i hi
    rw [Accepts, Term.atKey, Share.key] at hacc
    rw [Multiset.mem_toFinset, Polynomial.mem_roots hne, Polynomial.IsRoot]
    simp only [p, Polynomial.eval_add, Polynomial.eval_mul, Polynomial.eval_C, Polynomial.eval_pow,
      Polynomial.eval_X]
    linear_combination -hacc
  calc S.card = (S.image f).card := (Finset.card_image_of_injOn hf).symm
    _ ≤ p.roots.toFinset.card := Finset.card_le_card hroots
    _ ≤ Multiset.card p.roots := Multiset.toFinset_card_le _
    _ ≤ p.natDegree := Polynomial.card_roots' p
    _ ≤ 2 := Polynomial.natDegree_quadratic_le

end KeyCheck
