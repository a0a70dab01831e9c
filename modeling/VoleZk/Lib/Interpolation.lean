import Mathlib.LinearAlgebra.Lagrange

/-!
# Interpolation from the first `n` points of a sequence

Lagrange coefficients as products over indices, the way programs tabulate them, and the two uses a
check by random evaluation makes of them: values of a polynomial of low degree determine it, and a
nonzero polynomial has few roots.

## What is here

* `lagCoeff pts n i x`, coefficient `i` at `x`;
* `interp pts n vals`, the polynomial through the values, and `eval_interp`;
* `Through pts n vals f`, and `existsUnique_through` — there is one such polynomial;
* `sum_lagCoeff_eval` — **a polynomial of degree below `n`, from its values**;
* `eq_C_of_eval_mul_eq` — turning the points changes all but the constants;
* `eq_zero_of_sum_lagCoeff` — **a few values, from as many values elsewhere**;
* `card_roots_le` — the number of points where a polynomial vanishes.
-/

set_option autoImplicit false

open Finset Polynomial

namespace Interpolation

variable {F : Type*} [Field F] {pts : ℕ → F} {n : ℕ}

/-- The product of the differences of `x` to the points other than point `i`. -/
def skipProd (pts : ℕ → F) (n i : ℕ) (x : F) : F := ∏ j ∈ (range n).erase i, (x - pts j)

/-- Coefficient `i` at `x`, of the interpolation from the first `n` points. -/
def lagCoeff (pts : ℕ → F) (n i : ℕ) (x : F) : F :=
  skipProd pts n i x * (skipProd pts n i (pts i))⁻¹

/-- The polynomial through the given values. -/
noncomputable def interp (pts : ℕ → F) (n : ℕ) (vals : ℕ → F) : F[X] :=
  Lagrange.interpolate (range n) pts vals

/-- A polynomial of degree below `n` through values at the first `n` points. -/
def Through (pts : ℕ → F) (n : ℕ) (vals : ℕ → F) (f : F[X]) : Prop :=
  f.degree < n ∧ ∀ i < n, f.eval (pts i) = vals i

theorem natDegree_lt {f : F[X]} (hn : 0 < n) (hdeg : f.degree < n) : f.natDegree < n := by
  by_cases hf : f = 0
  · rwa [hf, natDegree_zero]
  · exact (natDegree_lt_iff_degree_lt hf).mpr hdeg

/-- The value of a polynomial of low degree, from its first coefficients. -/
theorem eval_eq_sum_coeff {f : F[X]} (hn : 0 < n) (hdeg : f.degree < n) (x : F) :
    f.eval x = ∑ g ∈ range n, f.coeff g * x ^ g := by
  exact eval_eq_sum_range' (natDegree_lt hn hdeg) x

/-- The degree of a product. -/
theorem degree_mul_lt {f g : F[X]} {a b : ℕ} (ha : 0 < a) (hb : 0 < b) (hf : f.degree < a)
    (hg : g.degree < b) : (f * g).degree < (a + b - 1 : ℕ) := by
  have hf' := natDegree_lt ha hf
  have hg' := natDegree_lt hb hg
  have hnat : (f * g).natDegree < a + b - 1 :=
    natDegree_mul_le.trans_lt (show f.natDegree + g.natDegree < a + b - 1 by omega)
  exact degree_le_natDegree.trans_lt (Nat.cast_lt.mpr hnat)

theorem lagCoeff_eq_eval_basis (i : ℕ) (x : F) :
    lagCoeff pts n i x = (Lagrange.basis (range n) pts i).eval x := by
  rw [lagCoeff, skipProd, skipProd, Lagrange.basis, eval_prod, ← prod_inv_distrib,
    ← prod_mul_distrib]
  refine prod_congr rfl fun j _ => ?_
  rw [Lagrange.basisDivisor, eval_mul, eval_C, eval_sub, eval_X, eval_C, mul_comm]

theorem eval_interp (vals : ℕ → F) (x : F) :
    (interp pts n vals).eval x = ∑ i ∈ range n, vals i * lagCoeff pts n i x := by
  rw [interp, Lagrange.interpolate_apply, eval_finsetSum]
  refine sum_congr rfl fun i _ => ?_
  rw [eval_mul, eval_C, lagCoeff_eq_eval_basis]

/-- The coefficients of the other points vanish at a point. -/
theorem lagCoeff_node {i j : ℕ} (hj : j < n) (hne : i ≠ j) : lagCoeff pts n i (pts j) = 0 := by
  rw [lagCoeff, skipProd, prod_eq_zero (mem_erase.mpr ⟨hne.symm, mem_range.mpr hj⟩) (sub_self _),
    zero_mul]

/-- The points are different exactly when no product of differences vanishes. -/
theorem injOn_iff_skipProd_ne_zero :
    Set.InjOn pts (range n) ↔ ∀ i < n, skipProd pts n i (pts i) ≠ 0 := by
  simp only [skipProd, prod_ne_zero_iff, mem_erase, mem_range, sub_ne_zero]
  constructor
  · rintro hinj i hi j ⟨hne, hj⟩ heq
    exact hne (hinj (by simpa using hj) (by simpa using hi) heq.symm)
  · intro h i hi j hj heq
    have hi' : i < n := by simpa using hi
    have hj' : j < n := by simpa using hj
    by_contra hne
    exact h i hi' j ⟨Ne.symm hne, hj'⟩ heq

section Distinct

variable (hinj : Set.InjOn pts (range n))
include hinj

theorem eval_interp_node (vals : ℕ → F) {i : ℕ} (hi : i < n) :
    (interp pts n vals).eval (pts i) = vals i :=
  Lagrange.eval_interpolate_at_node vals hinj (mem_range.mpr hi)

theorem degree_interp_lt (vals : ℕ → F) : (interp pts n vals).degree < n := by
  have h := Lagrange.degree_interpolate_lt vals hinj
  rwa [card_range] at h

/-- **Values determine a polynomial of low degree.** -/
theorem sum_lagCoeff_eval {f : F[X]} (hdeg : f.degree < n) (x : F) :
    ∑ i ∈ range n, f.eval (pts i) * lagCoeff pts n i x = f.eval x := by
  rw [← eval_interp]
  refine congrArg (eval x) (Lagrange.eq_interpolate hinj ?_).symm
  rwa [card_range]

theorem sum_lagCoeff (hn : 0 < n) (x : F) : ∑ i ∈ range n, lagCoeff pts n i x = 1 := by
  have h := sum_lagCoeff_eval hinj (f := 1) (by
    rw [degree_one]
    exact_mod_cast hn) x
  simpa only [eval_one, one_mul] using h

/-- A polynomial of low degree that vanishes at the points is 0. -/
theorem eq_zero_of_eval_eq_zero {f : F[X]} (hdeg : f.degree < n)
    (hzero : ∀ i < n, f.eval (pts i) = 0) : f = 0 := by
  refine Lagrange.eq_interpolate hinj (by rwa [card_range]) |>.trans ?_
  rw [Lagrange.interpolate_apply]
  exact sum_eq_zero fun i hi => by rw [hzero i (mem_range.mp hi), C_0, zero_mul]

/-- **There is one polynomial of low degree** through values at different points. -/
theorem existsUnique_through (vals : ℕ → F) : ∃! f, Through pts n vals f := by
  refine ⟨interp pts n vals, ⟨degree_interp_lt hinj vals, fun i => eval_interp_node hinj vals⟩, ?_⟩
  rintro f ⟨hdeg, hval⟩
  exact Lagrange.eq_interpolate_of_eval_eq vals hinj (by rwa [card_range])
    fun i hi => hval i (mem_range.mp hi)

/-- A polynomial of low degree that takes the same values at the points multiplied by `g` is
constant, if no power of `g` below `n` is 1. -/
theorem eq_C_of_eval_mul_eq {g : F} (hg : ∀ j, 0 < j → j < n → g ^ j ≠ 1) {f : F[X]}
    (hdeg : f.degree < n) (heq : ∀ i < n, f.eval (g * pts i) = f.eval (pts i)) :
    f = C (f.coeff 0) := by
  have hcoeff : ∀ j, n ≤ j → f.coeff j = 0 := (degree_lt_iff_coeff_zero f n).mp hdeg
  have hdiff : f.comp (C g * X) - f = 0 := by
    refine eq_zero_of_eval_eq_zero hinj ?_ fun i hi => ?_
    · refine (degree_lt_iff_coeff_zero _ n).mpr fun j hj => ?_
      rw [coeff_sub, comp_C_mul_X_coeff, hcoeff j hj, zero_mul, sub_zero]
    · rw [eval_sub, eval_comp, eval_mul, eval_C, eval_X, heq i hi, sub_self]
  ext j
  rw [coeff_C]
  split
  · rename_i h
    rw [h]
  · rename_i hj
    by_cases hn : n ≤ j
    · exact hcoeff j hn
    · have hj' := congrArg (coeff · j) hdiff
      simp only [coeff_sub, comp_C_mul_X_coeff, coeff_zero] at hj'
      have hfactor : f.coeff j * (g ^ j - 1) = 0 := by
        rw [mul_sub, mul_one]
        exact hj'
      exact (mul_eq_zero.mp hfactor).resolve_right
        (sub_ne_zero.mpr (hg j (Nat.pos_of_ne_zero hj) (not_le.mp hn)))

/-- **As few nonzero values as other points where the polynomial vanishes**: then there are none. -/
theorem eq_zero_of_sum_lagCoeff {vals : ℕ → F} {supp : Finset ℕ}
    (hsupp : ∀ i < n, i ∉ supp → vals i = 0) {others : ℕ → F} {cnt : ℕ} (hcnt : (#supp) ≤ cnt)
    (hothers : Set.InjOn others (range cnt)) (hne : ∀ m < cnt, ∀ i < n, others m ≠ pts i)
    (hzero : ∀ m < cnt, ∑ i ∈ range n, vals i * lagCoeff pts n i (others m) = 0) {i : ℕ}
    (hi : i < n) : vals i = 0 := by
  let places := (range n \ supp).disjSum (range cnt)
  have hcard : (#places) ≥ n := by
    have hle := le_card_sdiff supp (range n)
    rw [card_range] at hle
    rw [card_disjSum, card_range]
    omega
  have hplaces : Set.InjOn (Sum.elim pts others) places := by
    rintro (a | a) ha (b | b) hb heq
    · have ha' := (mem_sdiff.mp (inl_mem_disjSum.mp ha)).1
      have hb' := (mem_sdiff.mp (inl_mem_disjSum.mp hb)).1
      exact congrArg Sum.inl (hinj ha' hb' heq)
    · exact absurd heq.symm (hne b (mem_range.mp (inr_mem_disjSum.mp hb)) a
        (mem_range.mp (mem_sdiff.mp (inl_mem_disjSum.mp ha)).1))
    · exact absurd heq (hne a (mem_range.mp (inr_mem_disjSum.mp ha)) b
        (mem_range.mp (mem_sdiff.mp (inl_mem_disjSum.mp hb)).1))
    · exact congrArg Sum.inr (hothers (inr_mem_disjSum.mp ha) (inr_mem_disjSum.mp hb) heq)
  have hpoly : interp pts n vals = 0 := by
    refine eq_zero_of_degree_lt_of_eval_index_eq_zero _ hplaces
      ((degree_interp_lt hinj vals).trans_le (Nat.cast_le.mpr hcard)) ?_
    rintro (a | a) ha
    · obtain ⟨ha', hout⟩ := mem_sdiff.mp (inl_mem_disjSum.mp ha)
      rw [Sum.elim_inl, eval_interp_node hinj vals (mem_range.mp ha')]
      exact hsupp a (mem_range.mp ha') hout
    · rw [Sum.elim_inr, eval_interp]
      exact hzero a (mem_range.mp (inr_mem_disjSum.mp ha))
  rw [← eval_interp_node hinj vals hi, hpoly, eval_zero]

end Distinct

/-- **A nonzero polynomial has at most as many zeros as its degree.** -/
theorem card_roots_le [Fintype F] [DecidableEq F] {f : F[X]} (hf : f ≠ 0) {d : ℕ}
    (hdeg : f.degree < (d + 1 : ℕ)) : #{x | f.eval x = 0} ≤ d := by
  have hroots : ({x | f.eval x = 0} : Finset F).val ⊆ f.roots := fun x hx => by
    rw [mem_roots hf]
    exact (mem_filter.mp hx).2
  have hnat : f.natDegree < d + 1 := (natDegree_lt_iff_degree_lt hf).mpr hdeg
  exact (card_le_degree_of_subset_roots hroots).trans (Nat.lt_succ_iff.mp hnat)

/-- **A nonzero polynomial of low degree has a value other than 0** outside a small set. -/
theorem exists_eval_ne_zero [Fintype F] [DecidableEq F] {f : F[X]} (hf : f ≠ 0) {d : ℕ}
    (hdeg : f.degree < (d + 1 : ℕ)) (avoid : Finset F) (hcard : d + (#avoid) < Fintype.card F) :
    ∃ r, r ∉ avoid ∧ f.eval r ≠ 0 := by
  by_contra! hall
  have hcover : (univ : Finset F) ⊆ ({x | f.eval x = 0} : Finset F) ∪ avoid := fun r _ => by
    by_cases hr : r ∈ avoid
    · exact mem_union_right _ hr
    · exact mem_union_left _ (mem_filter.mpr ⟨mem_univ r, hall r hr⟩)
  have hle := (card_le_card hcover).trans (card_union_le _ _)
  have hroots := card_roots_le hf hdeg
  rw [card_univ] at hle
  omega

end Interpolation
