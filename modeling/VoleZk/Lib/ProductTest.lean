import Mathlib.Algebra.Order.BigOperators.Group.Finset
import Mathlib.Algebra.Polynomial.Roots
import Mathlib.Data.Fintype.Basic

/-!
# Comparing multisets by a product

Two lists have the same elements exactly if the polynomials with these roots are the same.  At a
random point the polynomials are compared instead: permutations always agree, and lists that are no
permutations of each other agree at fewer points than they have elements.  Elements too long for a
product are first made shorter, by a map drawn from a family that seldom takes two of them to one.

## What is here

* `ProductTest.card_le_of_not_perm` — **the points of agreement**;
* `ProductTest.card_map_perm_le` — **the maps that make lists permutations of each other**.
-/

set_option autoImplicit false

open Polynomial

namespace ProductTest

variable {R : Type*} [CommRing R]

/-- The polynomial whose roots are the elements of a list. -/
noncomputable def rootPoly (as : List R) : R[X] := (as.map fun a => X - C a).prod

theorem eval_rootPoly (as : List R) (r : R) :
    (rootPoly as).eval r = (as.map fun a => r - a).prod := by
  induction as with
  | nil => exact eval_one
  | cons a as ih =>
    rw [rootPoly, List.map_cons, List.prod_cons, eval_mul, ← rootPoly, ih, eval_sub, eval_X,
      eval_C, List.map_cons, List.prod_cons]

theorem rootPoly_monic (as : List R) : (rootPoly as).Monic := by
  induction as with
  | nil => exact monic_one
  | cons a as ih =>
    rw [rootPoly, List.map_cons, List.prod_cons]
    exact (monic_X_sub_C a).mul ih

variable [IsDomain R]

theorem roots_rootPoly (as : List R) : (rootPoly as).roots = as := by
  have hprod : rootPoly as = ((as : Multiset R).map fun a => X - C a).prod := by
    rw [Multiset.map_coe, Multiset.prod_coe, rootPoly]
  rw [hprod, roots_multiset_prod_X_sub_C]

theorem degree_rootPoly (as : List R) : (rootPoly as).degree = as.length := by
  rw [rootPoly, degree_list_prod, List.map_map]
  simp [Function.comp_def]

/-- **Lists that are no permutations of each other agree at fewer points than they have
elements.** -/
theorem card_le_of_not_perm {as bs : List R} (hlen : as.length = bs.length) (h : ¬as.Perm bs)
    (rs : Finset R)
    (hrs : ∀ r ∈ rs, (as.map fun a => r - a).prod = (bs.map fun b => r - b).prod) :
    rs.card ≤ as.length - 1 := by
  have hne : rootPoly as - rootPoly bs ≠ 0 := fun hzero => by
    have hroots := congrArg roots (sub_eq_zero.mp hzero)
    rw [roots_rootPoly, roots_rootPoly, Multiset.coe_eq_coe] at hroots
    exact h hroots
  have hdeg : (rootPoly as - rootPoly bs).degree < as.length := by
    rw [← degree_rootPoly]
    refine degree_sub_lt_left ?_ (rootPoly_monic as).ne_zero ?_
    · rw [degree_rootPoly, degree_rootPoly, hlen]
    · rw [(rootPoly_monic as).leadingCoeff, (rootPoly_monic bs).leadingCoeff]
  have hnat : (rootPoly as - rootPoly bs).natDegree < as.length :=
    (natDegree_lt_iff_degree_lt hne).mpr hdeg
  have hsub : rs.val ≤ (rootPoly as - rootPoly bs).roots := by
    refine (Multiset.le_iff_subset rs.nodup).mpr fun r hr => ?_
    rw [mem_roots hne, IsRoot, eval_sub, eval_rootPoly, eval_rootPoly, hrs r hr, sub_self]
  exact Nat.le_sub_one_of_lt
    ((Multiset.card_le_card hsub).trans (card_roots' _) |>.trans_lt hnat)

section Map

variable {K α β : Type*} [DecidableEq α] [DecidableEq β] {f : K → α → β}

/-- An element that occurs more often is taken to one that occurs more often, unless another element
is. -/
theorem exists_collision {k : K} {as bs : List α} {a : α} (hcount : bs.count a < as.count a)
    (h : (as.map (f k)).Perm (bs.map (f k))) : ∃ b ∈ bs, b ≠ a ∧ f k a = f k b := by
  by_contra hnone
  have hsame : (bs.map (f k)).count (f k a) = bs.count a := by
    rw [List.count, List.countP_map, List.count]
    refine List.countP_congr fun b hb => ?_
    simp only [Function.comp_apply, beq_iff_eq]
    constructor
    · intro heq
      by_contra hne
      exact hnone ⟨b, hb, hne, heq.symm⟩
    · rintro rfl
      rfl
  have hle : as.count a ≤ (as.map (f k)).count (f k a) := List.count_le_count_map
  rw [h.count_eq, hsame] at hle
  omega

/-- **The maps that make lists permutations of each other**, if few take two elements to one. -/
theorem card_map_perm_le [Fintype K] {d : ℕ}
    (hcoll : ∀ a b, a ≠ b → Finset.card {k | f k a = f k b} ≤ d)
    {as bs : List α} (hlen : as.length = bs.length) (h : ¬as.Perm bs) :
    Finset.card {k | (as.map (f k)).Perm (bs.map (f k))} ≤ as.length * d := by
  classical
  wlog hlt : ∃ a, bs.count a < as.count a generalizing as bs
  · obtain ⟨a, ha⟩ := not_forall.mp fun heq => h (List.perm_iff_count.mpr heq)
    have hswap := this hlen.symm (fun hperm => h hperm.symm)
      ⟨a, Nat.lt_of_le_of_ne (Nat.le_of_not_lt fun hgt => hlt ⟨a, hgt⟩) ha⟩
    simpa only [List.perm_comm, hlen] using hswap
  obtain ⟨a, ha⟩ := hlt
  have hsub : (Finset.univ.filter fun k => (as.map (f k)).Perm (bs.map (f k)))
      ⊆ (bs.toFinset.erase a).biUnion fun b => {k | f k a = f k b} := fun k hk => by
    obtain ⟨b, hb, hne, heq⟩ := exists_collision ha (Finset.mem_filter.mp hk).2
    exact Finset.mem_biUnion.mpr ⟨b, Finset.mem_erase.mpr ⟨hne, List.mem_toFinset.mpr hb⟩,
      Finset.mem_filter.mpr ⟨Finset.mem_univ k, heq⟩⟩
  have hcard : (bs.toFinset.erase a).card ≤ as.length :=
    (Finset.card_le_card (Finset.erase_subset a _)).trans
      (hlen ▸ List.toFinset_card_le bs)
  exact (Finset.card_le_card hsub).trans ((Finset.card_biUnion_le_card_mul _ _ d fun b hb =>
    hcoll a b (Finset.ne_of_mem_erase hb).symm).trans (Nat.mul_le_mul_right d hcard))

end Map

end ProductTest
