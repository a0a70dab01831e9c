import Mathlib.Algebra.BigOperators.Fin
import Mathlib.Algebra.Field.Basic
import Mathlib.Algebra.Order.BigOperators.Group.Finset
import Mathlib.Data.Fintype.BigOperators
import Mathlib.Data.Fintype.Pi

/-!
# Challenges drawn one after the other

A party that claims something wrong answers challenges.  Before each one the claim is wrong or not,
as the challenges so far decide, and whatever the party did, only few challenges put a wrong claim
right.  So few sequences of challenges do, however the party chooses what it does by the challenges
it has seen.

## What is here

* `PublicCoin.card_pairs_le` — a first draw that goes wrong seldom, and then a second one;
* `PublicCoin.card_saved_le` — **the sequences that put a wrong claim right**;
* `PublicCoin.card_combinations_le` — the random combinations that hide an error;
* `PublicCoin.card_mul_le_of_shift` — a set that every shift but 0 leaves.
-/

set_option autoImplicit false

open Finset

namespace PublicCoin

section Pairs

variable {A B : Type*} [Fintype A] [Fintype B]

/-- Pairs, by their first component. -/
theorem card_pairs (P : A → B → Prop) [∀ a, DecidablePred (P a)] :
    #{p : A × B | P p.1 p.2} = ∑ a, #{b | P a b} := by
  simp only [card_filter, Fintype.sum_prod_type]

/-- Pairs whose components are drawn apart. -/
theorem card_pairs_and (P : A → Prop) [DecidablePred P] (Q : B → Prop) [DecidablePred Q] :
    #{p : A × B | P p.1 ∧ Q p.2} = #{a | P a} * #{b | Q b} := by
  rw [← card_product, ← filter_product, univ_product_univ]

/-- **A first draw that goes wrong seldom, and then a second one.** -/
theorem card_pairs_le {P : A → B → Prop} [∀ a, DecidablePred (P a)] (bad : A → Prop)
    [DecidablePred bad] {d : ℕ} (h : ∀ a, ¬bad a → #{b | P a b} ≤ d) :
    #{p : A × B | P p.1 p.2} ≤ #{a | bad a} * Fintype.card B + Fintype.card A * d := by
  have hone : ∀ a, #{b | P a b} ≤ (if bad a then Fintype.card B else 0) + d := fun a => by
    by_cases ha : bad a
    · rw [if_pos ha]
      exact (card_le_univ _).trans (Nat.le_add_right _ _)
    · rw [if_neg ha, Nat.zero_add]
      exact h a ha
  calc #{p : A × B | P p.1 p.2}
      ≤ ∑ a, ((if bad a then Fintype.card B else 0) + d) :=
        (card_pairs P).trans_le (sum_le_sum fun a _ => hone a)
    _ = #{a | bad a} * Fintype.card B + Fintype.card A * d := by
        simp [sum_add_distrib, ← sum_filter]

end Pairs

section Challenges

variable {F : Type*} [Fintype F]

/-- A sequence of challenges with one more. -/
theorem card_snoc (P : List F → Prop) [DecidablePred P] (n : ℕ) :
    #{c : Fin (n + 1) → F | P (List.ofFn c)}
      = #{p : (Fin n → F) × F | P (List.ofFn p.1 ++ [p.2])} := by
  refine card_equiv ((Fin.snocEquiv fun _ => F).symm.trans (Equiv.prodComm _ _)) fun c => ?_
  simp only [mem_filter, mem_univ, true_and, List.ofFn_succ', List.concat_eq_append]
  rfl

variable {wrong : List F → Prop} [DecidablePred wrong]

/-- **The sequences that put a wrong claim right.**  At most `loss k` challenges do in round `k`,
whatever the challenges before. -/
theorem card_saved_le {loss : ℕ → ℕ} (hstart : wrong []) {n : ℕ}
    (hstep : ∀ seen, seen.length < n → wrong seen →
      #{r | ¬wrong (seen ++ [r])} ≤ loss seen.length) :
    #{c : Fin n → F | ¬wrong (List.ofFn c)}
      ≤ (∑ k ∈ range n, loss k) * Fintype.card F ^ (n - 1) := by
  induction n with
  | zero => simp [hstart]
  | succ n ih =>
    have ih := ih fun seen hlen => hstep seen (by omega)
    have hlast : ∀ c : Fin n → F, ¬¬wrong (List.ofFn c) →
        #{r | ¬wrong (List.ofFn c ++ [r])} ≤ loss n := fun c hc => by
      have h := hstep (List.ofFn c) (by simp) (not_not.mp hc)
      rwa [List.length_ofFn] at h
    have hpow : (∑ k ∈ range n, loss k) * Fintype.card F ^ (n - 1) * Fintype.card F
        = (∑ k ∈ range n, loss k) * Fintype.card F ^ n := by
      rcases n with - | n
      · simp
      · rw [mul_assoc, ← pow_succ, Nat.add_sub_cancel]
    calc #{c : Fin (n + 1) → F | ¬wrong (List.ofFn c)}
        = #{p : (Fin n → F) × F | ¬wrong (List.ofFn p.1 ++ [p.2])} :=
          card_snoc (fun l => ¬wrong l) n
      _ ≤ #{c : Fin n → F | ¬wrong (List.ofFn c)} * Fintype.card F
            + Fintype.card (Fin n → F) * loss n := card_pairs_le _ hlast
      _ ≤ (∑ k ∈ range n, loss k) * Fintype.card F ^ (n - 1) * Fintype.card F
            + Fintype.card F ^ n * loss n := by
          rw [Fintype.card_fun, Fintype.card_fin]
          exact Nat.add_le_add_right (Nat.mul_le_mul_right _ ih) _
      _ = (∑ k ∈ range (n + 1), loss k) * Fintype.card F ^ (n + 1 - 1) := by
          rw [hpow, sum_range_succ, add_mul, mul_comm (loss n), Nat.add_sub_cancel]

end Challenges

/-- **The random combinations that hide an error**, with coefficients from a set `A` of elements. -/
theorem card_combinations_le {A R : Type*} [Fintype A] [CommRing R] [IsDomain R] [DecidableEq R]
    {φ : A → R} (hφ : Function.Injective φ) {n : ℕ} {err : ℕ → R} {j : ℕ} (hj : j < n)
    (herr : err j ≠ 0) :
    #{c : Fin n → A | ∑ i, φ (c i) * err i = 0} ≤ Fintype.card A ^ (n - 1) := by
  obtain ⟨n, rfl⟩ := Nat.exists_eq_succ_of_ne_zero (Nat.ne_zero_of_lt hj)
  -- the other coefficients determine the one of the error
  refine (card_le_card_of_injOn (fun c (i : Fin n) => c ((⟨j, hj⟩ : Fin (n + 1)).succAbove i))
    (fun _ _ => mem_univ _) fun c hc c' hc' heq => ?_).trans (by simp)
  have hsum := (mem_filter.mp hc).2.trans (mem_filter.mp hc').2.symm
  have hother : ∀ i : Fin n, c ((⟨j, hj⟩ : Fin (n + 1)).succAbove i)
      = c' ((⟨j, hj⟩ : Fin (n + 1)).succAbove i) := congrFun heq
  rw [Fin.sum_univ_succAbove _ ⟨j, hj⟩, Fin.sum_univ_succAbove _ ⟨j, hj⟩] at hsum
  simp only [hother] at hsum
  have hself := hφ (mul_right_cancel₀ herr (add_right_cancel hsum))
  funext i
  rcases Fin.eq_self_or_eq_succAbove ⟨j, hj⟩ i with rfl | ⟨i, rfl⟩
  · exact hself
  · exact hother i

/-- **A set that every shift but 0 leaves**, shifts being drawn from a group. -/
theorem card_mul_le_of_shift {F V : Type*} [AddGroup F] [Fintype F] [AddCommGroup V] [Fintype V]
    (e : F →+ V) {A : Finset V} (h : ∀ x ∈ A, ∀ c, x + e c ∈ A → c = 0) :
    #A * Fintype.card F ≤ Fintype.card V := by
  rw [← card_univ, ← card_product, ← card_univ]
  refine card_le_card_of_injOn (fun p => p.1 + e p.2) (fun _ _ => mem_univ _) ?_
  rintro ⟨x, c⟩ hx ⟨y, d⟩ hy heq
  have hxA : x ∈ A := (mem_product.mp hx).1
  have hyA : y ∈ A := (mem_product.mp hy).1
  have hy_eq : y = x + e (c - d) := by
    rw [map_sub, ← add_sub_assoc, eq_sub_iff_add_eq]
    exact heq.symm
  have hcd : c = d := sub_eq_zero.mp (h x hxA _ (hy_eq ▸ hyA))
  subst hcd
  rw [sub_self, map_zero, add_zero] at hy_eq
  rw [hy_eq]

end PublicCoin
