import Mathlib.Algebra.BigOperators.Intervals
import Mathlib.Data.List.Perm.Basic
import Mathlib.Logic.Function.Basic

/-!
# Loops split over workers

A loop over `0, …, n - 1` whose iteration `i` reads and writes cell `i` of an array only may be
shared out among workers: in whatever order the indices are visited, the array is the same in the
end.  A sum over the same indices may be shared out into consecutive slices.

## What is here

* `Workers.forEach_perm_range` — **the order of independent iterations does not matter**;
* `Workers.split`, `Workers.foldl_split`, `Workers.sum_split` — consecutive slices, and a loop or a
  sum over all of them.
-/

set_option autoImplicit false

open Finset

namespace Workers

/-! ## Independent iterations -/

section ForEach

variable {α : Type*} (g : ℕ → α → α)

/-- Visit the indices of `l` in turn, replacing the cell of each. -/
def forEach (l : List ℕ) (arr : ℕ → α) : ℕ → α :=
  l.foldl (fun arr i => Function.update arr i (g i (arr i))) arr

theorem forEach_apply {l : List ℕ} (hl : l.Nodup) (arr : ℕ → α) (j : ℕ) :
    forEach g l arr j = if j ∈ l then g j (arr j) else arr j := by
  induction l generalizing arr with
  | nil => rfl
  | cons i l ih =>
    rw [List.nodup_cons] at hl
    show forEach g l (Function.update arr i (g i (arr i))) j = _
    rw [ih hl.2]
    by_cases hji : j = i
    · subst hji
      rw [if_neg hl.1, if_pos List.mem_cons_self, Function.update_self]
    · simp only [Function.update_of_ne hji, List.mem_cons, hji, false_or]

/-- **The order of independent iterations does not matter.** -/
theorem forEach_perm_range {l : List ℕ} {n : ℕ} (hl : l.Perm (List.range n)) (arr : ℕ → α)
    (j : ℕ) : forEach g l arr j = if j < n then g j (arr j) else arr j := by
  simp only [forEach_apply g (hl.nodup_iff.mpr List.nodup_range), hl.mem_iff, List.mem_range]

end ForEach

/-! ## Slices -/

/-- The slices of `cnt` indices for `threads` workers, as first index and length: equal slices,
and what is left for the last worker. -/
def split (threads cnt : ℕ) : List (ℕ × ℕ) :=
  if threads ≤ 1 then [(0, cnt)]
  else
    let taskBase := cnt / threads
    (List.range (threads - 1)).map (fun t => (t * taskBase, taskBase)) ++
      [((threads - 1) * taskBase, cnt - (threads - 1) * taskBase)]

/-- **The slices in turn are the whole.** -/
theorem flatMap_split (threads cnt : ℕ) :
    ((split threads cnt).flatMap fun r => (List.range r.2).map (r.1 + ·)) = List.range cnt := by
  have hequal : ∀ base n : ℕ, (((List.range n).map fun t => (t * base, base)).flatMap fun r =>
      (List.range r.2).map (r.1 + ·)) = List.range (n * base) := fun base n => by
    induction n with
    | zero => rw [Nat.zero_mul]; rfl
    | succ n ih =>
      rw [List.range_succ, List.map_append, List.flatMap_append, ih, Nat.succ_mul, List.range_add]
      simp
  rw [split]
  by_cases h : threads ≤ 1
  · rw [if_pos h]
    simp
  · rw [if_neg h]
    have hle : (threads - 1) * (cnt / threads) ≤ cnt :=
      (Nat.mul_le_mul_right _ (Nat.sub_le _ _)).trans (Nat.mul_div_le cnt threads)
    rw [List.flatMap_append, hequal, List.flatMap_singleton, ← List.range_add,
      Nat.add_sub_of_le hle]

/-- The slices hold indices of the whole. -/
theorem add_lt_of_mem_split {threads cnt k : ℕ} {r : ℕ × ℕ} (hr : r ∈ split threads cnt)
    (hk : k < r.2) : r.1 + k < cnt := by
  rw [← List.mem_range, ← flatMap_split threads cnt, List.mem_flatMap]
  exact ⟨r, hr, List.mem_map.mpr ⟨k, List.mem_range.mpr hk, rfl⟩⟩

/-- **A loop over slices**, each from `e` on, combined by `op`, is the loop over the whole. -/
theorem foldl_split {α : Type*} {op : α → α → α} {e : α} {f : ℕ → α → α}
    (he : ∀ x, op x e = x) (hf : ∀ i x y, f i (op x y) = op x (f i y)) (threads cnt : ℕ) (x : α) :
    ((split threads cnt).map fun r =>
        (List.range r.2).foldl (fun acc k => f (r.1 + k) acc) e).foldl op x
      = (List.range cnt).foldl (fun acc i => f i acc) x := by
  have hslice : ∀ (l : List ℕ) (y z : α),
      op y (l.foldl (fun acc i => f i acc) z) = l.foldl (fun acc i => f i acc) (op y z) := by
    intro l
    induction l with
    | nil => exact fun _ _ => rfl
    | cons i l ih =>
      intro y z
      rw [List.foldl_cons, ih, List.foldl_cons, hf]
  rw [← flatMap_split threads cnt, List.foldl_flatMap, List.foldl_map]
  refine congrArg (fun g => List.foldl g x (split threads cnt)) (funext₂ fun acc r => ?_)
  rw [List.foldl_map]
  have hone := hslice ((List.range r.2).map (r.1 + ·)) acc e
  rwa [List.foldl_map, he, List.foldl_map] at hone

variable {K : Type*} [AddCommMonoid K] (f : ℕ → K)

/-- **The slices make up the whole.** -/
theorem sum_split (threads cnt : ℕ) :
    ((split threads cnt).map fun r => ∑ k ∈ range r.2, f (r.1 + k)).sum
      = ∑ k ∈ range cnt, f k := by
  have hfold : ∀ start n, (List.range n).foldl (fun acc k => acc + f (start + k)) 0
      = ∑ k ∈ range n, f (start + k) := fun start n => by
    induction n with
    | zero => rfl
    | succ n ih =>
      rw [List.range_succ, List.foldl_append, ih, sum_range_succ, List.foldl_cons, List.foldl_nil]
  have hall := hfold 0 cnt
  simp only [Nat.zero_add] at hall
  rw [← hall, List.sum_eq_foldl, ← foldl_split add_zero (fun i x y => add_assoc x y (f i)) threads]
  exact congrArg (List.foldl _ _) (List.map_congr_left fun r _ => (hfold r.1 r.2).symm)

end Workers
