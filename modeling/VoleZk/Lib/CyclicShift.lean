import Mathlib.Data.ZMod.Basic
import Mathlib.GroupTheory.Index
import Mathlib.GroupTheory.OrderOfElement

/-!
# Points of a circle from which a map looks the same

A map on a circle of `m` points is read from some point on, once around.  Two points from which it
reads the same differ by a period, so that there are no more such points than periods.  What is read
begins with `c` equal values but is not constant: then the periods have more than `c` cosets, and
the number of cosets divides `m`.

## What is here

* `periods`, `sub_mem_periods` — the periods of a map form a subgroup;
* `lt_index` — **more than `c` cosets**;
* `mul_card_le` — **how many points there are**, and `mul_card_filter_le`, by indices.
-/

set_option autoImplicit false

namespace CyclicShift

variable {α : Type*} {m : ℕ}

/-- The periods of a map. -/
def periods (D : ZMod m → α) : AddSubgroup (ZMod m) where
  carrier := {h | ∀ x, D (x + h) = D x}
  zero_mem' x := by rw [add_zero]
  add_mem' {g h} hg hh x := by rw [← add_assoc, hh, hg]
  neg_mem' {h} hh x := by
    have hback := hh (x + -h)
    rwa [neg_add_cancel_right, eq_comm] at hback

theorem mem_periods {D : ZMod m → α} {h : ZMod m} : h ∈ periods D ↔ ∀ x, D (x + h) = D x := Iff.rfl

/-- **Two points that read the same differ by a period.** -/
theorem sub_mem_periods {D G : ZMod m → α} {r s : ZMod m} (hr : ∀ k, D (r + k) = G k)
    (hs : ∀ k, D (s + k) = G k) : s - r ∈ periods D := by
  intro x
  have hread : D (s + (x - r)) = D (r + (x - r)) := (hs _).trans (hr _).symm
  rwa [add_sub_cancel, add_sub_left_comm] at hread

/-- Steps count modulo the number of cosets. -/
theorem apply_add_mod (D : ZMod m → α) (r : ZMod m) (k : ℕ) :
    D (r + k) = D (r + ((k % (periods D).index : ℕ) : ZMod m)) := by
  have hmem := (periods D).nsmul_index_mem ((k / (periods D).index : ℕ) : ZMod m)
  rw [nsmul_eq_mul, ← Nat.cast_mul] at hmem
  have hstep := mem_periods.mp hmem (r + ((k % (periods D).index : ℕ) : ZMod m))
  rwa [add_assoc, ← Nat.cast_add, Nat.mod_add_div] at hstep

/-- **More than `c` cosets.** -/
theorem lt_index [NeZero m] {D : ZMod m → α} {r : ZMod m} {z : α} {c : ℕ}
    (hz : ∀ k : ℕ, k < c → D (r + k) = z) {x : ZMod m} (hx : D (r + x) ≠ z) :
    c < (periods D).index := by
  by_contra hle
  refine hx ?_
  have hpos : 0 < (periods D).index := Nat.pos_of_ne_zero AddSubgroup.FiniteIndex.index_ne_zero
  rw [← ZMod.natCast_zmod_val x, apply_add_mod D]
  exact hz _ ((Nat.mod_lt _ hpos).trans_le (not_lt.mp hle))

/-- **How many points there are** from which `G` is read: one for each period at most, and the
number of cosets is a divisor of `m` beyond `c`. -/
theorem mul_card_le [NeZero m] {D G : ZMod m → α} {z : α} {c q : ℕ}
    (hz : ∀ k : ℕ, k < c → G k = z) {x : ZMod m} (hx : G x ≠ z)
    (hq : ∀ d, d ∣ m → c < d → q ≤ d) {S : Finset (ZMod m)}
    (hS : ∀ r ∈ S, ∀ k, D (r + k) = G k) : q * S.card ≤ m := by
  rcases S.eq_empty_or_nonempty with rfl | ⟨r, hr⟩
  · simp
  have hcosets : (periods D).index * Nat.card (periods D) = m := by
    rw [AddSubgroup.index_mul_card, Nat.card_zmod]
  have hindex : c < (periods D).index :=
    lt_index (fun k hk => (hS r hr _).trans (hz k hk)) (hS r hr x ▸ hx)
  have hcard : S.card ≤ Nat.card (periods D) := by
    -- from the first point to each of them
    have hinj : Function.Injective fun s : S =>
        (⟨s - r, sub_mem_periods (hS r hr) (hS s s.2)⟩ : periods D) := fun s t heq =>
      Subtype.ext (sub_left_injective (congrArg Subtype.val heq))
    simpa using Nat.card_le_card_of_injective _ hinj
  calc q * S.card ≤ (periods D).index * Nat.card (periods D) :=
        Nat.mul_le_mul (hq _ (Dvd.intro _ hcosets) hindex) hcard
    _ = m := hcosets

/-- By indices. -/
theorem mul_card_filter_le {D G : ℕ → α} {z : α} {c q n : ℕ} (hz : ∀ k < c, G k = z)
    (hn : n < m) (hx : G n ≠ z) (hq : ∀ d, d ∣ m → c < d → q ≤ d) {p : ℕ → Prop}
    [DecidablePred p] (hp : ∀ r < m, p r → ∀ k < m, D ((r + k) % m) = G k) :
    q * ((Finset.range m).filter p).card ≤ m := by
  have : NeZero m := ⟨((Nat.zero_le _).trans_lt hn).ne'⟩
  have hinj : Set.InjOn (Nat.cast : ℕ → ZMod m) ((Finset.range m).filter p) := by
    intro r hr s hs heq
    have hr := Finset.mem_range.mp (Finset.mem_filter.mp hr).1
    have hs := Finset.mem_range.mp (Finset.mem_filter.mp hs).1
    rwa [ZMod.natCast_eq_natCast_iff', Nat.mod_eq_of_lt hr, Nat.mod_eq_of_lt hs] at heq
  rw [← Finset.card_image_of_injOn hinj]
  refine mul_card_le (D := fun x => D x.val) (G := fun x => G x.val) (z := z) (c := c)
    (fun k hk => ?_) (x := n) ?_ hq fun x hx k => ?_
  · rw [ZMod.val_natCast]
    exact hz _ ((Nat.mod_le k m).trans_lt hk)
  · rwa [ZMod.val_natCast, Nat.mod_eq_of_lt hn]
  · obtain ⟨r, hr, rfl⟩ := Finset.mem_image.mp hx
    obtain ⟨hr, hpr⟩ := Finset.mem_filter.mp hr
    have hr := Finset.mem_range.mp hr
    rw [ZMod.val_add, ZMod.val_natCast, Nat.mod_eq_of_lt hr]
    exact hp r hr hpr _ (ZMod.val_lt k)

end CyclicShift
