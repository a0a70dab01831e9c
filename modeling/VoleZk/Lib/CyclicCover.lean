import Mathlib.Data.List.Nodup
import Mathlib.Data.List.Rotate

/-!
# Covering a circle with a block and strided rows

Positions are counted from `base` around a circle of `m`, and an index that leaves the circle is
taken back by one subtraction.  A block of `c` positions and, behind it, `a` rows of `b` positions
with stride `a` visit every position of a circle of `a * b + c` once.

## What is here

* `wrap`, and `wrap_eq` — **one subtraction is enough** for two rounds;
* `cover_perm` — **the block and the rows**, from any position.
-/

set_option autoImplicit false

namespace CyclicCover

/-- An index, taken back into the circle of `m` positions from `base` on. -/
def wrap (base m offset : ℕ) : ℕ := if offset ≥ base + m then offset - m else offset

variable {base m : ℕ}

theorem wrap_eq {t : ℕ} (ht : t < 2 * m) : wrap base m (base + t) = base + t % m := by
  rw [wrap]
  split
  · have hmod : t % m = t - m := by
      rw [Nat.mod_eq_sub_mod (by omega), Nat.mod_eq_of_lt (by omega)]
    omega
  · rw [Nat.mod_eq_of_lt (by omega)]

/-- Once around the circle. -/
theorem rotate_perm (m r : ℕ) :
    ((List.range m).map fun t => (r + t) % m).Perm (List.range m) := by
  have heq : ((List.range m).map fun t => (r + t) % m) = (List.range m).rotate r := by
    refine List.ext_getElem ?_ fun i hi hi' => ?_
    · rw [List.length_map, List.length_rotate]
    · rw [List.getElem_rotate, List.getElem_map, List.getElem_range, List.getElem_range,
        List.length_range, Nat.add_comm]
  rw [heq]
  exact List.rotate_perm _ _

/-- Rows of stride `a` from the first `a` numbers. -/
theorem grid_perm (a b : ℕ) :
    ((List.range a).flatMap fun j => (List.range b).map fun i => j + i * a).Perm
      (List.range (a * b)) := by
  refine (List.perm_ext_iff_of_nodup ?_ List.nodup_range).mpr fun t => ?_
  · refine List.nodup_flatMap.mpr ⟨fun j hj => ?_, ?_⟩
    · refine List.nodup_range.map_on fun i _ i' _ heq => ?_
      have ha : 0 < a := (Nat.zero_le j).trans_lt (List.mem_range.mp hj)
      exact Nat.eq_of_mul_eq_mul_right ha (Nat.add_left_cancel heq)
    · refine List.Nodup.pairwise_of_forall_ne List.nodup_range fun j hj j' hj' hne => ?_
      -- a number belongs to the row of its remainder
      intro t ht ht'
      obtain ⟨i, -, rfl⟩ := List.mem_map.mp ht
      obtain ⟨i', -, heq⟩ := List.mem_map.mp ht'
      have hmod := congrArg (· % a) heq
      simp only [Nat.add_mul_mod_self_right] at hmod
      rw [Nat.mod_eq_of_lt (List.mem_range.mp hj), Nat.mod_eq_of_lt (List.mem_range.mp hj')] at hmod
      exact hne hmod.symm
  · rw [List.mem_range, List.mem_flatMap]
    constructor
    · rintro ⟨j, hj, ht⟩
      obtain ⟨i, hi, rfl⟩ := List.mem_map.mp ht
      rw [List.mem_range] at hj hi
      calc j + i * a < a + i * a := Nat.add_lt_add_right hj _
        _ = (i + 1) * a := by rw [Nat.succ_mul, Nat.add_comm]
        _ ≤ b * a := Nat.mul_le_mul_right a hi
        _ = a * b := Nat.mul_comm b a
    · intro ht
      have ha : 0 < a := Nat.pos_of_mul_pos_right ((Nat.zero_le t).trans_lt ht)
      refine ⟨t % a, List.mem_range.mpr (Nat.mod_lt t ha), List.mem_map.mpr ⟨t / a, ?_, ?_⟩⟩
      · exact List.mem_range.mpr (Nat.div_lt_of_lt_mul ht)
      · rw [Nat.mul_comm]
        exact Nat.mod_add_div t a

/-- **The block and the rows** cover the circle. -/
theorem cover_perm (a b c r : ℕ) :
    (((List.range c).map fun t => (r + t) % (a * b + c)) ++
      (List.range a).flatMap fun j =>
        (List.range b).map fun i => (r + c + j + i * a) % (a * b + c)).Perm
      (List.range (a * b + c)) := by
  have hrows : ((List.range a).flatMap fun j =>
      (List.range b).map fun i => (r + c + j + i * a) % (a * b + c))
        = ((List.range a).flatMap fun j => (List.range b).map fun i => j + i * a).map
          fun t => (r + (c + t)) % (a * b + c) := by
    rw [List.map_flatMap]
    refine List.flatMap_congr fun j _ => ?_
    rw [List.map_map]
    refine List.map_congr_left fun i _ => ?_
    rw [Function.comp_apply, Nat.add_assoc r, Nat.add_assoc r, Nat.add_assoc c]
  have hall : (List.range (a * b + c)).map (fun t => (r + t) % (a * b + c))
      = (List.range c).map (fun t => (r + t) % (a * b + c)) ++
        (List.range (a * b)).map fun t => (r + (c + t)) % (a * b + c) := by
    have hrange : List.range (a * b + c) = List.range c ++ (List.range (a * b)).map (c + ·) := by
      rw [Nat.add_comm, List.range_add]
    rw [hrange, List.map_append, List.map_map]
    rfl
  rw [hrows]
  refine List.Perm.trans ?_ (rotate_perm (a * b + c) r)
  rw [hall]
  exact ((grid_perm a b).map _).append_left _

end CyclicCover
