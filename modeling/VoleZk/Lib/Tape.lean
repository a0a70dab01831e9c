import Mathlib.Data.List.GetD

/-!
# Reading a tape

A tape is a list that is read from the front.  Who has read `l` and reads on finds what comes next.

## What is here

* `Tape.getD_of_append_prefix` — one entry;
* `Tape.map_getD_of_append_prefix` — **what is read is what was written.**
-/

set_option autoImplicit false

namespace Tape

variable {α : Type*} {l m T : List α} (d : α)

theorem getD_of_append_prefix (h : l ++ m <+: T) {i : ℕ} (hi : i < m.length) :
    T.getD (l.length + i) d = m.getD i d := by
  obtain ⟨rest, rfl⟩ := h
  rw [List.append_assoc, List.getD_append_right _ _ _ _ (Nat.le_add_right _ _),
    Nat.add_sub_cancel_left, List.getD_append _ _ _ _ hi]

theorem map_getD_of_append_prefix (h : l ++ m <+: T) {k n : ℕ} (hk : l.length = k)
    (hn : m.length = n) : ((List.range n).map fun i => T.getD (k + i) d) = m := by
  subst hk hn
  refine List.ext_getElem (by simp) fun i hi hi' => ?_
  have hT := getD_of_append_prefix d h hi'
  rw [List.getD_eq_getElem _ _ hi'] at hT
  simp only [List.getElem_map, List.getElem_range]
  exact hT

end Tape
