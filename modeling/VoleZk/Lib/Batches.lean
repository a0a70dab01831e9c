import VoleZk.Lib.Runs

/-!
# A buffer that is checked when it is full

Entries come one by one.  Before an entry is stored a full buffer is checked and emptied, and at the
end the buffer is checked if it holds anything.  The entry that finds the buffer full is not part of
that check: it starts the next batch.

## What is here

* `Batches.push`, `Batches.close` — storing an entry, and the end;
* `Batches.cut`, `Batches.cut_flatten`, `Batches.cut_spec` — the batches: **every entry is in one
  batch, in order, and all batches but the last are full**;
* `Batches.run_close` — **a run is the checks of the batches, one after the other.**
-/

set_option autoImplicit false

namespace Batches

variable {α σ : Type*} (cap : ℕ) (check : σ → List α → Option σ)

/-- Store an entry.  A full buffer is checked first. -/
def push (s : σ × List α) (a : α) : Option (σ × List α) :=
  (if cap ≤ s.2.length then (check s.1 s.2).map fun t => (t, []) else some s).map fun s =>
    (s.1, s.2 ++ [a])

/-- At the end a buffer that is not empty is checked. -/
def close (s : σ × List α) : Option σ := if s.2 = [] then some s.1 else check s.1 s.2

/-- The batches that a buffer and the entries to come will be checked in. -/
def cut : List α → List α → List (List α)
  | buf, [] => if buf = [] then [] else [buf]
  | buf, a :: as => if cap ≤ buf.length then buf :: cut [a] as else cut (buf ++ [a]) as

/-- Every entry is in one batch, in order. -/
theorem cut_flatten (buf as : List α) : (cut cap buf as).flatten = buf ++ as := by
  induction as generalizing buf with
  | nil =>
    rw [cut, List.append_nil]
    split
    · rename_i hnil
      rw [hnil, List.flatten_nil]
    · rw [List.flatten_singleton]
  | cons a as ih =>
    rw [cut]
    split
    · rw [List.flatten_cons, ih, List.singleton_append]
    · rw [ih, List.append_assoc, List.singleton_append]

theorem cut_ne_nil {buf : List α} (hbuf : buf ≠ []) (as : List α) : cut cap buf as ≠ [] := by
  induction as generalizing buf with
  | nil =>
    rw [cut, if_neg hbuf]
    exact List.cons_ne_nil _ _
  | cons a as ih =>
    rw [cut]
    split
    · exact List.cons_ne_nil _ _
    · exact ih (List.append_ne_nil_of_right_ne_nil _ (List.cons_ne_nil a []))

/-- **The sizes of the batches**: none is empty or over full, and all but the last are full. -/
theorem cut_spec (hcap : 0 < cap) {buf : List α} (hbuf : buf.length ≤ cap) (as : List α) :
    (∀ b ∈ cut cap buf as, b ≠ [] ∧ b.length ≤ cap) ∧
      ∀ b ∈ (cut cap buf as).dropLast, b.length = cap := by
  induction as generalizing buf with
  | nil =>
    rw [cut]
    split
    · simp
    · rename_i hne
      simpa using ⟨hne, hbuf⟩
  | cons a as ih =>
    rw [cut]
    split
    · rename_i hfull
      have hone : [a].length ≤ cap := hcap
      have hne : buf ≠ [] := fun hnil => by simp [hnil] at hfull; omega
      obtain ⟨hall, hlast⟩ := ih hone
      rw [List.dropLast_cons_of_ne_nil (cut_ne_nil cap (List.cons_ne_nil a []) as)]
      exact ⟨List.forall_mem_cons.mpr ⟨⟨hne, hbuf⟩, hall⟩,
        List.forall_mem_cons.mpr ⟨Nat.le_antisymm hbuf hfull, hlast⟩⟩
    · rename_i hroom
      exact ih (by rw [List.length_append, List.length_singleton]; omega)

variable {cap check}

/-- **A run is the checks of the batches.**  It fails exactly if one of them does. -/
theorem run_close (s : σ) (buf as : List α) :
    (Runs.run (push cap check) (s, buf) as).bind (close check)
      = Runs.run check s (cut cap buf as) := by
  induction as generalizing s buf with
  | nil =>
    rw [Runs.run_nil, Option.bind_some, close, cut]
    split
    · rfl
    · exact (Option.bind_fun_some _).symm
  | cons a as ih =>
    rw [Runs.run, cut, push]
    split
    · cases hcheck : check s buf with
      | none => rw [Runs.run, hcheck]; rfl
      | some t => rw [Runs.run, hcheck]; exact ih t [a]
    · exact ih s (buf ++ [a])

end Batches
