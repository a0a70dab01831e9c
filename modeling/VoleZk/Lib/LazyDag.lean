import Mathlib.Data.Finset.Card
import Mathlib.Data.Finset.Range
import Mathlib.Data.List.Nodup

/-!
# Demand-driven evaluation with an explicit stack

Nodes are numbered, and a store says which nodes are evaluated and what the others wait for.  To
evaluate a node, a stack of nodes that wait for each other grows by the first child that is not
evaluated, until a node has none; that node is evaluated and leaves the stack.

If nodes wait for smaller nodes only, the loop ends: every step pushes a node or evaluates one, and
the nodes on the stack are different and not evaluated.

## What is here

* `run`, the loop, with the number of steps bounded by `fuel`;
* `run_of_stack` — **the invariant of the loop**, and `run_ok` — **a node up to `a` is evaluated in
  `2 * (a + 1)` steps**.
-/

set_option autoImplicit false

open Finset

namespace LazyDag

variable {S : Type*}

/-- The loop.  It fails at a node that is not evaluated and waits for nothing. -/
def run (ready : S → ℕ → Bool) (children : S → ℕ → List ℕ) (eval : S → ℕ → S) :
    ℕ → List ℕ → S → Option S
  | _, [], s => some s
  | 0, _ :: _, _ => none
  | fuel + 1, t :: stack, s =>
    if ready s t then run ready children eval fuel stack s
    else if children s t = [] then none
    else
      match (children s t).find? fun c => !ready s c with
      | some c => run ready children eval fuel (c :: t :: stack) s
      | none => run ready children eval fuel stack (eval s t)

/-- What makes nodes up to `a` evaluable, in stores with the invariant `P`. -/
structure Evaluable (ready : S → ℕ → Bool) (children : S → ℕ → List ℕ) (eval : S → ℕ → S) (a : ℕ)
    (P : S → Prop) : Prop where
  /-- A node that is not evaluated waits for something. -/
  waits : ∀ s, P s → ∀ t ≤ a, ready s t = false → children s t ≠ []
  /-- It waits for smaller nodes. -/
  lt : ∀ s, P s → ∀ t ≤ a, ready s t = false → ∀ c ∈ children s t, c < t
  /-- Once these are evaluated, it can be. -/
  step : ∀ s, P s → ∀ t ≤ a, ready s t = false → (∀ c ∈ children s t, ready s c = true) →
    P (eval s t) ∧ ∀ x, ready (eval s t) x = true ↔ x = t ∨ ready s x = true

/-- The nodes up to `a` that are not evaluated. -/
def unready (ready : S → ℕ → Bool) (a : ℕ) (s : S) : Finset ℕ :=
  (range (a + 1)).filter fun t => ready s t = false

variable {ready : S → ℕ → Bool} {children : S → ℕ → List ℕ} {eval : S → ℕ → S} {a : ℕ}
  {P : S → Prop}

theorem mem_unready {s : S} {t : ℕ} : t ∈ unready ready a s ↔ t ≤ a ∧ ready s t = false := by
  rw [unready, mem_filter, mem_range, Nat.lt_succ_iff]

/-- One node fewer is not evaluated. -/
theorem card_unready_eval {s : S} {t : ℕ} (ht : t ≤ a) (hready : ready s t = false)
    (hstep : ∀ x, ready (eval s t) x = true ↔ x = t ∨ ready s x = true) :
    (unready ready a (eval s t)).card + 1 = (unready ready a s).card := by
  have herase : unready ready a (eval s t) = (unready ready a s).erase t := by
    ext x
    rw [mem_erase, mem_unready, mem_unready, ← Bool.not_eq_true, hstep x, not_or,
      Bool.not_eq_true]
    exact and_left_comm
  rw [herase]
  exact card_erase_add_one (mem_unready.mpr ⟨ht, hready⟩)

/-- **The invariant of the loop.**  The nodes on the stack are different, not evaluated and ever
smaller; there is fuel to push and to evaluate every node that is left. -/
theorem run_of_stack (h : Evaluable ready children eval a P) {fuel : ℕ} {stack : List ℕ} {s : S}
    (hP : P s) (hsorted : stack.Pairwise (· < ·))
    (hstack : ∀ t ∈ stack, t ≤ a ∧ ready s t = false)
    (hfuel : 2 * (unready ready a s).card ≤ fuel + stack.length) :
    ∃ s', run ready children eval fuel stack s = some s' ∧ P s' ∧
      (∀ t ∈ stack, ready s' t = true) ∧ ∀ x, ready s x = true → ready s' x = true := by
  induction fuel generalizing stack s with
  | zero =>
    cases stack with
    | nil => exact ⟨s, rfl, hP, fun t ht => absurd ht List.not_mem_nil, fun _ hx => hx⟩
    | cons t stack =>
      -- the stack is no longer than what is not evaluated
      have hsub : (t :: stack).toFinset ⊆ unready ready a s := fun x hx =>
        mem_unready.mpr (hstack x (List.mem_toFinset.mp hx))
      have hcard := card_le_card hsub
      rw [List.toFinset_card_of_nodup (hsorted.imp Nat.ne_of_lt)] at hcard
      rw [List.length_cons] at hcard hfuel
      omega
  | succ fuel ih =>
    cases stack with
    | nil => exact ⟨s, rfl, hP, fun t ht => absurd ht List.not_mem_nil, fun _ hx => hx⟩
    | cons t stack =>
      obtain ⟨ht, hready⟩ := hstack t List.mem_cons_self
      obtain ⟨hlt, hrest⟩ := List.pairwise_cons.mp hsorted
      rw [run, if_neg (by rw [hready]; decide), if_neg (h.waits s hP t ht hready)]
      cases hfind : (children s t).find? fun c => !ready s c with
      | some c =>
        have hc := h.lt s hP t ht hready c (List.mem_of_find?_eq_some hfind)
        have hcready : ready s c = false := by simpa using List.find?_some hfind
        have hsorted' : (c :: t :: stack).Pairwise (· < ·) :=
          List.pairwise_cons.mpr ⟨fun x hx => by
            rcases List.mem_cons.mp hx with rfl | hx
            · exact hc
            · exact hc.trans (hlt x hx), hsorted⟩
        obtain ⟨s', hrun, hP', hall, hmono⟩ := ih hP hsorted'
          (fun x hx => by
            rcases List.mem_cons.mp hx with rfl | hx
            · exact ⟨hc.le.trans ht, hcready⟩
            · exact hstack x hx)
          (by
            rw [List.length_cons]
            omega)
        exact ⟨s', hrun, hP', fun x hx => hall x (List.mem_cons_of_mem c hx), hmono⟩
      | none =>
        have hchildren : ∀ c ∈ children s t, ready s c = true := fun c hc => by
          simpa using List.find?_eq_none.mp hfind c hc
        obtain ⟨hPt, hstep⟩ := h.step s hP t ht hready hchildren
        have hcard := card_unready_eval ht hready hstep
        obtain ⟨s', hrun, hP', hall, hmono⟩ := ih hPt hrest
          (fun x hx => by
            obtain ⟨hxa, hxready⟩ := hstack x (List.mem_cons_of_mem t hx)
            refine ⟨hxa, ?_⟩
            rw [← Bool.not_eq_true, hstep x, not_or, Bool.not_eq_true]
            exact ⟨(hlt x hx).ne', hxready⟩)
          (by
            rw [List.length_cons] at hfuel
            omega)
        refine ⟨s', hrun, hP', fun x hx => ?_, fun x hx => hmono x ((hstep x).mpr (Or.inr hx))⟩
        rcases List.mem_cons.mp hx with rfl | hx
        · exact hmono x ((hstep x).mpr (Or.inl rfl))
        · exact hall x hx

/-- **A node is evaluated.** -/
theorem run_ok (h : Evaluable ready children eval a P) {s : S} (hP : P s)
    (hready : ready s a = false) :
    ∃ s', run ready children eval (2 * (a + 1)) [a] s = some s' ∧ P s' ∧ ready s' a = true ∧
      ∀ x, ready s x = true → ready s' x = true := by
  have hcard : (unready ready a s).card ≤ a + 1 := (card_filter_le _ _).trans (card_range _).le
  have hfuel : 2 * (unready ready a s).card ≤ 2 * (a + 1) + [a].length := by
    rw [List.length_singleton]
    omega
  obtain ⟨s', hrun, hP', hall, hmono⟩ := run_of_stack h hP (List.pairwise_singleton _ a)
    (fun t ht => by
      rw [List.mem_singleton.mp ht]
      exact ⟨le_rfl, hready⟩) hfuel
  exact ⟨s', hrun, hP', hall a (List.mem_singleton.mpr rfl), hmono⟩

end LazyDag
