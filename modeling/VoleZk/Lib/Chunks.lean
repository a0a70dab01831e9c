import Mathlib.Data.List.Basic
import Mathlib.Data.List.Forall2
import Mathlib.Logic.Function.Iterate

/-!
# Loops over chunks

A list is processed element by element, each step taking what it needs from a state.  A bulk version
of the loop cuts the list into chunks, as long as the state allows, and processes one chunk after
the other.

## What is here

* `Chunks.each` — the loop, with `Chunks.each_append` and `Chunks.each_map`;
* `Chunks.each_flatMap` — calls that are loops over their elements are one loop;
* `Chunks.each_fst`, `Chunks.each_getElem?`, `Chunks.forall₂_each` — its results, when the state
  moves on in the same way whatever the element is;
* `Chunks.bulk_eq_each` — **cutting into chunks changes nothing**, if a chunk is processed as the
  loop does;
* `Chunks.exists_loop` — what every chunk gives, a loop gives that makes room between them.
-/

set_option autoImplicit false

namespace Chunks

variable {σ α β : Type*} {step : σ → α → σ × β}

/-- One element after the other. -/
def each (step : σ → α → σ × β) : σ → List α → σ × List β
  | s, [] => (s, [])
  | s, x :: xs => ((each step (step s x).1 xs).1, (step s x).2 :: (each step (step s x).1 xs).2)

theorem each_append (s : σ) (xs ys : List α) :
    each step s (xs ++ ys) = ((each step (each step s xs).1 ys).1,
      (each step s xs).2 ++ (each step (each step s xs).1 ys).2) := by
  induction xs generalizing s with
  | nil => rfl
  | cons x xs ih => rw [List.cons_append, each, each, ih, List.cons_append]

/-- A loop over the images, whose results are images. -/
theorem each_map {α' β' : Type*} {step' : σ → α' → σ × β'} {f : α' → α} {g : β' → β}
    (h : ∀ s x, step s (f x) = Prod.map id g (step' s x)) (s : σ) (xs : List α') :
    each step s (xs.map f) = Prod.map id (List.map g) (each step' s xs) := by
  induction xs generalizing s with
  | nil => rfl
  | cons x xs ih =>
    rw [List.map_cons, each, h, ih]
    rfl

/-- **Calls that are loops over their elements** are one loop over all elements. -/
theorem each_flatMap {γ : Type*} {call : σ → γ → σ × List β} {elems : γ → List α}
    (h : ∀ s c, call s c = each step s (elems c)) (s : σ) (cs : List γ) :
    each step s (cs.flatMap elems) = ((each call s cs).1, (each call s cs).2.flatten) := by
  induction cs generalizing s with
  | nil => rfl
  | cons c cs ih => rw [List.flatMap_cons, each_append, ih, each, h, List.flatten_cons]

/-! ## A state that moves on by itself -/

section Advance

variable {adv : σ → σ} (hadv : ∀ s x, (step s x).1 = adv s)
include hadv

/-- The state after the loop. -/
theorem each_fst (s : σ) (xs : List α) : (each step s xs).1 = adv^[xs.length] s := by
  induction xs generalizing s with
  | nil => rfl
  | cons x xs ih => rw [each, ih, hadv, List.length_cons, Function.iterate_succ_apply]

/-- **Element `i` is processed in the state `i` steps on.** -/
theorem each_getElem? (s : σ) (xs : List α) (i : ℕ) :
    (each step s xs).2[i]? = xs[i]?.map fun x => (step (adv^[i] s) x).2 := by
  induction xs generalizing s i with
  | nil => rfl
  | cons x xs ih =>
    cases i with
    | zero => rfl
    | succ i =>
      rw [each, List.getElem?_cons_succ, ih, List.getElem?_cons_succ, hadv,
        Function.iterate_succ_apply]

/-- What every step gives, the whole loop gives. -/
theorem forall₂_each {γ : Type*} {S : α → γ → Prop} {R : β → γ → Prop} {s : σ} {xs : List α}
    {zs : List γ} (h : List.Forall₂ S xs zs)
    (hstep : ∀ i < xs.length, ∀ x z, S x z → R (step (adv^[i] s) x).2 z) :
    List.Forall₂ R (each step s xs).2 zs := by
  induction h generalizing s with
  | nil => exact .nil
  | cons hx _ ih =>
    refine .cons (hstep 0 (Nat.succ_pos _) _ _ hx) (ih fun i hi x z hxz => ?_)
    rw [hadv, ← Function.iterate_succ_apply]
    exact hstep (i + 1) (Nat.succ_lt_succ hi) x z hxz

end Advance

/-! ## Chunks -/

/-- **A loop over chunks is the loop over elements**, if every turn takes at least one element and
processes what it takes as the loop does. -/
theorem bulk_eq_each {bulk : σ → List α → σ × List β} {len : σ → ℕ} (hpos : ∀ s, 0 < len s)
    (hnil : ∀ s, bulk s [] = (s, []))
    (hturn : ∀ s xs, xs ≠ [] → bulk s xs =
      ((bulk (each step s (xs.take (min xs.length (len s)))).1
          (xs.drop (min xs.length (len s)))).1,
        (each step s (xs.take (min xs.length (len s)))).2 ++
          (bulk (each step s (xs.take (min xs.length (len s)))).1
            (xs.drop (min xs.length (len s)))).2))
    (s : σ) (xs : List α) : bulk s xs = each step s xs := by
  by_cases h : xs = []
  · rw [h, hnil, each]
  · have hlen : 0 < xs.length := List.length_pos_iff.mpr h
    have htaken : 0 < min xs.length (len s) := Nat.lt_min.mpr ⟨hlen, hpos s⟩
    have hdrop : (xs.drop (min xs.length (len s))).length < xs.length := by
      rw [List.length_drop]
      exact Nat.sub_lt hlen htaken
    rw [hturn s xs h, bulk_eq_each hpos hnil hturn _ (xs.drop (min xs.length (len s))),
      ← each_append, List.take_append_drop]
termination_by xs.length

/-- **A loop that makes room and fills it, again and again**, gets through and keeps what every
chunk keeps.  The induction is on the elements left, a chunk at a time. -/
theorem exists_loop {γ δ : Type*} {loop : σ → List α → Option (σ × List β)} {room : σ → ℕ}
    {ready : σ → Option σ} {chunk : σ → List α → σ × List β} {Inv : σ → Prop} {S : α → γ → Prop}
    {R : β → δ → Prop} {f : γ → δ} (hnil : ∀ s, loop s [] = some (s, []))
    (hready : ∀ s, Inv s → ∃ s', ready s = some s' ∧ Inv s' ∧ 0 < room s')
    (hturn : ∀ s s' xs, xs ≠ [] → ready s = some s' → Inv s' → 0 < room s' →
      loop s xs = (loop (chunk s' (xs.take (min (room s') xs.length))).1
        (xs.drop (min (room s') xs.length))).map fun x =>
          (x.1, (chunk s' (xs.take (min (room s') xs.length))).2 ++ x.2))
    (hchunk : ∀ s xs zs, Inv s → List.Forall₂ S xs zs → xs.length ≤ room s →
      Inv (chunk s xs).1 ∧ List.Forall₂ R (chunk s xs).2 (zs.map f))
    {s : σ} {xs : List α} {zs : List γ} (hs : Inv s) (hxs : List.Forall₂ S xs zs) :
    ∃ s' ys, loop s xs = some (s', ys) ∧ Inv s' ∧ List.Forall₂ R ys (zs.map f) := by
  by_cases hempty : xs = []
  · subst hempty
    cases hxs
    exact ⟨s, [], hnil s, hs, .nil⟩
  · obtain ⟨s₁, hs₁, h₁, hroom⟩ := hready s hs
    have hpos := List.length_pos_of_ne_nil hempty
    have hturn₁ := hturn s s₁ xs hempty hs₁ h₁ hroom
    generalize htake : min (room s₁) xs.length = take at hturn₁
    have hdrop : (xs.drop take).length < xs.length := by
      rw [List.length_drop]
      omega
    obtain ⟨h₂, hout⟩ := hchunk s₁ _ _ h₁ (List.forall₂_take take hxs) (by
      rw [List.length_take]
      omega)
    obtain ⟨s₃, rest, hloop, h₃, hrest⟩ :=
      exists_loop hnil hready hturn hchunk h₂ (List.forall₂_drop take hxs)
    rw [hloop, Option.map_some] at hturn₁
    refine ⟨s₃, _, hturn₁, h₃, ?_⟩
    rw [← List.take_append_drop take zs, List.map_append]
    exact List.rel_append hout hrest
termination_by xs.length

end Chunks
