import Mathlib.Data.Option.Basic
import Mathlib.Data.List.Basic
import Mathlib.Data.List.Forall2

/-!
# Runs of a machine

A machine is a partial step function: `step s a = none` says that the action `a` is not possible
in state `s`.  A run is a list of actions, all possible in turn.

## What is here

* `Runs.run`, and `Runs.run_append`;
* `Runs.AllSteps` — every step of a run meets a condition on the state before it;
* `Runs.invariant` — **an invariant that the steps meeting the condition preserve holds at the
  end of every run of such steps**;
* `Runs.forall_mem_of_run` — what holds of the actions of a run;
* `Runs.measure_add_length_le`, `Runs.exists_run_to_end` — **a machine that is never stuck, and
  whose steps use up a bounded measure, comes to its end**;
* `Runs.rel_bind`, `Runs.rel_map`, `Runs.mapM_getElem?_rel` — partial computations on related data;
* `Runs.run_flatMap` — a machine that takes several steps of another at a time;
* `Runs.feed`, `Runs.collect`, `Runs.run_feed` — a machine that feeds another;
* `Runs.run_counted` — a run that only checks;
* `Runs.run_rel` — **two machines whose steps stay related stay related over every run**;
* `Runs.run_sim` — **a machine that can follow each step of another can follow its runs.**
-/

set_option autoImplicit false

namespace Runs

variable {σ α : Type*} (step : σ → α → Option σ)

/-- Run a list of actions. -/
def run : σ → List α → Option σ
  | s, [] => some s
  | s, a :: as => (step s a).bind fun s' => run s' as

/-- Every step of the run meets `ok` in the state it starts from. -/
def AllSteps (ok : σ → α → Prop) : σ → List α → Prop
  | _, [] => True
  | s, a :: as => ok s a ∧ ∀ s', step s a = some s' → AllSteps ok s' as

variable {step}

@[simp] theorem run_nil (s : σ) : run step s [] = some s := rfl

theorem run_cons_of_step {s s' : σ} {a : α} (h : step s a = some s') (as : List α) :
    run step s (a :: as) = run step s' as := by
  rw [run, h, Option.bind_some]

theorem run_cons_eq_some {s s'' : σ} {a : α} {as : List α} :
    run step s (a :: as) = some s'' ↔ ∃ s', step s a = some s' ∧ run step s' as = some s'' :=
  Option.bind_eq_some_iff

theorem run_append_bind (s : σ) (as bs : List α) :
    run step s (as ++ bs) = (run step s as).bind fun s' => run step s' bs := by
  induction as generalizing s with
  | nil => rfl
  | cons a as ih =>
    rw [List.cons_append, run, run, Option.bind_assoc]
    exact congrArg (Option.bind _) (funext ih)

theorem run_append {s s' : σ} {as : List α} (bs : List α) (h : run step s as = some s') :
    run step s (as ++ bs) = run step s' bs := by
  rw [run_append_bind, h, Option.bind_some]

theorem allSteps_cons_of_step {ok : σ → α → Prop} {s s' : σ} {a : α} (h : step s a = some s')
    (as : List α) : AllSteps step ok s (a :: as) ↔ ok s a ∧ AllSteps step ok s' as := by
  rw [AllSteps, h]
  exact and_congr_right fun _ =>
    ⟨fun hall => hall s' rfl, fun hs t ht => Option.some_inj.mp ht ▸ hs⟩

theorem allSteps_cons_of_none {ok : σ → α → Prop} {s : σ} {a : α} (h : step s a = none)
    (as : List α) : AllSteps step ok s (a :: as) ↔ ok s a := by
  rw [AllSteps, h]
  exact and_iff_left fun t ht => (nomatch ht)

instance AllSteps.decidable {ok : σ → α → Prop} [∀ s a, Decidable (ok s a)] :
    ∀ (s : σ) (as : List α), Decidable (AllSteps step ok s as)
  | _, [] => isTrue trivial
  | s, a :: as =>
    match h : step s a with
    | none => decidable_of_iff _ (allSteps_cons_of_none h as).symm
    | some s' =>
      have : Decidable (AllSteps step ok s' as) := AllSteps.decidable s' as
      decidable_of_iff _ (allSteps_cons_of_step h as).symm

/-- **The induction over a run**, with a condition on its steps. -/
theorem invariant {ok : σ → α → Prop} {Inv : σ → Prop}
    (hstep : ∀ {s s' : σ} {a : α}, Inv s → ok s a → step s a = some s' → Inv s') {as : List α} :
    ∀ {s s' : σ}, Inv s → AllSteps step ok s as → run step s as = some s' → Inv s' := by
  induction as with
  | nil =>
    intro s s' hs _ h
    rw [run_nil, Option.some_inj] at h
    exact h ▸ hs
  | cons a as ih =>
    intro s s' hs hall h
    obtain ⟨s₁, hs₁, hrun⟩ := run_cons_eq_some.mp h
    exact ih (hstep hs hall.1 hs₁) (hall.2 s₁ hs₁) hrun

/-- The induction over a run of arbitrary steps. -/
theorem invariant_of_run {Inv : σ → Prop}
    (hstep : ∀ {s s' : σ} {a : α}, Inv s → step s a = some s' → Inv s') {as : List α} :
    ∀ {s s' : σ}, Inv s → run step s as = some s' → Inv s' := by
  induction as with
  | nil =>
    intro s s' hs h
    rw [run_nil, Option.some_inj] at h
    exact h ▸ hs
  | cons a as ih =>
    intro s s' hs h
    obtain ⟨s₁, hs₁, hrun⟩ := run_cons_eq_some.mp h
    exact ih (hstep hs hs₁) hrun

section Measure

variable {Inv : σ → Prop} {μ : σ → ℕ}
  (hstep : ∀ {s s' : σ} {a : α}, Inv s → step s a = some s' → Inv s' ∧ μ s < μ s')
include hstep

/-- A measure that grows with every step bounds the length of a run. -/
theorem measure_add_length_le {as : List α} :
    ∀ {s s' : σ}, Inv s → run step s as = some s' → μ s + as.length ≤ μ s' := by
  induction as with
  | nil =>
    intro s s' _ h
    rw [run_nil, Option.some_inj] at h
    exact h ▸ Nat.le_refl _
  | cons a as ih =>
    intro s s' hs h
    obtain ⟨s₁, hs₁, hrun⟩ := run_cons_eq_some.mp h
    obtain ⟨hinv, hlt⟩ := hstep hs hs₁
    have hle := ih hinv hrun
    rw [List.length_cons]
    omega

/-- **Every state leads to the end**, if there is always a step until then and the measure is
bounded.  The induction is on what is left of the measure. -/
theorem exists_run_to_end {Done : σ → Prop} {bound : ℕ} (hbound : ∀ {s : σ}, Inv s → μ s ≤ bound)
    (hprogress : ∀ {s : σ}, Inv s → ¬Done s → ∃ a s', step s a = some s') {s : σ} (hs : Inv s) :
    ∃ as s', run step s as = some s' ∧ Done s' := by
  by_cases hdone : Done s
  · exact ⟨[], s, rfl, hdone⟩
  · obtain ⟨a, s₁, hs₁⟩ := hprogress hs hdone
    obtain ⟨hinv, hlt⟩ := hstep hs hs₁
    have hle := hbound hinv
    obtain ⟨as, s', hrun, hend⟩ := exists_run_to_end hbound hprogress hinv
    exact ⟨a :: as, s', run_cons_eq_some.mpr ⟨s₁, hs₁, hrun⟩, hend⟩
termination_by bound - μ s

end Measure

/-- What holds of every possible action holds of the actions of a run. -/
theorem forall_mem_of_run {P : α → Prop}
    (hstep : ∀ {s s' : σ} {a : α}, step s a = some s' → P a) {as : List α} :
    ∀ {s s' : σ}, run step s as = some s' → ∀ a ∈ as, P a := by
  induction as with
  | nil => simp
  | cons a as ih =>
    intro s s' h b hb
    obtain ⟨s₁, hs₁, hrun⟩ := run_cons_eq_some.mp h
    rcases List.mem_cons.mp hb with rfl | hmem
    · exact hstep hs₁
    · exact ih hrun b hmem

/-! ## Two machines in lockstep -/

theorem rel_bind {τ β γ : Type*} {R : σ → τ → Prop} {Q : β → γ → Prop} {x : Option σ}
    {y : Option τ} {f : σ → Option β} {g : τ → Option γ} (hxy : Option.Rel R x y)
    (hfg : ∀ s t, R s t → Option.Rel Q (f s) (g t)) : Option.Rel Q (x.bind f) (y.bind g) := by
  cases hxy with
  | none => exact Option.Rel.none
  | some h => exact hfg _ _ h

theorem rel_map {τ β γ : Type*} {R : σ → τ → Prop} {Q : β → γ → Prop} {x : Option σ}
    {y : Option τ} {f : σ → β} {g : τ → γ} (hxy : Option.Rel R x y)
    (hfg : ∀ s t, R s t → Q (f s) (g t)) : Option.Rel Q (x.map f) (y.map g) := by
  cases hxy with
  | none => exact Option.Rel.none
  | some h => exact Option.Rel.some (hfg _ _ h)

theorem getElem?_rel {τ : Type*} {R : σ → τ → Prop} {xs : List σ} {ys : List τ}
    (h : List.Forall₂ R xs ys) (i : ℕ) : Option.Rel R xs[i]? ys[i]? := by
  induction h generalizing i with
  | nil => exact Option.Rel.none
  | cons hxy _ ih =>
    cases i with
    | zero => exact Option.Rel.some hxy
    | succ i => exact ih i

/-- A partial map of a list has a result for each entry. -/
theorem length_mapM {τ : Type*} {f : σ → Option τ} {xs : List σ} {ys : List τ}
    (h : xs.mapM f = some ys) : ys.length = xs.length := by
  induction xs generalizing ys with
  | nil =>
    cases h
    rfl
  | cons x xs ih =>
    rw [List.mapM_cons] at h
    obtain ⟨y, -, h⟩ := Option.bind_eq_some_iff.mp h
    obtain ⟨ys, hys, h⟩ := Option.bind_eq_some_iff.mp h
    cases h
    rw [List.length_cons, List.length_cons, ih hys]

/-- Looking up several positions in related lists. -/
theorem mapM_getElem?_rel {τ : Type*} {R : σ → τ → Prop} {xs : List σ} {ys : List τ}
    (h : List.Forall₂ R xs ys) (is : List ℕ) :
    Option.Rel (List.Forall₂ R) (is.mapM fun i => xs[i]?) (is.mapM fun i => ys[i]?) := by
  induction is with
  | nil => exact Option.Rel.some List.Forall₂.nil
  | cons i is ih =>
    rw [List.mapM_cons, List.mapM_cons]
    exact rel_bind (getElem?_rel h i) fun a x ha =>
      rel_bind ih fun as xs has => Option.Rel.some (List.Forall₂.cons ha has)

/-- Looking up several positions in a mapped list. -/
theorem mapM_getElem?_map {τ : Type*} (f : σ → τ) (xs : List σ) (is : List ℕ) :
    (is.mapM fun i => (xs.map f)[i]?) = (is.mapM fun i => xs[i]?).map (List.map f) := by
  induction is with
  | nil => rfl
  | cons i is ih =>
    rw [List.mapM_cons, List.mapM_cons, ih, List.getElem?_map]
    cases xs[i]? with
    | none => rfl
    | some x => cases is.mapM fun i => xs[i]? <;> rfl

/-- Pairing up the entries of related lists. -/
theorem zip_rel {τ σ' τ' : Type*} {R : σ → τ → Prop} {R' : σ' → τ' → Prop} {xs : List σ}
    {ys : List τ} {xs' : List σ'} {ys' : List τ'} (h : List.Forall₂ R xs ys)
    (h' : List.Forall₂ R' xs' ys') :
    List.Forall₂ (fun x y => R x.1 y.1 ∧ R' x.2 y.2) (xs.zip xs') (ys.zip ys') := by
  induction h generalizing xs' ys' with
  | nil => exact List.Forall₂.nil
  | cons ha _ ih =>
    cases h' with
    | nil => exact List.Forall₂.nil
    | cons hb hbs => exact List.Forall₂.cons ⟨ha, hb⟩ (ih hbs)

/-- A machine that takes the steps of another: `g` embeds the states, `f` the actions. -/
theorem run_map {τ γ : Type*} {step' : τ → γ → Option τ} {g : σ → τ} {f : α → γ}
    (hstep : ∀ s a, step' (g s) (f a) = (step s a).map g) (s : σ) (as : List α) :
    run step' (g s) (as.map f) = (run step s as).map g := by
  induction as generalizing s with
  | nil => rfl
  | cons a as ih =>
    rw [List.map_cons, run, hstep, run]
    cases step s a with
    | none => rfl
    | some t => exact ih t

/-- **A machine that takes several steps of another at a time.**  `g` embeds the states, and an
action `f b` is the run of `l b`. -/
theorem run_flatMap {τ β γ : Type*} {step' : τ → γ → Option τ} {g : σ → τ} {f : β → γ}
    {l : β → List α} (hstep : ∀ s b, step' (g s) (f b) = (run step s (l b)).map g) (s : σ)
    (bs : List β) : run step' (g s) (bs.map f) = (run step s (bs.flatMap l)).map g := by
  induction bs generalizing s with
  | nil => rfl
  | cons b bs ih =>
    rw [List.map_cons, run, hstep, List.flatMap_cons, run_append_bind]
    cases run step s (l b) with
    | none => rfl
    | some t => exact ih t

/-! ## A machine that feeds another -/

section Feed

variable {τ β : Type*} (emit : σ → α → Option (σ × List β)) (push : τ → β → Option τ)

/-- A step of the first machine, and steps of the second for the items it puts out. -/
def feed (x : σ × τ) (a : α) : Option (σ × τ) :=
  (emit x.1 a).bind fun y => (run push x.2 y.2).map fun t => (y.1, t)

/-- The first machine alone: its items are put aside. -/
def collect (x : σ × List β) (a : α) : Option (σ × List β) :=
  (emit x.1 a).map fun y => (y.1, x.2 ++ y.2)

variable {emit push}

theorem run_collect (s : σ) (out : List β) (as : List α) :
    run (collect emit) (s, out) as
      = (run (collect emit) (s, []) as).map fun y => (y.1, out ++ y.2) := by
  induction as generalizing s out with
  | nil => simp
  | cons a as ih =>
    rw [run, run, collect, collect]
    cases emit s a with
    | none => rfl
    | some y =>
      rw [Option.map_some, Option.map_some, Option.bind_some, Option.bind_some, ih,
        ih y.1 ([] ++ y.2), Option.map_map]
      simp [Function.comp_def]

/-- **The items may be taken in after the run.** -/
theorem run_feed (s : σ) (t : τ) (as : List α) :
    run (feed emit push) (s, t) as
      = (run (collect emit) (s, []) as).bind fun y => (run push t y.2).map fun t => (y.1, t) := by
  induction as generalizing s t with
  | nil => rfl
  | cons a as ih =>
    rw [run, run, collect, feed]
    cases emit s a with
    | none => rfl
    | some y =>
      rw [Option.bind_some, Option.map_some, Option.bind_some, run_collect, List.nil_append]
      cases hpush : run push t y.2 with
      | none => cases run (collect emit) (y.1, []) as <;> simp [run_append_bind, hpush]
      | some t' =>
        rw [Option.map_some, Option.bind_some, ih]
        cases run (collect emit) (y.1, []) as <;> simp [run_append_bind, hpush]

end Feed

/-- **A run that only checks**, step after step, goes through if all checks do. -/
theorem run_counted {pass : ℕ → α → Prop} [∀ k a, Decidable (pass k a)] (k : ℕ) (as : List α) :
    (run (fun k a => if pass k a then some (k + 1) else none) k as).isSome
      ↔ ∀ i a, as[i]? = some a → pass (k + i) a := by
  induction as generalizing k with
  | nil => simp
  | cons a as ih =>
    have hsplit : (∀ i b, (a :: as)[i]? = some b → pass (k + i) b)
        ↔ pass k a ∧ ∀ i b, as[i]? = some b → pass (k + 1 + i) b := by
      constructor
      · exact fun h => ⟨h 0 a rfl, fun i b hb => by
          rw [Nat.add_assoc, Nat.add_comm 1]
          exact h (i + 1) b hb⟩
      · rintro ⟨hone, hrest⟩ (_ | i) b hb
        · exact Option.some.inj hb ▸ hone
        · rw [← Nat.add_assoc, Nat.add_right_comm]
          exact hrest i b hb
    rw [run, hsplit]
    by_cases hpass : pass k a
    · rw [if_pos hpass, Option.bind_some, ih, and_iff_right hpass]
    · rw [if_neg hpass]
      simp [hpass]

/-- **The induction over a run of two machines**: if one step takes related states to related
states, or fails on both sides, then so does a run. -/
theorem run_rel {τ : Type*} {spec : τ → α → Option τ} {R : σ → τ → Prop} {ok : α → Prop}
    (hstep : ∀ s t a, ok a → R s t → Option.Rel R (step s a) (spec t a)) {as : List α} :
    ∀ {s : σ} {t : τ}, (∀ a ∈ as, ok a) → R s t →
      Option.Rel R (run step s as) (run spec t as) := by
  induction as with
  | nil => exact fun _ h => Option.Rel.some h
  | cons a as ih =>
    intro s t hok h
    rw [List.forall_mem_cons] at hok
    exact rel_bind (hstep s t a hok.1 h) fun s' t' h' => ih hok.2 h'

/-- The induction over a run of a machine that another follows: where the other takes a step, the
machine can take it too. -/
theorem run_sim {τ : Type*} {spec : τ → α → Option τ} {R : σ → τ → Prop}
    (hstep : ∀ s t t' a, R s t → spec t a = some t' → ∃ s', step s a = some s' ∧ R s' t')
    {as : List α} :
    ∀ {s : σ} {t t' : τ}, R s t → run spec t as = some t' →
      ∃ s', run step s as = some s' ∧ R s' t' := by
  induction as with
  | nil =>
    intro s t t' h hrun
    rw [run_nil, Option.some_inj] at hrun
    exact ⟨s, rfl, hrun ▸ h⟩
  | cons a as ih =>
    intro s t t' h hrun
    obtain ⟨t₁, ht₁, hrun'⟩ := run_cons_eq_some.mp hrun
    obtain ⟨s₁, hs₁, h₁⟩ := hstep s t t₁ a h ht₁
    obtain ⟨s', hs', h'⟩ := ih h₁ hrun'
    exact ⟨s', run_cons_eq_some.mpr ⟨s₁, hs₁, hs'⟩, h'⟩

end Runs
