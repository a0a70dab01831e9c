import VoleZk.Mvzk.Check

/-!
# Soundness of a round of the multiplication check

A fold evaluates, at the challenge, the polynomials through the slices and the polynomial through
the values of `h`.  What is missing between the folded claim and the folded inner product is the
value of one polynomial, the defect, whose values at the base points add up to what was missing
before.  So a wrong claim has a defect that is not 0, whatever the prover shared, and few challenges
hide it.

## What is here

* `CheckState.inner`, the inner product of the entries;
* `foldDefect`, `fold_missing` — **a fold evaluates the defect**, and what the defect is at the
  points;
* `lastDefect`, `lastRound_missing` — the same for the last round;
* `round_sound` — **few challenges make a wrong claim right.**
-/

set_option autoImplicit false

open Finset Polynomial Interpolation

namespace VoleZk.Mvzk

variable {F : Type*} [Field F]

namespace CheckState

/-- The inner product of the entries. -/
def inner (m : ℕ) (st : CheckState F) : F :=
  ∑ p ∈ range (st.lenSlice * m), st.valX p * st.valY p

end CheckState

/-! ## Slices -/

/-- A sum over rows. -/
theorem sum_rows (rows len : ℕ) (f : ℕ → F) :
    ∑ i ∈ range rows, ∑ j ∈ range len, f (i * len + j) = ∑ p ∈ range (len * rows), f p := by
  induction rows with
  | zero => rfl
  | succ rows ih =>
    rw [sum_range_succ, ih, Nat.mul_succ, sum_range_add]
    simp only [mul_comm]

theorem sum_sliceProd (m : ℕ) (st : CheckState F) :
    ∑ i ∈ range m, Prover.sliceProd st i = st.inner m :=
  sum_rows m st.lenSlice fun p => st.valX p * st.valY p

/-- The padded slices hold what was there. -/
theorem le_slices_mul {m : ℕ} (hm : 0 < m) (len : ℕ) : len ≤ (len + m - 1) / m * m := by
  have h := Nat.div_add_mod (len + m - 1) m
  have hlt := Nat.mod_lt (len + m - 1) hm
  rw [mul_comm] at h
  omega

/-! ## A folding round -/

section Fold

variable {comp : Compress F} {st : CheckState F}

/-- The polynomial through the entries of slice position `l`. -/
noncomputable def slicePoly (comp : Compress F) (len : ℕ) (val : ℕ → F) (l : ℕ) : F[X] :=
  interp comp.lagEvalPoints comp.m fun i => val (i * len + l)

/-- The defect of a fold: what is missing between the polynomial through the values of `h` and the
products of the slices. -/
noncomputable def foldDefect (comp : Compress F) (st : CheckState F) (polyH : ℕ → F) : F[X] :=
  interp comp.lagEvalPoints (2 * comp.m - 1) polyH
    - ∑ l ∈ range st.lenSlice,
        slicePoly comp st.lenSlice st.valX l * slicePoly comp st.lenSlice st.valY l

variable (hcomp : comp.Ok)
include hcomp

theorem comp_m_pos : 0 < comp.m := by
  rw [hcomp.m_eq]
  exact Nat.two_pow_pos _

theorem injOn_low : Set.InjOn comp.lagEvalPoints (range comp.m) :=
  hcomp.injOn.mono (by
    have := comp_m_pos hcomp
    simp only [coe_range, Set.Iio_subset_Iio_iff]
    omega)

/-- A folded entry is a value of the polynomial through the slice. -/
theorem fold_entry (val : ℕ → F) (l : ℕ) (r : F) :
    ∑ i ∈ range comp.m, (comp.computeLagCoeff r).1 i • val (i * st.lenSlice + l)
      = (slicePoly comp st.lenSlice val l).eval r := by
  rw [slicePoly, eval_interp]
  refine sum_congr rfl fun i hi => ?_
  rw [hcomp.low i (mem_range.mp hi), smul_eq_mul, mul_comm]

/-- The inner product of a fold: the padding contributes nothing. -/
theorem fold_inner (polyH : ℕ → F) (r : F) :
    (st.fold comp.m polyH (comp.computeLagCoeff r)).inner comp.m
      = ∑ l ∈ range st.lenSlice, (slicePoly comp st.lenSlice st.valX l).eval r
          * (slicePoly comp st.lenSlice st.valY l).eval r := by
  have hsub : range st.lenSlice ⊆ range ((st.lenSlice + comp.m - 1) / comp.m * comp.m) :=
    range_subset_range.mpr (le_slices_mul (comp_m_pos hcomp) _)
  have hpad : ∀ l ∈ range ((st.lenSlice + comp.m - 1) / comp.m * comp.m), l ∉ range st.lenSlice →
      (st.fold comp.m polyH (comp.computeLagCoeff r)).valX l
        * (st.fold comp.m polyH (comp.computeLagCoeff r)).valY l = 0 := fun l _ hl => by
    have hlen : ¬ l < st.lenSlice := fun hlt => hl (mem_range.mpr hlt)
    simp only [CheckState.fold, if_neg hlen, mul_zero]
  rw [CheckState.inner]
  refine (sum_subset hsub hpad).symm.trans (sum_congr rfl fun l hl => ?_)
  rw [← fold_entry hcomp, ← fold_entry hcomp]
  simp only [CheckState.fold, if_pos (mem_range.mp hl)]

/-- **A fold evaluates the defect.** -/
theorem fold_missing (polyH : ℕ → F) (r : F) :
    (st.fold comp.m polyH (comp.computeLagCoeff r)).valZ
        - (st.fold comp.m polyH (comp.computeLagCoeff r)).inner comp.m
      = (foldDefect comp st polyH).eval r := by
  have hz : (st.fold comp.m polyH (comp.computeLagCoeff r)).valZ
      = (interp comp.lagEvalPoints (2 * comp.m - 1) polyH).eval r := by
    rw [eval_interp]
    show ∑ i ∈ range (2 * comp.m - 1), (comp.computeLagCoeff r).2 i • polyH i = _
    refine sum_congr rfl fun i hi => ?_
    rw [hcomp.high i (mem_range.mp hi), smul_eq_mul, mul_comm]
  rw [hz, fold_inner hcomp, foldDefect, eval_sub, eval_finsetSum]
  simp only [eval_mul]

theorem foldDefect_degree_lt (polyH : ℕ → F) :
    (foldDefect comp st polyH).degree < (2 * comp.m - 1 : ℕ) := by
  have hm := comp_m_pos hcomp
  refine (degree_sub_le _ _).trans_lt (max_lt (degree_interp_lt hcomp.injOn _) ?_)
  refine (degree_sum_le _ _).trans_lt ((Finset.sup_lt_iff (WithBot.bot_lt_coe _)).mpr
    fun l _ => ?_)
  rw [two_mul]
  exact degree_mul_lt hm hm (degree_interp_lt (injOn_low hcomp) _)
    (degree_interp_lt (injOn_low hcomp) _)

/-- The defect at a base point. -/
theorem foldDefect_low (polyH : ℕ → F) {i : ℕ} (hi : i < comp.m) :
    (foldDefect comp st polyH).eval (comp.lagEvalPoints i)
      = polyH i - Prover.sliceProd st i := by
  have hnode : ∀ (val : ℕ → F) l,
      (slicePoly comp st.lenSlice val l).eval (comp.lagEvalPoints i) = val (i * st.lenSlice + l) :=
    fun val l => eval_interp_node (injOn_low hcomp) _ hi
  rw [foldDefect, eval_sub, eval_interp_node hcomp.injOn _ (by omega), eval_finsetSum]
  simp only [eval_mul, hnode]
  rfl

/-- The defect at a shifted point. -/
theorem foldDefect_high (polyH : ℕ → F) {j : ℕ} (hj : j + 1 < comp.m) :
    (foldDefect comp st polyH).eval (comp.lagEvalPoints (comp.m + j))
      = polyH (comp.m + j) - ∑ l ∈ range st.lenSlice,
          (slicePoly comp st.lenSlice st.valX l).eval (comp.lagEvalPoints (comp.m + j))
            * (slicePoly comp st.lenSlice st.valY l).eval (comp.lagEvalPoints (comp.m + j)) := by
  rw [foldDefect, eval_sub, eval_interp_node hcomp.injOn _ (by omega), eval_finsetSum]
  simp only [eval_mul]

/-- At the base points, the defect adds up to what is missing, if the values of `h` add up to the
claim. -/
theorem sum_foldDefect {polyH : ℕ → F} (hsum : ∑ i ∈ range comp.m, polyH i = st.valZ) :
    ∑ i ∈ range comp.m, (foldDefect comp st polyH).eval (comp.lagEvalPoints i)
      = st.valZ - st.inner comp.m := by
  rw [← sum_sliceProd, ← hsum, ← sum_sub_distrib]
  exact sum_congr rfl fun i hi => foldDefect_low hcomp polyH (mem_range.mp hi)

end Fold

/-- The values of `h` at the base points add up to the claim, as the verifiers complete them. -/
theorem Verifier.sum_polyH {V : Type*} [AddCommGroup V] {m : ℕ} (hm : 0 < m) (z : V)
    (received : ℕ → V) : ∑ i ∈ range m, Verifier.polyH m z received i = z := by
  obtain ⟨m, rfl⟩ := Nat.exists_eq_succ_of_ne_zero hm.ne'
  rw [sum_range_succ', Verifier.polyH, if_pos rfl]
  simp only [Verifier.polyH, Nat.succ_ne_zero, if_false, Nat.add_sub_cancel, Nat.succ_eq_add_one]
  exact add_sub_cancel _ _

/-! ## The last round -/

section Last

variable {lag : Lagrange F} {st : CheckState F}

/-- The polynomial through the entries of the last round. -/
noncomputable def lastPoly (lag : Lagrange F) (val : ℕ → F) : F[X] :=
  interp Lagrange.evalPoints (lag.n + 1) val

/-- The defect of the last round. -/
noncomputable def lastDefect (lag : Lagrange F) (valX valY polyH : ℕ → F) : F[X] :=
  interp Lagrange.evalPoints (2 * lag.n + 1) polyH - lastPoly lag valX * lastPoly lag valY

variable (hlag : lag.Ok)
include hlag

theorem injOn_last : Set.InjOn (Lagrange.evalPoints : ℕ → F) (range (lag.n + 1)) :=
  hlag.injOn.mono (by
    simp only [coe_range, Set.Iio_subset_Iio_iff]
    omega)

/-- **The last round evaluates its defect.** -/
theorem lastRound_missing (polyH : ℕ → F) (xm ym r : F) :
    (st.lastRound lag.n polyH (lag.computeLagCoeff r) xm ym).z
        - (st.lastRound lag.n polyH (lag.computeLagCoeff r) xm ym).x
          * (st.lastRound lag.n polyH (lag.computeLagCoeff r) xm ym).y
      = (lastDefect lag (CheckState.withEntry lag.n st.valX xm)
          (CheckState.withEntry lag.n st.valY ym) polyH).eval r := by
  have hentry : ∀ val : ℕ → F, ∑ i ∈ range (lag.n + 1), (lag.computeLagCoeff r).1 i • val i
      = (lastPoly lag val).eval r := fun val => by
    rw [lastPoly, eval_interp]
    refine sum_congr rfl fun i hi => ?_
    rw [hlag.low i (mem_range.mp hi), smul_eq_mul, mul_comm]
  have hz : ∑ i ∈ range (2 * lag.n + 1), (lag.computeLagCoeff r).2 i • polyH i
      = (interp Lagrange.evalPoints (2 * lag.n + 1) polyH).eval r := by
    rw [eval_interp]
    refine sum_congr rfl fun i hi => ?_
    rw [hlag.high i (mem_range.mp hi), smul_eq_mul, mul_comm]
  rw [CheckState.lastRound, hentry, hentry, hz, lastDefect, eval_sub, eval_mul]

theorem lastDefect_degree_lt (valX valY polyH : ℕ → F) :
    (lastDefect lag valX valY polyH).degree < (2 * lag.n + 1 : ℕ) := by
  refine (degree_sub_le _ _).trans_lt (max_lt (degree_interp_lt hlag.injOn _) ?_)
  rw [show 2 * lag.n + 1 = lag.n + 1 + (lag.n + 1) - 1 by omega]
  exact degree_mul_lt (Nat.succ_pos _) (Nat.succ_pos _) (degree_interp_lt (injOn_last hlag) _)
    (degree_interp_lt (injOn_last hlag) _)

/-- The defect at the points of the entries. -/
theorem lastDefect_low (valX valY polyH : ℕ → F) {i : ℕ} (hi : i < lag.n + 1) :
    (lastDefect lag valX valY polyH).eval (Lagrange.evalPoints i)
      = polyH i - valX i * valY i := by
  rw [lastDefect, eval_sub, eval_mul, eval_interp_node hlag.injOn _ (by omega), lastPoly, lastPoly,
    eval_interp_node (injOn_last hlag) _ hi, eval_interp_node (injOn_last hlag) _ hi]

/-- The defect at the other points. -/
theorem lastDefect_high (valX valY polyH : ℕ → F) {i : ℕ} (hi : i < lag.n) :
    (lastDefect lag valX valY polyH).eval (Lagrange.evalPoints (i + lag.n + 1))
      = polyH (i + lag.n + 1)
        - lag.lagrangeEvalShiftPoints valX i * lag.lagrangeEvalShiftPoints valY i := by
  have hshift : ∀ val : ℕ → F, (lastPoly lag val).eval (Lagrange.evalPoints (i + lag.n + 1))
      = lag.lagrangeEvalShiftPoints val i := fun val => by
    rw [lastPoly, eval_interp, Lagrange.lagrangeEvalShiftPoints]
    refine sum_congr rfl fun j hj => ?_
    rw [hlag.table i hi j (mem_range.mp hj), mul_comm]
  rw [lastDefect, eval_sub, eval_mul, eval_interp_node hlag.injOn _ (by omega), hshift, hshift]

/-- At the points of the first `m` entries, the defect adds up to what is missing, if the values of
`h` add up to the claim. -/
theorem sum_lastDefect {polyH : ℕ → F} (hsum : ∑ i ∈ range lag.n, polyH i = st.valZ) (xm ym : F) :
    ∑ i ∈ range lag.n, (lastDefect lag (CheckState.withEntry lag.n st.valX xm)
        (CheckState.withEntry lag.n st.valY ym) polyH).eval (Lagrange.evalPoints i)
      = st.valZ - ∑ i ∈ range lag.n, st.valX i * st.valY i := by
  rw [← hsum, ← sum_sub_distrib]
  refine sum_congr rfl fun i hi => ?_
  have hi' := mem_range.mp hi
  rw [lastDefect_low hlag _ _ _ (by omega), CheckState.withEntry, CheckState.withEntry,
    if_neg hi'.ne, if_neg hi'.ne]

end Last

/-! ## Soundness -/

/-- A polynomial whose values at some points do not add up to 0 has few zeros. -/
theorem card_zeros_le [Fintype F] [DecidableEq F] {f : F[X]} {d cnt : ℕ}
    (hdeg : f.degree < (d + 1 : ℕ)) (pts : ℕ → F) (hsum : ∑ i ∈ range cnt, f.eval (pts i) ≠ 0) :
    #{r | f.eval r = 0} ≤ d := by
  refine card_roots_le (fun hzero => hsum ?_) hdeg
  rw [hzero]
  simp

/-- **A round of the check is sound.**  Whatever values the prover shares for `h`, and whatever the
number of slices: if the claim of the verifiers is wrong, at most `2m - 2` challenges make the
folded claim right; and if the claim is wrong at the last round, at most `2m` challenges make the
opened triple right. -/
theorem round_sound {logM : ℕ} {comp : Compress (ZMod P59)} (hcomp : Compress.init logM = some comp)
    (st : CheckState (ZMod P59)) (received : ℕ → ZMod P59) :
    (st.valZ ≠ st.inner comp.m →
      #{r | (st.fold comp.m (Verifier.polyH comp.m st.valZ received)
              (comp.computeLagCoeff r)).valZ
            = (st.fold comp.m (Verifier.polyH comp.m st.valZ received)
              (comp.computeLagCoeff r)).inner comp.m} ≤ 2 * comp.m - 2) ∧
    ∀ lag : Lagrange (ZMod P59), Lagrange.init comp.m = some lag → ∀ xm ym : ZMod P59,
      st.valZ ≠ ∑ i ∈ range comp.m, st.valX i * st.valY i →
      #{r | (st.lastRound comp.m (Verifier.polyH comp.m st.valZ received)
              (lag.computeLagCoeff r) xm ym).z
            = (st.lastRound comp.m (Verifier.polyH comp.m st.valZ received)
                (lag.computeLagCoeff r) xm ym).x
              * (st.lastRound comp.m (Verifier.polyH comp.m st.valZ received)
                (lag.computeLagCoeff r) xm ym).y} ≤ 2 * comp.m := by
  obtain ⟨-, -, hok, -, -⟩ := Compress.init_eq_some hcomp
  have hm := comp_m_pos hok
  have hsum := Verifier.sum_polyH hm st.valZ received
  constructor
  · intro hwrong
    have hzeros : ∀ r, (st.fold comp.m (Verifier.polyH comp.m st.valZ received)
          (comp.computeLagCoeff r)).valZ
        = (st.fold comp.m (Verifier.polyH comp.m st.valZ received)
          (comp.computeLagCoeff r)).inner comp.m
        ↔ (foldDefect comp st (Verifier.polyH comp.m st.valZ received)).eval r = 0 := fun r => by
      rw [← fold_missing hok, sub_eq_zero]
    simp only [hzeros]
    refine card_zeros_le ?_ comp.lagEvalPoints (by
      rw [sum_foldDefect hok hsum]
      exact sub_ne_zero.mpr hwrong)
    rw [show 2 * comp.m - 2 + 1 = 2 * comp.m - 1 by omega]
    exact foldDefect_degree_lt hok _
  · intro lag hlag xm ym hwrong
    obtain ⟨hn, hlagOk⟩ := Lagrange.init_eq_some hlag
    rw [← hn] at hsum hwrong ⊢
    have hzeros : ∀ r, (st.lastRound lag.n (Verifier.polyH lag.n st.valZ received)
          (lag.computeLagCoeff r) xm ym).z
        = (st.lastRound lag.n (Verifier.polyH lag.n st.valZ received)
            (lag.computeLagCoeff r) xm ym).x
          * (st.lastRound lag.n (Verifier.polyH lag.n st.valZ received)
            (lag.computeLagCoeff r) xm ym).y
        ↔ (lastDefect lag (CheckState.withEntry lag.n st.valX xm)
            (CheckState.withEntry lag.n st.valY ym)
            (Verifier.polyH lag.n st.valZ received)).eval r = 0 := fun r => by
      rw [← lastRound_missing hlagOk, sub_eq_zero]
    simp only [hzeros]
    have hne := sub_ne_zero.mpr hwrong
    rw [← sum_lastDefect hlagOk hsum xm ym] at hne
    exact card_zeros_le (lastDefect_degree_lt hlagOk _ _ _) Lagrange.evalPoints hne

/-- The product of `(0, 1)` with itself, claimed to be 2. -/
def wrongClaim : CheckState (ZMod P59) := ⟨1, fun i => i, fun i => i, 2⟩

theorem round_sound_two : ∃ comp, Compress.init 1 = some comp ∧
    #{r | (wrongClaim.fold comp.m (Verifier.polyH comp.m wrongClaim.valZ fun i => i)
            (comp.computeLagCoeff r)).valZ
          = (wrongClaim.fold comp.m (Verifier.polyH comp.m wrongClaim.valZ fun i => i)
            (comp.computeLagCoeff r)).inner comp.m} ≤ 2 * comp.m - 2 := by
  obtain ⟨comp, hcomp⟩ := Compress.init_ok_of_le le_rfl (by decide : 1 ≤ 26)
  refine ⟨comp, hcomp, (round_sound hcomp wrongClaim fun i => i).1 ?_⟩
  have hm : comp.m = 2 := (Compress.init_eq_some hcomp).2.1
  have hinner : wrongClaim.inner comp.m = 1 := by
    rw [hm]
    simp [CheckState.inner, wrongClaim, sum_range_succ]
  rw [hinner]
  show (2 : ZMod 576460752034988033) ≠ 1
  decide

end VoleZk.Mvzk
