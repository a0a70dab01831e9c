import VoleZk.Mvzk.CheckRoot

/-!
# Completeness of the multiplication check

If every recorded triple is right then the claim of the combined arrays is right, and the prover's
values of `h` leave no defect: at the base points by how they are computed, at the shifted points
because the extension of the slices evaluates the polynomials through them.  For this the root of
unity has to be right, `w ^ m = -1`.  It is for every width up to `2 ^ 26`; the field has no root
for a width of `2 ^ 28`, and the extension then returns other values.

## What is here

* `CheckState.Right`, and that a fold keeps it;
* `openAndCheck_accepts` — the opening of a shared triple that is right;
* `check_complete` — **prover and verifiers agree through the whole check, and an honest run is
  accepted.**
-/

set_option autoImplicit false

open Finset Polynomial Interpolation

namespace VoleZk.Mvzk

variable {F : Type*} [Field F]

/-! ## Right claims -/

/-- The claimed value is the inner product. -/
def CheckState.Right (m : ℕ) (st : CheckState F) : Prop := st.valZ = st.inner m

/-- Triples that are right give a claim that is right: the padding contributes nothing. -/
theorem CheckState.combine_right {m cnt : ℕ} (hm : 0 < m) {triples : ℕ → Triple F}
    (h : ∀ j < cnt, (triples j).z = (triples j).x * (triples j).y) (chi : ℕ → F) :
    (combine m cnt (fun j => (triples j).x) (fun j => (triples j).y) (fun j => (triples j).z)
      chi).Right m := by
  have hsub : range cnt ⊆ range ((cnt + m - 1) / m * m) :=
    range_subset_range.mpr (le_slices_mul hm cnt)
  show ∑ i ∈ range cnt, chi i • (triples i).z = ∑ p ∈ range ((cnt + m - 1) / m * m),
    (if p < cnt then chi p • (triples p).x else 0) * (if p < cnt then (triples p).y else 0)
  rw [← sum_subset hsub fun p _ hp => by
    rw [if_neg fun hlt => hp (mem_range.mpr hlt), zero_mul]]
  refine sum_congr rfl fun p hp => ?_
  rw [if_pos (mem_range.mp hp), if_pos (mem_range.mp hp), h p (mem_range.mp hp), smul_eq_mul,
    smul_eq_mul, mul_assoc]

section Fold

variable {comp : Compress F} {st : CheckState F} (hcomp : comp.Ok)
include hcomp

/-- **The extension of a slice evaluates the polynomial through it**, if the root is right. -/
theorem slicePoly_high (hroot : comp.poly.unityRoot2N ^ comp.m = -1) (val : ℕ → F) (l : ℕ) {j : ℕ}
    (hj : j < comp.m) :
    (slicePoly comp st.lenSlice val l).eval (comp.lagEvalPoints (comp.m + j))
      = comp.poly.nttEvalN2N (fun i => val (l + i * st.lenSlice)) j := by
  have hn := hcomp.m_eq
  have hdeg : (slicePoly comp st.lenSlice val l).degree < comp.poly.n :=
    hn ▸ degree_interp_lt (injOn_low hcomp) _
  rw [Poly.nttEvalN2N_eq hcomp.poly (hn ▸ hroot) hdeg (fun i hi => ?_) (hn ▸ hj),
    Compress.lagEvalPoints_high]
  rw [← hn] at hi
  rw [← Compress.lagEvalPoints_low hi, slicePoly, eval_interp_node (injOn_low hcomp) _ hi,
    Nat.add_comm]

/-- A right claim has no defect. -/
theorem foldDefect_eq_zero (hroot : comp.poly.unityRoot2N ^ comp.m = -1)
    (hright : st.Right comp.m) : foldDefect comp st (Prover.polyH comp st) = 0 := by
  have hm := comp_m_pos hcomp
  refine eq_zero_of_eval_eq_zero hcomp.injOn (foldDefect_degree_lt hcomp _) fun i hi => ?_
  rcases Nat.lt_or_ge i comp.m with hlow | hhigh
  · rw [foldDefect_low hcomp _ hlow]
    rcases Nat.lt_or_ge (i + 1) comp.m with hbase | hlast
    · rw [Prover.polyH, if_pos hbase, sub_self]
    · -- the last base point completes the claim
      have hcnt : comp.m = i + 1 := by omega
      have hsum := sum_sliceProd comp.m st
      rw [hcnt, sum_range_succ, ← hcnt, ← hright] at hsum
      rw [Prover.polyH, if_neg (by omega), if_pos hcnt.symm, ← hsum, hcnt, Nat.add_sub_cancel,
        add_sub_cancel_left, sub_self]
  · obtain ⟨j, rfl⟩ := Nat.exists_eq_add_of_le hhigh
    rw [foldDefect_high hcomp _ (by omega), Prover.polyH, if_neg (by omega), if_neg (by omega),
      Nat.add_sub_cancel_left]
    simp only [slicePoly_high hcomp hroot _ _ (show j < comp.m by omega), sub_self]

/-- **A fold keeps a right claim right**, whatever the challenge. -/
theorem fold_right (hroot : comp.poly.unityRoot2N ^ comp.m = -1) (hright : st.Right comp.m)
    (r : F) :
    (st.fold comp.m (Prover.polyH comp st) (comp.computeLagCoeff r)).Right comp.m := by
  have hmissing : (st.fold comp.m (Prover.polyH comp st) (comp.computeLagCoeff r)).valZ - _
      = (foldDefect comp st (Prover.polyH comp st)).eval r := fold_missing hcomp _ r
  rw [foldDefect_eq_zero hcomp hroot hright, eval_zero] at hmissing
  exact sub_eq_zero.mp hmissing

end Fold

/-! ## The last round -/

section Last

variable {lag : Lagrange F} {st : CheckState F}

theorem lastDefect_eq_zero (hlag : lag.Ok) {valX valY : ℕ → F} {valZ : F}
    (hright : valZ = ∑ i ∈ range lag.n, valX i * valY i) :
    lastDefect lag valX valY (Prover.lastPolyH lag lag.n valX valY valZ) = 0 := by
  refine eq_zero_of_eval_eq_zero hlag.injOn (lastDefect_degree_lt hlag _ _ _) fun i hi => ?_
  rcases Nat.lt_or_ge i (lag.n + 1) with hlow | hhigh
  · rw [lastDefect_low hlag _ _ _ hlow]
    rcases Nat.lt_trichotomy (i + 1) lag.n with hbase | hlast | hmask
    · rw [Prover.lastPolyH, if_pos hbase, sub_self]
    · rw [← hlast, sum_range_succ] at hright
      rw [Prover.lastPolyH, if_neg hlast.not_lt, if_pos hlast, ← hlast, Nat.add_sub_cancel, hright,
        add_sub_cancel_left, sub_self]
    · have hi' : i = lag.n := by omega
      rw [Prover.lastPolyH, if_neg (by omega), if_neg (by omega), if_pos hi', hi', sub_self]
  · obtain ⟨j, rfl⟩ := Nat.exists_eq_add_of_le' hhigh
    rw [← Nat.add_assoc, lastDefect_high hlag _ _ _ (by omega), Prover.lastPolyH,
      if_neg (by omega), if_neg (by omega), if_neg (by omega),
      show j + lag.n + 1 - lag.n - 1 = j by omega, sub_self]

/-- **The last round turns a right claim into a right triple.** -/
theorem lastRound_right (hlag : lag.Ok)
    (hright : st.valZ = ∑ i ∈ range lag.n, st.valX i * st.valY i) (xm ym r : F)
    {t : Triple F} (ht : t = st.lastRound lag.n
      (Prover.lastPolyH lag lag.n (CheckState.withEntry lag.n st.valX xm)
        (CheckState.withEntry lag.n st.valY ym) st.valZ) (lag.computeLagCoeff r) xm ym) :
    t.z = t.x * t.y := by
  have hentries : st.valZ = ∑ i ∈ range lag.n,
      CheckState.withEntry lag.n st.valX xm i * CheckState.withEntry lag.n st.valY ym i := by
    rw [hright]
    refine sum_congr rfl fun i hi => ?_
    rw [CheckState.withEntry, CheckState.withEntry, if_neg (mem_range.mp hi).ne,
      if_neg (mem_range.mp hi).ne]
  have hmissing : (st.lastRound lag.n _ (lag.computeLagCoeff r) xm ym).z - _ = _ :=
    lastRound_missing hlag (Prover.lastPolyH lag lag.n (CheckState.withEntry lag.n st.valX xm)
      (CheckState.withEntry lag.n st.valY ym) st.valZ) xm ym r
  rw [lastDefect_eq_zero hlag hentries, eval_zero, ← ht] at hmissing
  exact sub_eq_zero.mp hmissing

end Last

/-! ## The opening -/

/-- What the verifiers deal each other adds up to 0. -/
theorem sum_dealtZero (n : ℕ) (deal : ℕ → ℕ → F) : ∑ i ∈ range n, dealtZero n deal i = 0 := by
  have hothers : ∀ i ∈ range n, dealtZero n deal i
      = ∑ j ∈ range n, deal j i - ∑ j ∈ range n, deal i j := fun i hi => by
    rw [dealtZero, sum_erase_eq_sub hi, sum_erase_eq_sub hi, sub_sub_sub_cancel_right]
  rw [sum_congr rfl hothers, sum_sub_distrib, sum_comm, sub_self]

/-- **The verifiers accept a shared triple that is right.** -/
theorem openAndCheck_accepts [DecidableEq F] {n : ℕ} {delta : ℕ → F}
    {sh : ℕ → Triple (AuthShare F)} {t : Triple F} (h : Triple.SharedBy n delta sh t)
    (hz : t.z = t.x * t.y) (deal : ℕ → ℕ → ℕ → F) : openAndCheck n delta deal sh = true := by
  -- the masked MAC check, of each component
  have hmac : ∀ (c : Triple (AuthShare F) → AuthShare F) {v : F},
      Shared n delta (fun i => c (sh i)) v → ∀ l,
      ∑ i ∈ range n, ((c (sh i)).mac - (c (sh i)).key
        - (∑ i ∈ range n, (c (sh i)).share) * delta i + dealtZero n (deal l) i) = 0 := by
    intro c v hc l
    rw [sum_add_distrib, sum_dealtZero, add_zero, sum_sub_distrib, sum_sub_distrib, hc.mac_sum,
      hc.share_sum, ← mul_sum]
    ring
  rw [openAndCheck]
  refine decide_eq_true ⟨⟨hmac _ h.x 0, hmac _ h.y 1, hmac _ h.z 2⟩, ?_⟩
  show ∑ i ∈ range n, (sh i).z.share
    = (∑ i ∈ range n, (sh i).x.share) * ∑ i ∈ range n, (sh i).y.share
  rw [h.x.share_sum, h.y.share_sum, h.z.share_sum, hz]

/-! ## The whole check -/

/-- The objects of a width up to `2 ^ 26` are constructed. -/
theorem checkObjects_ok {logM : ℕ} (hlog : 1 ≤ logM) (hle : logM ≤ 26) :
    ∃ comp, Compress.init logM = some comp ∧
      ∃ lag : Lagrange (ZMod P59), Lagrange.init comp.m = some lag := by
  obtain ⟨comp, hcomp⟩ := Compress.init_ok_of_le hlog hle
  refine ⟨comp, hcomp, Lagrange.init_ok (Lagrange.evalPoints_injOn ?_)⟩
  have hpow : 2 ^ logM ≤ 2 ^ 26 := Nat.pow_le_pow_right (by decide) hle
  rw [(Compress.init_eq_some hcomp).2.1, P59_eq]
  omega

/-- **Prover and verifiers agree through the whole check.**  The objects of every width up to
`2 ^ 26` are constructed.  For every width whose objects are constructed, every number of recorded
triples, right or wrong, and all challenges that are no interpolation points: the folding loop ends
with `m` entries at every party, the parties obtain shares of one triple, and if the recorded
triples are right and the width is at most `2 ^ 26` then this one is right, and prover and
verifiers accept. -/
theorem check_complete (logM : ℕ) :
    (1 ≤ logM → logM ≤ 26 → ∃ comp, Compress.init logM = some comp ∧
      ∃ lag : Lagrange (ZMod P59), Lagrange.init comp.m = some lag) ∧
    ∀ C : CheckConfig (ZMod P59), C.Ok logM → ∀ (multGatePtr : ℕ), 1 ≤ multGatePtr →
    ∀ (triples : ℕ → Triple (ZMod P59)) (shares : ℕ → ℕ → Triple (AuthShare (ZMod P59))),
    (∀ j < multGatePtr, Triple.SharedBy C.n C.delta (fun i => shares i j) (triples j)) →
    ∀ (proverPre : PreAuth) (verifierPre : ℕ → PreAuth),
    (∀ i < C.n, verifierPre i = proverPre) →
    ∃ s, (CheckSession.start C multGatePtr triples shares proverPre verifierPre).foldLoop C
        (multGatePtr + 1) = some s ∧
      s.prover.lenSlice * C.comp.m = C.comp.m ∧
      (∀ i < C.n, (s.verifier i).lenSlice * C.comp.m = C.comp.m) ∧
      (¬ C.lagrange.IsInterpolationPoint (C.challenge s.rounds) →
        ∃ res, verifyAuthTriple C multGatePtr triples shares proverPre verifierPre = some res ∧
          Triple.SharedBy C.n C.delta res.verifier res.prover ∧
          (∀ i < C.n, res.verifierPre i = res.proverPre) ∧
          (logM ≤ 26 → (∀ j < multGatePtr, (triples j).z = (triples j).x * (triples j).y) →
            res.prover.z = res.prover.x * res.prover.y ∧ localCheck res.prover = true ∧
              ∀ deal, openAndCheck C.n C.delta deal res.verifier = true)) := by
  refine ⟨fun hlog hle => checkObjects_ok hlog hle, ?_⟩
  intro C hC cnt hcnt triples shares hshares proverPre verifierPre hptr
  obtain ⟨hlog, hm, hcompOk, -, hroot⟩ := Compress.init_eq_some hC.comp
  obtain ⟨hlagN, hlagOk⟩ := Lagrange.init_eq_some hC.lagrange
  have hm2 : 2 ≤ C.comp.m := hm ▸ Nat.le_self_pow (by omega) 2
  -- the invariant: the parties agree, and a claim that can be right is right
  let honest : Prop := logM ≤ 26 ∧ ∀ j < cnt, (triples j).z = (triples j).x * (triples j).y
  let Inv (s : CheckSession (ZMod P59)) : Prop :=
    s.Agree C ∧ (honest → s.prover.Right C.comp.m)
  have hround : ∀ s, Inv s → ∃ s', CheckSession.round C s = some s' ∧ Inv s' ∧
      s'.prover.lenSlice = (s.prover.lenSlice + C.comp.m - 1) / C.comp.m := by
    rintro s ⟨hagree, hright⟩
    obtain ⟨s', hs', hagree', -, hprover⟩ := CheckSession.round_agree hC.n_pos hC.k_pos hC.preShared
      hagree (by omega) (hC.fits_of_le (by omega)) (hC.challenge _)
    refine ⟨s', hs', ⟨hagree', fun hon => ?_⟩, by rw [hprover]; rfl⟩
    rw [hprover]
    exact fold_right hcompOk (hm ▸ primitiveRoot_half hon.1 hroot) (hright hon) _
  have hstart : Inv (CheckSession.start C cnt triples shares proverPre verifierPre) :=
    ⟨CheckSession.start_agree hshares hptr, fun hon => CheckState.combine_right (by omega) hon.2 _⟩
  have hslices : 1 ≤ (cnt + C.comp.m - 1) / C.comp.m ∧
      (cnt + C.comp.m - 1) / C.comp.m ≤ cnt + 1 := by
    constructor
    · rw [Nat.one_le_div_iff (by omega)]
      omega
    · rw [Nat.div_le_iff_le_mul_add_pred (by omega)]
      have := Nat.mul_le_mul_right (cnt + 1) hm2
      omega
  obtain ⟨s, hs, ⟨hagree, hright⟩, hone⟩ := CheckSession.foldLoop_ends hm2 (fun s hs => hs.1) hround
    (cnt + 1) _ hstart hslices.1 hslices.2
  refine ⟨s, hs, by rw [hone, Nat.one_mul], fun i hi => ?_, fun hlast => ?_⟩
  · rw [hagree.arrays.lenSlice i hi, hone, Nat.one_mul]
  · obtain ⟨res, hres, hshared, hpre, hprover⟩ := CheckSession.lastRound_agree hC.n_pos hC.k_pos
      hC.preShared hagree (by omega) (hC.fits_of_le le_rfl) (hC.challenge _) hlast
    refine ⟨res, by rw [verifyAuthTriple, hs]; exact hres, hshared, hpre, fun hle hall => ?_⟩
    have hsum : s.prover.valZ = ∑ i ∈ range C.lagrange.n, s.prover.valX i * s.prover.valY i := by
      have := hright ⟨hle, hall⟩
      rwa [CheckState.Right, CheckState.inner, hone, Nat.one_mul, ← hlagN] at this
    rw [← hlagN] at hprover
    have hz := lastRound_right hlagOk hsum _ _ _ hprover
    exact ⟨hz, decide_eq_true hz, openAndCheck_accepts hshared hz⟩

/-- Right triples of two verifiers at the width of the code: two folding rounds, and challenges at
0. -/
theorem check_complete_two : ∃ comp lag, (evenConfig 2 1 comp lag fun _ => 0).Ok 4 ∧
    ∃ res, verifyAuthTriple (evenConfig 2 1 comp lag fun _ => 0) 300 (fun j => ⟨j, 3, 3 * j⟩)
        (fun i j => evenTriple 2 ⟨j, 3, 3 * j⟩ i) ⟨0, preAuthSharingNum⟩
        (fun _ => ⟨0, preAuthSharingNum⟩) = some res ∧
      res.prover.z = res.prover.x * res.prover.y ∧
      ∀ deal, openAndCheck 2 (fun _ => 1) deal res.verifier = true := by
  obtain ⟨comp, hcomp, lag, hlag⟩ := (check_complete 4).1 (by decide) (by decide)
  obtain ⟨-, hm, hok, -, -⟩ := Compress.init_eq_some hcomp
  obtain ⟨hn, -⟩ := Lagrange.init_eq_some hlag
  have hC : (evenConfig 2 1 comp lag fun _ => 0).Ok 4 :=
    { n_pos := Nat.two_pos
      k_pos := Nat.one_pos
      comp := hcomp
      lagrange := hlag
      fits := by
        show 2 * comp.m + 2 ≤ 1 * 2 ^ 16
        rw [hm]
        decide
      preShared := fun _ _ _ => shared_evenShare Nat.two_pos 0
      challenge := fun _ => by
        rintro ⟨i, -, hi⟩
        rw [Compress.lagEvalPoints, Compress.evalPoints_eq_pow] at hi
        exact pow_ne_zero _ hok.poly.nttN.root_ne hi }
  have hlast : ¬ lag.IsInterpolationPoint 0 := by
    rintro ⟨i, hi, hzero⟩
    have hdvd : P59 ∣ i + 1 := (ZMod.natCast_eq_zero_iff _ _).mp hzero.symm
    have hle := Nat.le_of_dvd (Nat.succ_pos i) hdvd
    rw [hn, hm] at hi
    rw [P59_eq] at hle
    omega
  obtain ⟨s, -, -, -, hopen⟩ := (check_complete 4).2 _ hC 300 (by decide) (fun j => ⟨j, 3, 3 * j⟩)
    (fun i j => evenTriple 2 ⟨j, 3, 3 * j⟩ i) (fun _ _ => sharedBy_evenTriple Nat.two_pos _)
    ⟨0, preAuthSharingNum⟩ (fun _ => ⟨0, preAuthSharingNum⟩) fun _ _ => rfl
  obtain ⟨res, hres, -, -, hright⟩ := hopen hlast
  obtain ⟨hz, -, hacc⟩ := hright (by decide) fun _ _ => mul_comm _ _
  exact ⟨comp, lag, hC, res, hres, hz, hacc⟩

/-- The check of one triple fails in its last round, if the values do not fit or the challenge is an
interpolation point. -/
theorem verifyAuthTriple_one_eq_none {comp : Compress (ZMod P59)} {lag : Lagrange (ZMod P59)}
    (hm : 0 < comp.m) {n : ℕ} (hn : 0 < n) {r : ZMod P59} (triple : Triple (ZMod P59))
    (pre : PreAuth)
    (h : ¬ (evenConfig n 1 comp lag fun _ => r).Fits (2 * comp.m + 2) ∨
      comp.IsInterpolationPoint r ∨ lag.IsInterpolationPoint r) :
    verifyAuthTriple (evenConfig n 1 comp lag fun _ => r) 1 (fun _ => triple)
      (fun i _ => evenTriple n triple i) pre (fun _ => pre) = none := by
  have hagree : (CheckSession.start (evenConfig n 1 comp lag fun _ => r) 1 (fun _ => triple)
      (fun i _ => evenTriple n triple i) pre fun _ => pre).Agree
        (evenConfig n 1 comp lag fun _ => r) :=
    CheckSession.start_agree (fun _ _ => sharedBy_evenTriple hn triple) fun _ _ => rfl
  have hone : (1 + comp.m - 1) / comp.m = 1 := by
    rw [Nat.add_sub_cancel_left, Nat.div_self hm]
  rw [verifyAuthTriple, CheckSession.foldLoop_done hagree hone]
  exact if_pos h

/-- **The limits of the honest run.**  For a width of `2 ^ 28` the objects are constructed, but the
field has no root of order `2 ^ 29`, and an honest run on right triples is rejected.  For the width
of the code, 16, the run of two verifiers on one right triple fails if the challenge is an
interpolation point.  For a width of `2 ^ 16` and packed sharings of one value, the values of the
last round do not fit. -/
theorem check_incomplete :
    (∃ C : CheckConfig (ZMod P59), C.Ok 28 ∧ C.n = 2 ^ 15 ∧ C.k = 2 ^ 14 ∧
      ∃ (multGatePtr : ℕ) (triples : ℕ → Triple (ZMod P59))
        (shares : ℕ → ℕ → Triple (AuthShare (ZMod P59))), 1 ≤ multGatePtr ∧
        (∀ j < multGatePtr, Triple.SharedBy C.n C.delta (fun i => shares i j) (triples j)) ∧
        (∀ j < multGatePtr, (triples j).z = (triples j).x * (triples j).y) ∧
        ∃ res, verifyAuthTriple C multGatePtr triples shares ⟨0, preAuthSharingNum⟩
            (fun _ => ⟨0, preAuthSharingNum⟩) = some res ∧
          res.prover.z ≠ res.prover.x * res.prover.y) ∧
    (∃ comp lag, Compress.init 4 = some comp ∧ Lagrange.init comp.m = some lag ∧
      verifyAuthTriple (evenConfig 2 1 comp lag fun _ => 1) 1 (fun _ => ⟨2, 3, 6⟩)
        (fun i _ => evenTriple 2 ⟨2, 3, 6⟩ i) ⟨0, preAuthSharingNum⟩
        (fun _ => ⟨0, preAuthSharingNum⟩) = none) ∧
    ∃ comp lag, Compress.init 16 = some comp ∧ Lagrange.init comp.m = some lag ∧
      verifyAuthTriple (evenConfig 2 1 comp lag fun _ => 0) 1 (fun _ => ⟨2, 3, 6⟩)
        (fun i _ => evenTriple 2 ⟨2, 3, 6⟩ i) ⟨0, preAuthSharingNum⟩
        (fun _ => ⟨0, preAuthSharingNum⟩) = none := by
  refine ⟨?_, ?_, ?_⟩
  · obtain ⟨w, hw, -⟩ := Poly.primitiveRoot_ne_zero (d := 28)
    have horder := primitiveRoot_wide hw
    obtain ⟨comp, hcomp⟩ : ∃ comp, Compress.init 28 = some comp :=
      Compress.init_ok (by decide) hw (by omega)
    obtain ⟨-, hm, hok, -, hroot⟩ := Compress.init_eq_some hcomp
    rw [hw, Option.some_inj] at hroot
    have hwrong : comp.poly.unityRoot2N ^ comp.m ≠ -1 := fun hneg => by
      rw [hm, ← hroot] at hneg
      rw [orderOf_of_half two_ne_zero_P59 hneg] at horder
      omega
    have hP := P59_eq
    obtain ⟨lag, hlag⟩ := Lagrange.init_ok (F := ZMod P59) (n := comp.m)
      (Lagrange.evalPoints_injOn (by omega))
    obtain ⟨challenge, hC, res, hres, hne⟩ := exists_rejected (n := 2 ^ 15) (k := 2 ^ 14) hcomp hlag
      hwrong (by omega) (by decide) (by decide) (by rw [hm]; decide) ⟨0, preAuthSharingNum⟩
    exact ⟨_, hC, rfl, rfl, _, _, _, by omega,
      fun j _ => sharedBy_evenTriple (Nat.two_pow_pos 15) _,
      fun j _ => turningTriples_right _ _ j, res, hres, hne⟩
  · obtain ⟨comp, hcomp, lag, hlag⟩ := checkObjects_ok (by decide : 1 ≤ 4) (by decide)
    have hpoint : lag.IsInterpolationPoint 1 := ⟨0, Nat.succ_pos _, Nat.cast_one.symm⟩
    exact ⟨comp, lag, hcomp, hlag, verifyAuthTriple_one_eq_none
      (comp_m_pos (Compress.init_eq_some hcomp).2.2.1) Nat.two_pos _ _ (Or.inr (Or.inr hpoint))⟩
  · obtain ⟨comp, hcomp, lag, hlag⟩ := checkObjects_ok (by decide : 1 ≤ 16) (by decide)
    have hfits : ¬ (evenConfig 2 1 comp lag fun _ => 0).Fits (2 * comp.m + 2) := by
      rw [(Compress.init_eq_some hcomp).2.1]
      show ¬ (2 * 2 ^ 16 + 2 + 1 - 1) / 1 ≤ 2 ^ 16
      decide
    exact ⟨comp, lag, hcomp, hlag, verifyAuthTriple_one_eq_none
      (comp_m_pos (Compress.init_eq_some hcomp).2.2.1) Nat.two_pos _ _ (Or.inl hfits)⟩

end VoleZk.Mvzk
