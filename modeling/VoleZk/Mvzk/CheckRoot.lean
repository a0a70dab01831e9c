import VoleZk.Mvzk.CheckAgree

/-!
# The multiplication check with a wrong root

The extension of the slices rests on `w ^ m = -1`.  Without it the values of `X` are those of
`halfTurn`, and the prover's values of `h` at the shifted points do not belong to the polynomials
that the fold interpolates.  An honest prover is then rejected for most challenges.

## What is here

* `foldDefect_ne_zero` — the defect of an honest fold;
* `exists_rejected` — **an honest run that is rejected, for every wrong root.**
-/

set_option autoImplicit false

open Finset Polynomial Interpolation

namespace VoleZk.Mvzk

/-! ## The defect -/

section Defect

variable {F : Type*} [Field F] {comp : Compress F} {st : CheckState F}

/-- **Only with a right root** does a polynomial of low degree take the values of `X` at the base
points and those of the extension at the shifted points: it takes the values of `X` at `m` points,
is `X`, and takes its value at the middle point. -/
theorem root_eq_of_halfTurn (hcomp : comp.Ok) {L : ℕ} (hL : comp.poly.logN = L + 1) {f : F[X]}
    (hdeg : f.degree < comp.m)
    (hlow : ∀ i < comp.m,
      f.eval (comp.lagEvalPoints i) = halfTurn comp.poly.unityRoot2N (2 ^ L) i)
    (hhigh : ∀ j, j + 1 < comp.m → f.eval (comp.lagEvalPoints (comp.m + j))
      = comp.poly.unityRoot2N * halfTurn comp.poly.unityRoot2N (2 ^ L) j) :
    comp.poly.unityRoot2N ^ comp.m = -1 := by
  have hm : comp.m = 2 ^ L + 2 ^ L := by
    rw [hcomp.m_eq, Poly.n, hL, pow_succ, mul_two]
  have hhalf := Nat.two_pow_pos L
  have hpoints : ∀ i, comp.lagEvalPoints i = comp.poly.unityRoot2N
      ^ (if i < comp.m then 2 * i + 1 else 2 * (i - comp.m) + 2) := fun i =>
    Compress.evalPoints_eq_pow comp.poly comp.m i
  -- the first half of the base points, and of the shifted points
  let pts (i : ℕ) : F := comp.lagEvalPoints (if i < 2 ^ L then i else comp.m + (i - 2 ^ L))
  have hptsInj : Set.InjOn pts (range comp.m) := by
    intro i hi j hj heq
    have hi' : i < comp.m := by simpa using hi
    have hj' : j < comp.m := by simpa using hj
    have hsub : ∀ {l}, l < comp.m → (if l < 2 ^ L then l else comp.m + (l - 2 ^ L))
        ∈ (range (2 * comp.m - 1) : Set ℕ) := fun {l} hl => by
      simp only [coe_range, Set.mem_Iio]
      split <;> omega
    have := hcomp.injOn (hsub hi') (hsub hj') heq
    split at this <;> split at this <;> omega
  have hX : f - X = 0 := by
    refine eq_zero_of_eval_eq_zero hptsInj ((degree_sub_le _ _).trans_lt (max_lt hdeg ?_))
      fun i hi => ?_
    · rw [degree_X]
      exact_mod_cast (show 1 < comp.m by omega)
    · rw [eval_sub, eval_X, sub_eq_zero]
      simp only [pts]
      split
      · rename_i hi'
        rw [hlow i hi, halfTurn, if_pos hi', hpoints, if_pos hi]
      · rw [hhigh _ (by omega), halfTurn, if_pos (by omega), hpoints, if_neg (by omega),
          Nat.add_sub_cancel_left, ← pow_succ']
  have hmid := hlow (2 ^ L) (by omega)
  rw [sub_eq_zero.mp hX, eval_X, hpoints, if_pos (by omega), halfTurn, if_neg (lt_irrefl _),
    Nat.sub_self, pow_succ, show 2 * 2 ^ L = comp.m by omega, Nat.mul_zero, zero_add,
    pow_one] at hmid
  refine mul_right_cancel₀ hcomp.poly.nttN.root_ne ?_
  rw [hmid, neg_one_mul]

/-- Entries of two slices: the values of `X` times 1 in the first, nothing in the second. -/
structure CheckState.Turning (comp : Compress F) (half : ℕ) (st : CheckState F) : Prop where
  /-- Two slices. -/
  lenSlice : st.lenSlice = 2
  /-- The left entries. -/
  valX : ∀ i < comp.m, st.valX (i * 2) = halfTurn comp.poly.unityRoot2N half i
  /-- The right entries. -/
  valY : ∀ i < comp.m, st.valY (i * 2) = 1
  /-- The second slice. -/
  rest : ∀ i < comp.m, st.valX (i * 2 + 1) = 0

/-- The values of `h` of such entries at the shifted points. -/
theorem CheckState.Turning.polyH_high (hcomp : comp.Ok) {L : ℕ} (hL : comp.poly.logN = L + 1)
    (hst : st.Turning comp (2 ^ L)) {j : ℕ} (hj : j + 1 < comp.m) :
    Prover.polyH comp st (comp.m + j)
      = comp.poly.unityRoot2N * halfTurn comp.poly.unityRoot2N (2 ^ L) j := by
  have hn := hcomp.m_eq
  have hj' : j < comp.poly.n := by omega
  have hext := fun (a b : F) (input : ℕ → F)
      (hinput : ∀ i < comp.poly.n, input i = a + b * halfTurn comp.poly.unityRoot2N (2 ^ L) i) =>
    Poly.nttEvalN2N_eq_of_two hcomp.poly hL a b hinput hj'
  have hextX := hext 0 1 (fun i => st.valX (0 + i * 2)) fun i hi => by
    rw [Nat.zero_add, hst.valX i (hn ▸ hi), zero_add, one_mul]
  have hextY := hext 1 0 (fun i => st.valY (0 + i * 2)) fun i hi => by
    rw [Nat.zero_add, hst.valY i (hn ▸ hi), zero_mul, add_zero]
  have hextRest := hext 0 0 (fun i => st.valX (1 + i * 2)) fun i hi => by
    rw [Nat.add_comm, hst.rest i (hn ▸ hi), zero_mul, add_zero]
  rw [Prover.polyH, if_neg (by omega), if_neg (by omega), Nat.add_sub_cancel_left, hst.lenSlice,
    sum_range_succ, sum_range_one, hextX, hextY, hextRest]
  ring

/-- **With a wrong root, an honest fold has a defect.** -/
theorem foldDefect_ne_zero (hcomp : comp.Ok) {L : ℕ} (hL : comp.poly.logN = L + 1)
    (hroot : comp.poly.unityRoot2N ^ comp.m ≠ -1) (hst : st.Turning comp (2 ^ L)) :
    foldDefect comp st (Prover.polyH comp st) ≠ 0 := by
  intro hzero
  have hinj := injOn_low hcomp
  refine hroot (root_eq_of_halfTurn hcomp hL (f := slicePoly comp 2 st.valX 0)
    (degree_interp_lt hinj _) (fun i hi => ?_) fun j hj => ?_)
  · rw [slicePoly, eval_interp_node hinj _ hi]
    exact hst.valX i hi
  · -- without a defect, the polynomial takes the values of `h`
    have hpoint : (foldDefect comp st (Prover.polyH comp st)).eval
        (comp.lagEvalPoints (comp.m + j)) = _ := foldDefect_high hcomp _ hj
    have hone : (slicePoly comp 2 st.valY 0).eval (comp.lagEvalPoints (comp.m + j)) = 1 := by
      rw [slicePoly, eval_interp, ← sum_lagCoeff hinj (comp_m_pos hcomp)]
      exact sum_congr rfl fun i hi => by
        rw [Nat.add_zero, hst.valY i (mem_range.mp hi), one_mul]
    have hnone : ∀ x, (slicePoly comp 2 st.valX 1).eval x = 0 := fun x => by
      rw [slicePoly, eval_interp]
      exact sum_eq_zero fun i hi => by rw [hst.rest i (mem_range.mp hi), zero_mul]
    rw [hzero, eval_zero, hst.polyH_high hcomp hL hj, hst.lenSlice, sum_range_succ, sum_range_one,
      hone, hnone] at hpoint
    linear_combination hpoint

end Defect

/-! ## The rejected run -/

section Rejected

variable {F : Type*} [Field F]

/-- Right triples whose combination is `CheckState.Turning`. -/
def turningTriples (w : F) (half j : ℕ) : Triple F :=
  if j % 2 = 0 then ⟨halfTurn w half (j / 2), 1, halfTurn w half (j / 2)⟩ else ⟨0, 0, 0⟩

theorem turningTriples_right (w : F) (half j : ℕ) : (turningTriples w half j).z
    = (turningTriples w half j).x * (turningTriples w half j).y := by
  rw [turningTriples]
  split
  · exact (mul_one _).symm
  · exact (mul_zero _).symm

/-- The share of verifier `i` of `n`: key 1 and share 1 each, but for the share that makes up for
the others. -/
def evenShare (n : ℕ) (v : F) (i : ℕ) : AuthShare F :=
  ⟨v + 1, 1, if i = 0 then v - (n - 1) else 1⟩

/-- The shares of a triple. -/
def evenTriple (n : ℕ) (t : Triple F) (i : ℕ) : Triple (AuthShare F) :=
  ⟨evenShare n t.x i, evenShare n t.y i, evenShare n t.z i⟩

theorem shared_evenShare {n : ℕ} (hn : 0 < n) (v : F) :
    Shared n (fun _ => 1) (evenShare n v) v where
  share_sum := by
    obtain ⟨n, rfl⟩ := Nat.exists_eq_succ_of_ne_zero hn.ne'
    rw [sum_range_succ']
    simp [evenShare]
  mac_sum := by
    simp only [evenShare, sum_const, card_range, nsmul_eq_mul]
    ring

theorem sharedBy_evenTriple {n : ℕ} (hn : 0 < n) (t : Triple F) :
    Triple.SharedBy n (fun _ => 1) (evenTriple n t) t :=
  ⟨shared_evenShare hn t.x, shared_evenShare hn t.y, shared_evenShare hn t.z⟩

/-- `n` verifiers whose parts of the global key are 1, preprocessed zeros, and coefficients 1. -/
def evenConfig (n k : ℕ) (comp : Compress F) (lagrange : Lagrange F) (challenge : ℕ → F) :
    CheckConfig F where
  n := n
  k := k
  comp := comp
  lagrange := lagrange
  delta _ := 1
  preAuthSharing _ _ := 0
  preAuthShares i _ _ := evenShare n 0 i
  randStream _ := 1
  challenge := challenge
  mask := (0, 0)

theorem start_turning {comp : Compress F} (hm : 0 < comp.m) (half : ℕ) :
    (CheckState.combine comp.m (2 * comp.m)
      (fun j => (turningTriples comp.poly.unityRoot2N half j).x)
      (fun j => (turningTriples comp.poly.unityRoot2N half j).y)
      (fun j => (turningTriples comp.poly.unityRoot2N half j).z)
      fun _ => (1 : F)).Turning comp half where
  lenSlice := by
    show (2 * comp.m + comp.m - 1) / comp.m = 2
    rw [Nat.add_sub_assoc hm, mul_comm, Nat.mul_add_div hm, Nat.div_eq_of_lt (by omega)]
  valX i hi := by
    refine (if_pos (show i * 2 < 2 * comp.m by omega)).trans ?_
    simp only [one_smul, turningTriples, Nat.mul_mod_left, if_true,
      Nat.mul_div_cancel i Nat.two_pos]
  valY i hi := by
    refine (if_pos (show i * 2 < 2 * comp.m by omega)).trans ?_
    simp only [turningTriples, Nat.mul_mod_left, if_true]
  rest i hi := by
    refine (if_pos (show i * 2 + 1 < 2 * comp.m by omega)).trans ?_
    have hodd : ¬ (i * 2 + 1) % 2 = 0 := by omega
    simp only [one_smul, turningTriples, hodd, if_false]

end Rejected

/-- Challenges that a nonzero polynomial of low degree does not hide, away from the interpolation
points of the folding rounds and of the last one. -/
theorem exists_challenge {f : (ZMod P59)[X]} (hf : f ≠ 0) (comp : Compress (ZMod P59))
    (lag : Lagrange (ZMod P59)) (hn : lag.n = comp.m) (hcount : 8 * comp.m ≤ P59)
    (hdeg : f.degree < (2 * comp.m + 1 : ℕ)) :
    ∃ r, ¬ comp.IsInterpolationPoint r ∧ ¬ lag.IsInterpolationPoint r ∧ f.eval r ≠ 0 := by
  let low : Finset (ZMod P59) := (range (2 * comp.m - 1)).image comp.lagEvalPoints
  let high : Finset (ZMod P59) := (range (2 * lag.n + 1)).image Lagrange.evalPoints
  have hlow : (#low) ≤ 2 * comp.m - 1 := card_image_le.trans (card_range _).le
  have hhigh : (#high) ≤ 2 * comp.m + 1 := hn ▸ card_image_le.trans (card_range _).le
  have hcard : 2 * comp.m + #(low ∪ high) < Fintype.card (ZMod P59) := by
    have := card_union_le low high
    have hbig : 1 < P59 := P59_prime.one_lt
    rw [ZMod.card]
    omega
  obtain ⟨r, hr, heval⟩ := exists_eval_ne_zero hf hdeg _ hcard
  refine ⟨r, ?_, ?_, heval⟩
  · rintro ⟨i, hi, hpoint⟩
    exact hr (mem_union_left _ (mem_image.mpr ⟨i, mem_range.mpr hi, hpoint⟩))
  · rintro ⟨i, hi, hpoint⟩
    exact hr (mem_union_right _ (mem_image.mpr ⟨i, mem_range.mpr hi, hpoint.symm⟩))

/-- Two slices are folded into one. -/
theorem fold_two_slices {comp : Compress (ZMod P59)} (hok : comp.Ok) {L : ℕ}
    (hL : comp.poly.logN = L + 1) : (2 + comp.m - 1) / comp.m = 1 := by
  have hm : 2 ≤ comp.m := by
    rw [hok.m_eq, Poly.n, hL]
    exact Nat.le_self_pow (Nat.succ_ne_zero L) 2
  exact Nat.div_eq_of_lt_le (by omega) (by omega)

/-- What the prover's triple is after a fold of `st` at `r` and the last round at `r'`, with the
pair `(0, 0)`. -/
def foldAndOpen (comp : Compress (ZMod P59)) (lag : Lagrange (ZMod P59))
    (st : CheckState (ZMod P59)) (r r' : ZMod P59) : Triple (ZMod P59) :=
  let folded := st.fold comp.m (Prover.polyH comp st) (comp.computeLagCoeff r)
  folded.lastRound comp.m
    (Prover.lastPolyH lag comp.m (CheckState.withEntry comp.m folded.valX 0)
      (CheckState.withEntry comp.m folded.valY 0) folded.valZ) (lag.computeLagCoeff r') 0 0

/-- With a wrong root there are challenges that make the triple wrong: the first is one that the
defect of the fold does not hide, the second one that the defect of the last round does not. -/
theorem exists_wrong_triple {L : ℕ} {comp : Compress (ZMod P59)} {lag : Lagrange (ZMod P59)}
    (hok : comp.Ok) (hL : comp.poly.logN = L + 1) (hlag : lag.Ok) (hn : lag.n = comp.m)
    (hroot : comp.poly.unityRoot2N ^ comp.m ≠ -1) (hcount : 8 * comp.m ≤ P59)
    {st : CheckState (ZMod P59)} (hst : st.Turning comp (2 ^ L)) :
    ∃ r r', ¬ comp.IsInterpolationPoint r ∧ ¬ comp.IsInterpolationPoint r' ∧
      ¬ lag.IsInterpolationPoint r' ∧ (foldAndOpen comp lag st r r').z
        ≠ (foldAndOpen comp lag st r r').x * (foldAndOpen comp lag st r r').y := by
  have hpos := comp_m_pos hok
  obtain ⟨r, hr, -, hdefect⟩ := exists_challenge (foldDefect_ne_zero hok hL hroot hst) comp
    lag hn hcount ((foldDefect_degree_lt hok _).trans (Nat.cast_lt.mpr (by omega)))
  obtain ⟨folded, hfolded⟩ : ∃ folded,
      folded = st.fold comp.m (Prover.polyH comp st) (comp.computeLagCoeff r) := ⟨_, rfl⟩
  have hone : folded.lenSlice = 1 := by
    rw [hfolded]
    show (st.lenSlice + comp.m - 1) / comp.m = 1
    rw [hst.lenSlice, fold_two_slices hok hL]
  have hwrong : folded.valZ - ∑ i ∈ range lag.n, folded.valX i * folded.valY i ≠ 0 := by
    have hmissing : (st.fold comp.m (Prover.polyH comp st) (comp.computeLagCoeff r)).valZ - _
        = (foldDefect comp st (Prover.polyH comp st)).eval r := fold_missing hok _ r
    rw [← hfolded, CheckState.inner, hone, Nat.one_mul, ← hn] at hmissing
    rwa [hmissing]
  obtain ⟨polyH, hpolyH⟩ : ∃ polyH, polyH = Prover.lastPolyH lag lag.n
      (CheckState.withEntry lag.n folded.valX 0) (CheckState.withEntry lag.n folded.valY 0)
      folded.valZ := ⟨_, rfl⟩
  have hlast : lastDefect lag (CheckState.withEntry lag.n folded.valX 0)
      (CheckState.withEntry lag.n folded.valY 0) polyH ≠ 0 := by
    intro hzero
    have hsum : ∑ i ∈ range lag.n, polyH i = folded.valZ :=
      hpolyH ▸ Prover.sum_lastPolyH lag (hn ▸ hpos) _ _ folded.valZ
    rw [← sum_lastDefect hlag hsum 0 0, hzero] at hwrong
    simp at hwrong
  obtain ⟨r', hr', hr'last, hdefect'⟩ := exists_challenge hlast comp lag hn hcount
    (hn ▸ lastDefect_degree_lt hlag _ _ _)
  refine ⟨r, r', hr, hr', hr'last, sub_ne_zero.mp ?_⟩
  have hmissing : (folded.lastRound lag.n polyH (lag.computeLagCoeff r') 0 0).z - _ = _ :=
    lastRound_missing hlag polyH 0 0 r'
  rw [← hmissing, hpolyH, hfolded, hn] at hdefect'
  exact hdefect'

/-- **With a wrong root, an honest run is rejected**, for challenges that are no interpolation
points. -/
theorem exists_rejected {L : ℕ} {comp : Compress (ZMod P59)} {lag : Lagrange (ZMod P59)}
    (hcomp : Compress.init (L + 1) = some comp) (hlag : Lagrange.init comp.m = some lag)
    (hroot : comp.poly.unityRoot2N ^ comp.m ≠ -1) (hcount : 8 * comp.m ≤ P59) {n k : ℕ}
    (hn : 0 < n) (hk : 0 < k) (hfits : 2 * comp.m + 2 ≤ k * preAuthSharingNum) (pre : PreAuth) :
    ∃ challenge, (evenConfig n k comp lag challenge).Ok (L + 1) ∧
      ∃ res, verifyAuthTriple (evenConfig n k comp lag challenge) (2 * comp.m)
          (turningTriples comp.poly.unityRoot2N (2 ^ L))
          (fun i j => evenTriple n (turningTriples comp.poly.unityRoot2N (2 ^ L) j) i) pre
          (fun _ => pre) = some res ∧
        res.prover.z ≠ res.prover.x * res.prover.y := by
  obtain ⟨-, -, hok, hlogN, -⟩ := Compress.init_eq_some hcomp
  obtain ⟨hlagN, hlagOk⟩ := Lagrange.init_eq_some hlag
  have hpos := comp_m_pos hok
  have hturning := start_turning hpos (2 ^ L)
  obtain ⟨r, r', hr, hr', hr'last, hwrong⟩ :=
    exists_wrong_triple hok hlogN hlagOk hlagN hroot hcount hturning
  obtain ⟨triples, htriples⟩ : ∃ triples : ℕ → Triple (ZMod P59),
      triples = turningTriples comp.poly.unityRoot2N (2 ^ L) := ⟨_, rfl⟩
  rw [← htriples] at hturning hwrong ⊢
  let challenge (t : ℕ) : ZMod P59 := if t = 0 then r else r'
  have hC : (evenConfig n k comp lag challenge).Ok (L + 1) :=
    { n_pos := hn
      k_pos := hk
      comp := hcomp
      lagrange := hlag
      fits := hfits
      preShared := fun _ _ _ => shared_evenShare hn 0
      challenge := fun t => by
        show ¬ comp.IsInterpolationPoint (if t = 0 then r else r')
        split
        · exact hr
        · exact hr' }
  refine ⟨challenge, hC, ?_⟩
  -- one fold leaves one slice, and the second challenge is that of the last round
  have hstart : (CheckSession.start (evenConfig n k comp lag challenge) (2 * comp.m) triples
      (fun i j => evenTriple n (triples j) i) pre fun _ => pre).Agree
        (evenConfig n k comp lag challenge) :=
    CheckSession.start_agree (fun j _ => sharedBy_evenTriple hn (triples j)) fun _ _ => rfl
  obtain ⟨s, hs, hagree, hrounds, hprover⟩ := CheckSession.round_agree hC.n_pos hC.k_pos
    hC.preShared hstart hpos (hC.fits_of_le (by omega)) (hC.challenge _)
  have hchallenge : challenge s.rounds = r' := by
    rw [hrounds]
    rfl
  have hone : s.prover.lenSlice = 1 := by
    rw [hprover]
    exact (congrArg (fun len => (len + comp.m - 1) / comp.m) hturning.lenSlice).trans
      (fold_two_slices hok hlogN)
  have hlastPoint : ¬ lag.IsInterpolationPoint (challenge s.rounds) := by rwa [hchallenge]
  obtain ⟨res, hres, -, -, hprover'⟩ := CheckSession.lastRound_agree hC.n_pos hC.k_pos hC.preShared
    hagree hpos (hC.fits_of_le le_rfl) (hC.challenge _) hlastPoint
  refine ⟨res, ?_, ?_⟩
  · obtain ⟨fuel, hfuel⟩ := Nat.exists_eq_succ_of_ne_zero (show 2 * comp.m ≠ 0 by omega)
    rw [verifyAuthTriple, CheckSession.foldLoop_fold hstart hpos hturning.lenSlice.ge, hs,
      Option.bind_some, hfuel, CheckSession.foldLoop_done hagree hone, Option.bind_some, hres]
  · have hopened : res.prover = foldAndOpen comp lag (CheckState.combine comp.m (2 * comp.m)
        (fun j => (triples j).x) (fun j => (triples j).y) (fun j => (triples j).z)
        fun _ => (1 : ZMod P59))
        r r' := by
      rw [hprover', hprover, ← hchallenge]
      rfl
    rwa [hopened]

end VoleZk.Mvzk
