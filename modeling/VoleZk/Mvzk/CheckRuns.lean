import VoleZk.Lib.PublicCoin
import VoleZk.Mvzk.CheckComplete

/-!
# Soundness of the whole multiplication check

A prover that does not follow the check still only sends differences, and what a verifier does with
them is linear in its shares.  So the shares add up to arrays that take part in the check as the
arrays of an honest prover would, with values of `h` that the prover chose: if a recorded triple is
wrong then the combined claim is, for most coefficients, and a wrong claim stays wrong in a round,
for most challenges.  The prover sees every challenge before it sends the next differences.

## What is here

* `CheckProver`, what a prover sends and what a challenge makes of it; `CheckProver.honest`;
* `CheckRun`, the verifiers and the prover they talk to, `CheckRun.verify`, their check;
* `CheckRun.verify_honest` — the check of the session is the one with the honest prover;
* `CheckRun.opened_round`, `CheckRun.opened_last` — **a round, on what the shares add up to**;
* `CheckRun.check_sound` — **a wrong triple passes for few challenges, whatever the prover does.**
-/

set_option autoImplicit false

open Finset Polynomial

namespace VoleZk.Mvzk

variable {F : Type*} [Field F]

/-! ## The verifiers and a prover -/

/-- A prover of the check.  What it sends goes to all the verifiers: one that tells them different
differences is met by the comparison of transcripts, which is not part of the check. -/
structure CheckProver (F σ : Type*) where
  /-- The differences of a folding round. -/
  fold : σ → ℕ → F
  /-- The differences of the last round. -/
  last : σ → ℕ → F
  /-- What a challenge makes of the prover. -/
  next : σ → F → σ

/-- The verifiers between two rounds, and the prover. -/
structure CheckRun (F σ : Type*) where
  /-- The prover. -/
  prover : σ
  /-- The arrays of each verifier. -/
  verifier : ℕ → CheckState (AuthShare F)
  /-- The preprocessed sharings of each verifier. -/
  verifierPre : ℕ → PreAuth

/-- The prover of the code: its arrays, and its preprocessed sharings. -/
def CheckProver.honest (C : CheckConfig F) : CheckProver F (CheckState F × PreAuth) where
  fold st :=
    (Prover.genAddSharesDiff C.k C.preAuthSharing (fun i => Prover.polyH C.comp st.1 (i + 1))
      (2 * C.comp.m - 2) st.2).1
  last st :=
    let m := C.comp.m
    let valX := CheckState.withEntry m st.1.valX C.mask.1
    let valY := CheckState.withEntry m st.1.valY C.mask.2
    let polyH := Prover.lastPolyH C.lagrange m valX valY st.1.valZ
    (Prover.genAddSharesDiff C.k C.preAuthSharing
      (fun i => if i < 2 * m then polyH (i + 1) else if i = 2 * m then valX m else valY m)
      (2 * m + 2) st.2).1
  next st r :=
    (st.1.fold C.comp.m (Prover.polyH C.comp st.1) (C.comp.computeLagCoeff r),
      (Prover.genAddSharesDiff C.k C.preAuthSharing (fun i => Prover.polyH C.comp st.1 (i + 1))
        (2 * C.comp.m - 2) st.2).2)

namespace CheckRun

variable {σ : Type*} (C : CheckConfig F)

/-- The recorded triples of each verifier, combined with the coefficients `randStream`. -/
def start (multGatePtr : ℕ) (shares : ℕ → ℕ → Triple (AuthShare F)) (verifierPre : ℕ → PreAuth)
    (randStream : ℕ → F) (prover : σ) : CheckRun F σ where
  prover := prover
  verifier i := .combine C.comp.m multGatePtr (fun j => (shares i j).x) (fun j => (shares i j).y)
    (fun j => (shares i j).z) randStream
  verifierPre := verifierPre

/-- What verifier `i` makes of `len` differences. -/
def receive (s : CheckRun F σ) (i len : ℕ) (diff : ℕ → F) : (ℕ → AuthShare F) × PreAuth :=
  Verifier.genAddSharesFromDiff C.k i (C.delta i) (C.preAuthShares i) diff len
    ((s.verifierPre i).ensure ((len + C.k - 1) / C.k))

/-- `dim > m`, at verifier `i`. -/
def More (s : CheckRun F σ) (i : ℕ) : Prop := (s.verifier i).lenSlice * C.comp.m > C.comp.m

instance (s : CheckRun F σ) (i : ℕ) : Decidable (s.More C i) :=
  inferInstanceAs (Decidable ((s.verifier i).lenSlice * C.comp.m > C.comp.m))

variable [DecidableEq F] (P : CheckProver F σ)

/-- A folding round of the verifiers, with challenge `r`. -/
def round (s : CheckRun F σ) (r : F) : Option (CheckRun F σ) :=
  let m := C.comp.m
  if ¬ C.Fits (2 * m - 2) ∨ C.comp.IsInterpolationPoint r then none
  else
    let lag := C.comp.computeLagCoeff r
    some
      { prover := P.next s.prover r
        verifier := fun i => (s.verifier i).fold m
          (Verifier.polyH m (s.verifier i).valZ
            (s.receive C i (2 * m - 2) (P.fold s.prover)).1) lag
        verifierPre := fun i => (s.receive C i (2 * m - 2) (P.fold s.prover)).2 }

/-- The last round of the verifiers, with challenge `r`. -/
def lastRound (s : CheckRun F σ) (r : F) : Option (ℕ → Triple (AuthShare F)) :=
  let m := C.comp.m
  if ¬ C.Fits (2 * m + 2) ∨ C.comp.IsInterpolationPoint r ∨ C.lagrange.IsInterpolationPoint r then
    none
  else
    let lag := C.lagrange.computeLagCoeff r
    some fun i =>
      let received := (s.receive C i (2 * m + 2) (P.last s.prover)).1
      (s.verifier i).lastRound m (Verifier.polyH m (s.verifier i).valZ received) lag
        (received (2 * m)) (received (2 * m + 1))

/-- `verifyAuthTriple` of the verifiers, from the loop on.  A round takes the next challenge. -/
def verify (s : CheckRun F σ) : List F → Option (ℕ → Triple (AuthShare F))
  | [] => none
  | r :: rs =>
    if ∀ i < C.n, s.More C i then (round C P s r).bind fun s => verify s rs
    else if ∃ i < C.n, s.More C i then none
    else lastRound C P s r

/-- The verifiers get through the check, and accept what they open. -/
def accepts (deal : ℕ → ℕ → ℕ → F) (s : CheckRun F σ) (rs : List F) : Bool :=
  (verify C P s rs).any (openAndCheck C.n C.delta deal)

end CheckRun

/-! ## The honest prover -/

section Honest

variable {C : CheckConfig F}

/-- The verifiers of a session, and its prover. -/
def CheckSession.run (s : CheckSession F) : CheckRun F (CheckState F × PreAuth) :=
  ⟨(s.prover, s.proverPre), s.verifier, s.verifierPre⟩

variable [DecidableEq F]

theorem CheckRun.round_honest (s : CheckSession F) :
    CheckRun.round C (.honest C) s.run (C.challenge s.rounds)
      = (CheckSession.round C s).map CheckSession.run := by
  rw [CheckRun.round, CheckSession.round]
  split
  · rfl
  · rfl

theorem CheckRun.lastRound_honest (s : CheckSession F) :
    CheckRun.lastRound C (.honest C) s.run (C.challenge s.rounds)
      = (CheckSession.lastRound C s).map CheckResult.verifier := by
  rw [CheckRun.lastRound, CheckSession.lastRound]
  split
  · rfl
  · rfl

theorem CheckSession.round_rounds {s s' : CheckSession F} (h : CheckSession.round C s = some s') :
    s'.rounds = s.rounds + 1 := by
  rw [CheckSession.round] at h
  split at h
  · cases h
  · cases h
    rfl

theorem CheckRun.verify_foldLoop (hn : 0 < C.n) (fuel : ℕ) (s : CheckSession F)
    {res : CheckResult F} (h : (s.foldLoop C fuel).bind (CheckSession.lastRound C) = some res) :
    ∃ R, CheckRun.verify C (.honest C) s.run ((List.range' s.rounds (R + 1)).map C.challenge)
      = some res.verifier := by
  induction fuel generalizing s with
  | zero => cases h
  | succ fuel ih =>
    rw [CheckSession.foldLoop] at h
    split at h
    next hmore =>
      obtain ⟨s', hs', hres⟩ := Option.bind_eq_some_iff.mp (Option.bind_assoc .. ▸ h)
      obtain ⟨R, hR⟩ := ih s' hres
      refine ⟨R + 1, ?_⟩
      rw [List.range'_succ, List.map_cons, CheckRun.verify]
      refine (if_pos hmore.2).trans ?_
      rw [CheckRun.round_honest, hs', ← CheckSession.round_rounds hs']
      exact hR
    next =>
      split at h
      next => cases h
      next hnone =>
        have hall : ¬ ∀ i < C.n, s.run.More C i := fun hall => hnone (.inr ⟨0, hn, hall 0 hn⟩)
        have hsome : ¬ ∃ i < C.n, s.run.More C i := fun hex => hnone (.inr hex)
        refine ⟨0, ?_⟩
        rw [List.range'_succ, List.map_cons, CheckRun.verify, if_neg hall, if_neg hsome,
          CheckRun.lastRound_honest]
        exact congrArg (Option.map CheckResult.verifier) h

/-- **The check of the session is the one with the honest prover**, and the challenges of its
rounds. -/
theorem CheckRun.verify_honest (hn : 0 < C.n) {multGatePtr : ℕ} {triples : ℕ → Triple F}
    {shares : ℕ → ℕ → Triple (AuthShare F)} {proverPre : PreAuth} {verifierPre : ℕ → PreAuth}
    {res : CheckResult F}
    (h : verifyAuthTriple C multGatePtr triples shares proverPre verifierPre = some res) :
    ∃ p R, CheckRun.verify C (.honest C)
        (CheckRun.start C multGatePtr shares verifierPre C.randStream p)
        ((List.range (R + 1)).map C.challenge) = some res.verifier := by
  obtain ⟨R, hR⟩ := CheckRun.verify_foldLoop hn _ _ h
  exact ⟨_, R, by rw [List.range_eq_range']; exact hR⟩

end Honest

/-! ## What the shares add up to -/

section Opened

/-- What the shares of `n` verifiers add up to. -/
def opening (n : ℕ) : (ℕ → AuthShare F) →ₗ[F] F where
  toFun sh := ∑ i ∈ range n, (sh i).share
  map_add' _ _ := sum_add_distrib
  map_smul' _ _ := (mul_sum _ _ _).symm

variable {n : ℕ}

theorem opening_congr {a b : ℕ → AuthShare F} (h : ∀ i < n, a i = b i) :
    opening n a = opening n b :=
  sum_congr rfl fun i hi => congrArg AuthShare.share (h i (mem_range.mp hi))

theorem opening_linear (m : ℕ) (c : ℕ → F) (sh : ℕ → ℕ → AuthShare F) :
    opening n (fun i => ∑ j ∈ range m, c j • sh i j)
      = ∑ j ∈ range m, c j • opening n fun i => sh i j := by
  have hfun : (fun i => ∑ j ∈ range m, c j • sh i j) = ∑ j ∈ range m, c j • fun i => sh i j := by
    funext i
    simp [Finset.sum_apply]
  rw [hfun, map_sum]
  simp only [map_smul]

theorem opening_zero : opening n (fun _ => (0 : AuthShare F)) = 0 := map_zero (opening n)

theorem opening_ite (p : Prop) [Decidable p] (a b : ℕ → AuthShare F) :
    opening n (fun i => if p then a i else b i) = if p then opening n a else opening n b := by
  by_cases hp : p
  · simp only [if_pos hp]
  · simp only [if_neg hp]

/-- The verifiers complete `h` at the first point of what the shares add up to. -/
theorem opening_polyH (m : ℕ) (z : ℕ → AuthShare F) (received : ℕ → ℕ → AuthShare F) (l : ℕ) :
    opening n (fun i => Verifier.polyH m (z i) (received i) l)
      = Verifier.polyH m (opening n z) (fun l => opening n fun i => received i l) l := by
  simp only [Verifier.polyH, opening_ite]
  refine if_congr Iff.rfl ?_ rfl
  have hfun : (fun i => z i - ∑ l ∈ range (m - 1), received i l)
      = z - ∑ l ∈ range (m - 1), fun i => received i l := by
    funext i
    simp [Finset.sum_apply]
  rw [hfun, map_sub, map_sum]

namespace CheckState

/-- The arrays that the shares of the verifiers add up to. -/
def opened (n : ℕ) (ver : ℕ → CheckState (AuthShare F)) : CheckState F where
  lenSlice := (ver 0).lenSlice
  valX p := opening n fun i => (ver i).valX p
  valY p := opening n fun i => (ver i).valY p
  valZ := opening n fun i => (ver i).valZ

variable {ver : ℕ → CheckState (AuthShare F)}

/-- **A fold, on what the shares add up to.** -/
theorem opened_fold (hlen : ∀ i < n, (ver i).lenSlice = (ver 0).lenSlice) (m : ℕ)
    (polyH : ℕ → ℕ → AuthShare F) (lag : (ℕ → F) × (ℕ → F)) :
    opened n (fun i => (ver i).fold m (polyH i) lag)
      = (opened n ver).fold m (fun l => opening n fun i => polyH i l) lag := by
  have hentry : ∀ (val : ℕ → ℕ → AuthShare F) (j : ℕ),
      opening n (fun i => if j < (ver i).lenSlice
          then ∑ l ∈ range m, lag.1 l • val i (l * (ver i).lenSlice + j) else 0)
        = if j < (ver 0).lenSlice
          then ∑ l ∈ range m, lag.1 l • opening n fun i => val i (l * (ver 0).lenSlice + j)
          else 0 := fun val j => by
    rw [← opening_linear, ← opening_zero (n := n), ← opening_ite]
    exact opening_congr fun i hi => by simp only [hlen i hi]
  rw [opened, fold]
  refine (mk.injEq ..).mpr ⟨rfl, funext (hentry _), funext (hentry _), ?_⟩
  exact opening_linear _ _ _

/-- **The last round, on what the shares add up to.** -/
theorem opened_lastRound (m : ℕ) (polyH : ℕ → ℕ → AuthShare F) (lag : (ℕ → F) × (ℕ → F))
    (xm ym : ℕ → AuthShare F) :
    (⟨opening n fun i => ((ver i).lastRound m (polyH i) lag (xm i) (ym i)).x,
      opening n fun i => ((ver i).lastRound m (polyH i) lag (xm i) (ym i)).y,
      opening n fun i => ((ver i).lastRound m (polyH i) lag (xm i) (ym i)).z⟩ : Triple F)
      = (opened n ver).lastRound m (fun l => opening n fun i => polyH i l) lag (opening n xm)
          (opening n ym) := by
  simp only [lastRound, opening_linear, withEntry, opening_ite]
  rfl

/-- **The combination, on what the shares add up to.** -/
theorem opened_combine (m cnt : ℕ) (shares : ℕ → ℕ → Triple (AuthShare F)) (chi : ℕ → F) :
    opened n (fun i => combine m cnt (fun j => (shares i j).x) (fun j => (shares i j).y)
        (fun j => (shares i j).z) chi)
      = combine m cnt (fun j => opening n fun i => (shares i j).x)
          (fun j => opening n fun i => (shares i j).y)
          (fun j => opening n fun i => (shares i j).z) chi := by
  have hsmul : ∀ (c : F) (a : ℕ → AuthShare F),
      opening n (fun i => c • a i) = c • opening n a := fun c a => map_smul (opening n) c a
  simp only [opened, combine, opening_ite, opening_zero, opening_linear, hsmul]

/-- What is missing in a combination. -/
theorem combine_missing {m : ℕ} (hm : 0 < m) (cnt : ℕ) (x y z chi : ℕ → F) :
    (combine m cnt x y z chi).valZ - (combine m cnt x y z chi).inner m
      = ∑ j ∈ range cnt, chi j * (z j - x j * y j) := by
  have hinner : (combine m cnt x y z chi).inner m = ∑ j ∈ range cnt, chi j * (x j * y j) := by
    refine (sum_subset (range_subset_range.mpr (le_slices_mul hm cnt)) fun p _ hp => ?_).symm.trans
      (sum_congr rfl fun j hj => ?_)
    · simp only [combine, if_neg fun hlt => hp (mem_range.mpr hlt), zero_mul]
    · simp only [combine, if_pos (mem_range.mp hj), smul_eq_mul, mul_assoc]
  rw [hinner]
  simp only [combine, smul_eq_mul, mul_sub, sum_sub_distrib]

end CheckState

end Opened

/-! ## Soundness -/

section Rounds

variable [Fintype F] [DecidableEq F] {st : CheckState F} {polyH : ℕ → F}

/-- Few challenges make a wrong claim right. -/
theorem card_fold_right_le {comp : Compress F} (hcomp : comp.Ok)
    (hsum : ∑ i ∈ range comp.m, polyH i = st.valZ) (hwrong : ¬st.Right comp.m) :
    #{r | (st.fold comp.m polyH (comp.computeLagCoeff r)).valZ
      = (st.fold comp.m polyH (comp.computeLagCoeff r)).inner comp.m} ≤ 2 * comp.m := by
  have hzeros : ∀ r, (st.fold comp.m polyH (comp.computeLagCoeff r)).valZ
      = (st.fold comp.m polyH (comp.computeLagCoeff r)).inner comp.m
      ↔ (foldDefect comp st polyH).eval r = 0 := fun r => by
    rw [← fold_missing hcomp, sub_eq_zero]
  have hne : st.valZ - st.inner comp.m ≠ 0 := sub_ne_zero.mpr hwrong
  rw [← sum_foldDefect hcomp hsum] at hne
  simp only [hzeros]
  exact card_zeros_le ((foldDefect_degree_lt hcomp polyH).trans_le (Nat.cast_le.mpr (by omega)))
    comp.lagEvalPoints hne

/-- Few challenges make a wrong claim pass the last round. -/
theorem card_lastRound_right_le {lag : Lagrange F} (hlag : lag.Ok)
    (hsum : ∑ i ∈ range lag.n, polyH i = st.valZ) (xm ym : F)
    (hwrong : st.valZ ≠ ∑ i ∈ range lag.n, st.valX i * st.valY i) :
    #{r | (st.lastRound lag.n polyH (lag.computeLagCoeff r) xm ym).z
      = (st.lastRound lag.n polyH (lag.computeLagCoeff r) xm ym).x
        * (st.lastRound lag.n polyH (lag.computeLagCoeff r) xm ym).y} ≤ 2 * lag.n := by
  have hzeros : ∀ r, (st.lastRound lag.n polyH (lag.computeLagCoeff r) xm ym).z
      = (st.lastRound lag.n polyH (lag.computeLagCoeff r) xm ym).x
        * (st.lastRound lag.n polyH (lag.computeLagCoeff r) xm ym).y
      ↔ (lastDefect lag (CheckState.withEntry lag.n st.valX xm)
          (CheckState.withEntry lag.n st.valY ym) polyH).eval r = 0 := fun r => by
    rw [← lastRound_missing hlag, sub_eq_zero]
  have hne := sub_ne_zero.mpr hwrong
  rw [← sum_lastDefect hlag hsum xm ym] at hne
  simp only [hzeros]
  exact card_zeros_le (lastDefect_degree_lt hlag _ _ _) Lagrange.evalPoints hne

end Rounds

namespace CheckRun

variable {σ : Type*} [DecidableEq F] (C : CheckConfig F) (P : CheckProver F σ)
  (deal : ℕ → ℕ → ℕ → F)

/-- The verifiers have as many slices, and there is one. -/
structure InStep (s : CheckRun F σ) : Prop where
  /-- As many at every verifier. -/
  lenSlice : ∀ i < C.n, (s.verifier i).lenSlice = (s.verifier 0).lenSlice
  /-- There is one. -/
  pos : 0 < (s.verifier 0).lenSlice

/-- What the verifiers hold after some challenges cannot be accepted any more, unless a challenge
puts it right: the claim is wrong, or the check is over and they do not accept. -/
def Wrong (s : CheckRun F σ) : List F → Prop
  | [] => ¬(CheckState.opened C.n s.verifier).Right C.comp.m
  | r :: rs =>
    if ∀ i < C.n, s.More C i then ∀ s', round C P s r = some s' → Wrong s' rs
    else if ∃ i < C.n, s.More C i then True
    else ∀ sh, lastRound C P s r = some sh → openAndCheck C.n C.delta deal sh = false

variable {C P deal}

theorem not_accepts_of_wrong {s : CheckRun F σ} {rs : List F} (h : Wrong C P deal s rs) :
    accepts C P deal s rs = false := by
  induction rs generalizing s with
  | nil => rfl
  | cons r rs ih =>
    rw [accepts, verify]
    rw [Wrong] at h
    split at h
    next hmore =>
      rw [if_pos hmore]
      cases hs' : round C P s r with
      | none => rfl
      | some s' => exact ih (h s' hs')
    next hmore =>
      rw [if_neg hmore]
      split at h
      next hsome =>
        rw [if_pos hsome]
        rfl
      next hsome =>
        rw [if_neg hsome]
        cases hsh : lastRound C P s r with
        | none => rfl
        | some sh => exact h sh hsh

/-- **A folding round, on what the shares add up to.** -/
theorem opened_round {s s' : CheckRun F σ} (h : s.InStep C) {r : F}
    (hs' : round C P s r = some s') :
    CheckState.opened C.n s'.verifier
      = (CheckState.opened C.n s.verifier).fold C.comp.m
          (Verifier.polyH C.comp.m (CheckState.opened C.n s.verifier).valZ fun l =>
            opening C.n fun i => (s.receive C i (2 * C.comp.m - 2) (P.fold s.prover)).1 l)
          (C.comp.computeLagCoeff r) := by
  rw [round] at hs'
  split at hs'
  · cases hs'
  · cases hs'
    rw [CheckState.opened_fold h.lenSlice]
    simp only [opening_polyH]
    rfl

/-- **The last round, on what the shares add up to.** -/
theorem opened_last {s : CheckRun F σ} {r : F} {sh : ℕ → Triple (AuthShare F)}
    (hsh : lastRound C P s r = some sh) :
    (⟨opening C.n fun i => (sh i).x, opening C.n fun i => (sh i).y,
        opening C.n fun i => (sh i).z⟩ : Triple F)
      = (CheckState.opened C.n s.verifier).lastRound C.comp.m
          (Verifier.polyH C.comp.m (CheckState.opened C.n s.verifier).valZ fun l =>
            opening C.n fun i => (s.receive C i (2 * C.comp.m + 2) (P.last s.prover)).1 l)
          (C.lagrange.computeLagCoeff r)
          (opening C.n fun i =>
            (s.receive C i (2 * C.comp.m + 2) (P.last s.prover)).1 (2 * C.comp.m))
          (opening C.n fun i =>
            (s.receive C i (2 * C.comp.m + 2) (P.last s.prover)).1 (2 * C.comp.m + 1)) := by
  rw [lastRound] at hsh
  split at hsh
  · cases hsh
  · cases hsh
    rw [CheckState.opened_lastRound]
    simp only [opening_polyH]
    rfl

theorem InStep.round {s s' : CheckRun F σ} (h : s.InStep C) (hm : 0 < C.comp.m) {r : F}
    (hs' : round C P s r = some s') : s'.InStep C := by
  have hlen : ∀ i, (s'.verifier i).lenSlice
      = ((s.verifier i).lenSlice + C.comp.m - 1) / C.comp.m := fun i => by
    rw [CheckRun.round] at hs'
    split at hs'
    · cases hs'
    · cases hs'
      rfl
  refine ⟨fun i hi => by rw [hlen, hlen, h.lenSlice i hi], ?_⟩
  have hpos := h.pos
  rw [hlen, Nat.div_pos_iff]
  omega

/-- The opened triple is a product, if the verifiers accept. -/
theorem right_of_openAndCheck {n : ℕ} {delta : ℕ → F} {sh : ℕ → Triple (AuthShare F)}
    (h : openAndCheck n delta deal sh = true) :
    opening n (fun i => (sh i).z) = (opening n fun i => (sh i).x) * opening n fun i => (sh i).y :=
  (of_decide_eq_true h).2

section Count

variable [Fintype F] (hcomp : C.comp.Ok) (hlag : C.lagrange.Ok) (hn : 0 < C.n)
  (hlagN : C.lagrange.n = C.comp.m)
include hcomp hlag hn hlagN

open Classical in
/-- **Few challenges put right what is wrong.** -/
theorem card_right_le {s : CheckRun F σ} (h : s.InStep C) (seen : List F)
    (hwrong : Wrong C P deal s seen) :
    #{r | ¬Wrong C P deal s (seen ++ [r])} ≤ 2 * C.comp.m := by
  have hm := comp_m_pos hcomp
  induction seen generalizing s with
  | nil =>
    simp only [List.nil_append, Wrong]
    by_cases hmore : ∀ i < C.n, s.More C i
    · simp only [if_pos hmore]
      have hcount := card_fold_right_le hcomp (Verifier.sum_polyH hm
        (CheckState.opened C.n s.verifier).valZ fun l =>
          opening C.n fun i => (s.receive C i (2 * C.comp.m - 2) (P.fold s.prover)).1 l) hwrong
      refine (card_le_card fun r hr => ?_).trans hcount
      obtain ⟨s', hs', hright⟩ := not_forall₂.mp (mem_filter.mp hr).2
      rw [not_not, opened_round h hs'] at hright
      exact mem_filter.mpr ⟨mem_univ r, hright⟩
    · simp only [if_neg hmore]
      by_cases hsome : ∃ i < C.n, s.More C i
      · simp [if_pos hsome]
      · simp only [if_neg hsome]
        -- with one slice, the inner product is the one of the last round
        have hone : (s.verifier 0).lenSlice = 1 := by
          have hle := Nat.le_of_not_lt fun hlt => hsome ⟨0, hn, hlt⟩
          exact Nat.le_antisymm (Nat.le_of_mul_le_mul_right (by rwa [Nat.one_mul]) hm) h.pos
        have hlast : (CheckState.opened C.n s.verifier).valZ
            ≠ ∑ i ∈ range C.lagrange.n, (CheckState.opened C.n s.verifier).valX i
              * (CheckState.opened C.n s.verifier).valY i := fun heq => hwrong (by
          rw [CheckState.Right, CheckState.inner]
          show _ = ∑ p ∈ range ((s.verifier 0).lenSlice * C.comp.m), _
          rw [hone, Nat.one_mul, ← hlagN]
          exact heq)
        have hcount := fun received : ℕ → ℕ → AuthShare F => card_lastRound_right_le hlag
          (Verifier.sum_polyH (hlagN ▸ hm) (CheckState.opened C.n s.verifier).valZ fun l =>
            opening C.n fun i => received i l)
          (opening C.n fun i => received i (2 * C.comp.m))
          (opening C.n fun i => received i (2 * C.comp.m + 1)) hlast
        rw [hlagN] at hcount
        refine (card_le_card fun r hr => ?_).trans
          (hcount fun i => (s.receive C i (2 * C.comp.m + 2) (P.last s.prover)).1)
        obtain ⟨sh, hsh, hacc⟩ := not_forall₂.mp (mem_filter.mp hr).2
        have hright := right_of_openAndCheck (Bool.eq_true_of_not_eq_false hacc)
        refine mem_filter.mpr ⟨mem_univ r, ?_⟩
        rw [← opened_last hsh]
        exact hright
  | cons r₀ seen ih =>
    simp only [List.cons_append, Wrong] at hwrong ⊢
    by_cases hmore : ∀ i < C.n, s.More C i
    · simp only [if_pos hmore] at hwrong ⊢
      cases hs' : round C P s r₀ with
      | none => simp
      | some s' => simpa [hs'] using ih (h.round hm hs') (hwrong s' hs')
    · simp only [if_neg hmore] at hwrong ⊢
      by_cases hsome : ∃ i < C.n, s.More C i
      · simp [if_pos hsome]
      · simp only [if_neg hsome] at hwrong ⊢
        rw [filter_eq_empty_iff.mpr fun r _ hr => hr hwrong, card_empty]
        exact Nat.zero_le _

variable (P deal) in
open Classical in
/-- **A wrong claim passes the rounds for few challenges.** -/
theorem card_accepts_le {s : CheckRun F σ} (h : s.InStep C)
    (hwrong : ¬(CheckState.opened C.n s.verifier).Right C.comp.m) (R : ℕ) :
    #{rs : Fin (R + 1) → F | accepts C P deal s (List.ofFn rs)}
      ≤ (R + 1) * (2 * C.comp.m) * Fintype.card F ^ R := by
  have hcount : #{rs : Fin (R + 1) → F | ¬Wrong C P deal s (List.ofFn rs)}
      ≤ (∑ _k ∈ range (R + 1), 2 * C.comp.m) * Fintype.card F ^ (R + 1 - 1) :=
    PublicCoin.card_saved_le hwrong fun seen _ hseen =>
      card_right_le hcomp hlag hn hlagN h seen hseen
  rw [sum_const, card_range, smul_eq_mul, Nat.add_sub_cancel] at hcount
  refine (card_le_card fun rs hrs => mem_filter.mpr ⟨mem_univ rs, ?_⟩).trans hcount
  intro hbad
  have hacc := (mem_filter.mp hrs).2
  rw [not_accepts_of_wrong hbad] at hacc
  cases hacc

end Count

end CheckRun

/-- The first coefficients of a stream. -/
def streamOf {cnt : ℕ} (chi : Fin cnt → F) (i : ℕ) : F := if h : i < cnt then chi ⟨i, h⟩ else 0

/-- **The check is sound.**  If what the verifiers recorded of one of `cnt` triples does not add up
to a product, then whatever the prover sends, seeing the coefficients and the challenges so far, for
at most `1 + (R + 1) · 2m` in `p` of the coefficients and of the challenges of `R + 1` rounds the
verifiers accept. -/
theorem CheckRun.check_sound {C : CheckConfig (ZMod P59)} {logM : ℕ}
    (hcomp : Compress.init logM = some C.comp) (hlag : Lagrange.init C.comp.m = some C.lagrange)
    (hn : 0 < C.n) {cnt : ℕ} (shares : ℕ → ℕ → Triple (AuthShare (ZMod P59)))
    (hwrong : ∃ j < cnt, ∑ i ∈ range C.n, (shares i j).z.share
      ≠ (∑ i ∈ range C.n, (shares i j).x.share) * ∑ i ∈ range C.n, (shares i j).y.share)
    {σ : Type*} (P : CheckProver (ZMod P59) σ) (prover : (Fin cnt → ZMod P59) → σ)
    (verifierPre : ℕ → PreAuth) (deal : ℕ → ℕ → ℕ → ZMod P59) (R : ℕ) :
    #{coins : (Fin cnt → ZMod P59) × (Fin (R + 1) → ZMod P59) |
        CheckRun.accepts C P deal
          (CheckRun.start C cnt shares verifierPre (streamOf coins.1) (prover coins.1))
          (List.ofFn coins.2)}
      ≤ (1 + (R + 1) * (2 * C.comp.m)) * P59 ^ (cnt + R) := by
  classical
  obtain ⟨-, -, hok, -, -⟩ := Compress.init_eq_some hcomp
  obtain ⟨hlagN, hlagOk⟩ := Lagrange.init_eq_some hlag
  have hm := comp_m_pos hok
  obtain ⟨j, hj, hwrong⟩ := hwrong
  obtain ⟨err, herr⟩ : ∃ err : ℕ → ZMod P59, err = fun j =>
      (opening C.n fun i => (shares i j).z)
        - (opening C.n fun i => (shares i j).x) * opening C.n fun i => (shares i j).y := ⟨_, rfl⟩
  have hne : err j ≠ 0 := by
    rw [herr]
    exact sub_ne_zero.mpr hwrong
  -- coefficients that do not hide the error leave a wrong claim
  have hclaim : ∀ chi : Fin cnt → ZMod P59, ¬∑ i, chi i * err i = 0 →
      ¬(CheckState.opened C.n (CheckRun.start C cnt shares verifierPre (streamOf chi)
        (prover chi)).verifier).Right C.comp.m := fun chi hchi hright => hchi (by
    have hmissing := sub_eq_zero.mpr hright
    rw [CheckRun.start, CheckState.opened_combine, CheckState.combine_missing hm] at hmissing
    rw [← hmissing, ← Fin.sum_univ_eq_sum_range fun j => streamOf chi j * _]
    refine sum_congr rfl fun i _ => ?_
    simp only [streamOf, dif_pos i.isLt, herr])
  have hstep : ∀ chi, (CheckRun.start C cnt shares verifierPre (streamOf chi)
      (prover chi)).InStep C := fun chi => ⟨fun _ _ => rfl, by
    show 0 < (cnt + C.comp.m - 1) / C.comp.m
    rw [Nat.div_pos_iff]
    omega⟩
  have hcard := ZMod.card P59
  calc _ ≤ #{chi : Fin cnt → ZMod P59 | ∑ i, chi i * err i = 0}
            * Fintype.card (Fin (R + 1) → ZMod P59)
          + Fintype.card (Fin cnt → ZMod P59) * ((R + 1) * (2 * C.comp.m) * P59 ^ R) :=
        PublicCoin.card_pairs_le _ fun chi hchi => by
          have h := CheckRun.card_accepts_le P deal hok hlagOk hn hlagN (hstep chi)
            (hclaim chi hchi) R
          rwa [hcard] at h
    _ ≤ P59 ^ (cnt - 1) * P59 ^ (R + 1) + P59 ^ cnt * ((R + 1) * (2 * C.comp.m) * P59 ^ R) := by
        have hle := PublicCoin.card_combinations_le Function.injective_id hj hne
        simp only [Fintype.card_fun, Fintype.card_fin, hcard, id] at hle ⊢
        exact Nat.add_le_add_right (Nat.mul_le_mul_right _ hle) _
    _ = (1 + (R + 1) * (2 * C.comp.m)) * P59 ^ (cnt + R) := by
        rw [← pow_add, show cnt - 1 + (R + 1) = cnt + R by omega, pow_add]
        ring

/-- Triples one of which is wrong. -/
def oneWrong (j : ℕ) : Triple (ZMod P59) := ⟨(2 : ℕ), (3 : ℕ), (if j = 7 then 7 else 6 : ℕ)⟩

/-- A prover that claims `2 * 3 = 7` to two verifiers in one of 20 triples, at the width of the
code, and whose differences depend on the first coefficient and the challenges so far: one folding
round, and the last one. -/
theorem CheckRun.check_sound_seven : ∃ comp lag, Compress.init 4 = some comp ∧
    Lagrange.init comp.m = some lag ∧
    #{coins : (Fin 20 → ZMod P59) × (Fin (1 + 1) → ZMod P59) |
        CheckRun.accepts (evenConfig 2 1 comp lag fun _ => 0)
          ⟨fun s l => s + l, fun s l => s * l, fun s r => s + r⟩ (fun l i j => l + 2 * i + j)
          (CheckRun.start (evenConfig 2 1 comp lag fun _ => 0) 20
            (fun i j => evenTriple 2 (oneWrong j) i) (fun _ => ⟨0, preAuthSharingNum⟩)
            (streamOf coins.1) (coins.1 0))
          (List.ofFn coins.2)}
      ≤ (1 + (1 + 1) * (2 * comp.m)) * P59 ^ (20 + 1) := by
  obtain ⟨comp, hcomp, lag, hlag⟩ := checkObjects_ok (by decide : 1 ≤ 4) (by decide)
  have hwrong : ∃ j < 20, ∑ i ∈ range 2, (evenTriple 2 (oneWrong j) i).z.share
      ≠ (∑ i ∈ range 2, (evenTriple 2 (oneWrong j) i).x.share)
        * ∑ i ∈ range 2, (evenTriple 2 (oneWrong j) i).y.share := by
    have hshared := sharedBy_evenTriple Nat.two_pos (oneWrong 7)
    refine ⟨7, by decide, ?_⟩
    rw [hshared.x.share_sum, hshared.y.share_sum, hshared.z.share_sum]
    decide +kernel
  exact ⟨comp, lag, hcomp, hlag, CheckRun.check_sound (C := evenConfig 2 1 comp lag fun _ => 0)
    hcomp hlag Nat.two_pos (fun i j => evenTriple 2 (oneWrong j) i) hwrong
    ⟨fun s l => s + l, fun s l => s * l, fun s r => s + r⟩ (fun chi => chi 0) _ _ 1⟩

end VoleZk.Mvzk
