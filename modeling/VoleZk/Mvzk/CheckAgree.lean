import VoleZk.Mvzk.CheckSound

/-!
# Prover and verifiers agree through the multiplication check

The arrays of the verifiers are shares of those of the prover at the start, and every round keeps
them so: a fold is linear, the values of `h` arrive as differences to preprocessed sharings, and
the value that the verifiers complete at the first point is the one the prover has there, for the
prover completed the last one so that all of them add up to `z`.  The parties refill their
preprocessed sharings at the same time, and a fold leaves fewer slices, until one is left.

## What is here

* `CheckState.SharedBy`, `Triple.SharedBy`, `CheckSession.Agree`, the invariant;
* `receive_shared`, `Verifier.polyH_shared` — **the verifiers' values of `h`**;
* `CheckSession.round_agree`, `CheckSession.lastRound_agree` — one round;
* `CheckSession.foldLoop_ends` — **the folding loop ends with one slice.**
-/

set_option autoImplicit false

open Finset

namespace VoleZk.Mvzk

variable {F : Type*} [Field F] {n : ℕ} {delta : ℕ → F}

/-! ## What is shared -/

/-- What all verifiers compute with the same coefficients is shared. -/
theorem Shared.linear {m : ℕ} {sh : ℕ → ℕ → AuthShare F} {val : ℕ → F} (c : ℕ → F)
    (h : ∀ j < m, Shared n delta (sh j) (val j)) :
    Shared n delta (fun i => ∑ j ∈ range m, c j • sh j i) (∑ j ∈ range m, c j • val j) :=
  Shared.sum fun j hj => (h j (mem_range.mp hj)).smul (c j)

/-- The arrays of the verifiers are shares of those of the prover. -/
structure CheckState.SharedBy (n : ℕ) (delta : ℕ → F) (ver : ℕ → CheckState (AuthShare F))
    (prv : CheckState F) : Prop where
  /-- They have as many slices. -/
  lenSlice : ∀ i < n, (ver i).lenSlice = prv.lenSlice
  /-- The left entries. -/
  valX : ∀ p, Shared n delta (fun i => (ver i).valX p) (prv.valX p)
  /-- The right entries. -/
  valY : ∀ p, Shared n delta (fun i => (ver i).valY p) (prv.valY p)
  /-- The claimed value. -/
  valZ : Shared n delta (fun i => (ver i).valZ) prv.valZ

/-- The verifiers hold shares of a triple. -/
structure Triple.SharedBy (n : ℕ) (delta : ℕ → F) (sh : ℕ → Triple (AuthShare F)) (t : Triple F) :
    Prop where
  /-- The left factor. -/
  x : Shared n delta (fun i => (sh i).x) t.x
  /-- The right factor. -/
  y : Shared n delta (fun i => (sh i).y) t.y
  /-- The claimed product. -/
  z : Shared n delta (fun i => (sh i).z) t.z

namespace CheckState

variable {ver : ℕ → CheckState (AuthShare F)} {prv : CheckState F}

theorem combine_shared (m cnt : ℕ) {shares : ℕ → ℕ → Triple (AuthShare F)} {triples : ℕ → Triple F}
    (h : ∀ j < cnt, Triple.SharedBy n delta (fun i => shares i j) (triples j)) (chi : ℕ → F) :
    SharedBy n delta
      (fun i => combine m cnt (fun j => (shares i j).x) (fun j => (shares i j).y)
        (fun j => (shares i j).z) chi)
      (combine m cnt (fun j => (triples j).x) (fun j => (triples j).y) (fun j => (triples j).z)
        chi) where
  lenSlice _ _ := rfl
  valX p := by
    simp only [combine]
    by_cases hp : p < cnt
    · simp only [if_pos hp]
      exact (h p hp).x.smul (chi p)
    · simp only [if_neg hp]
      exact Shared.zero
  valY p := by
    simp only [combine]
    by_cases hp : p < cnt
    · simp only [if_pos hp]
      exact (h p hp).y
    · simp only [if_neg hp]
      exact Shared.zero
  valZ := Shared.linear chi fun j hj => (h j hj).z

/-- The folded entries, of either array. -/
theorem foldEntry_shared (m : ℕ) {len : ℕ} {verLen : ℕ → ℕ} (hlen : ∀ i < n, verLen i = len)
    {verVal : ℕ → ℕ → AuthShare F} {val : ℕ → F}
    (h : ∀ p, Shared n delta (fun i => verVal i p) (val p)) (c : ℕ → F) (j : ℕ) :
    Shared n delta
      (fun i => if j < verLen i then ∑ l ∈ range m, c l • verVal i (l * verLen i + j) else 0)
      (if j < len then ∑ l ∈ range m, c l • val (l * len + j) else 0) := by
  have hfold : Shared n delta
      (fun i => if j < len then ∑ l ∈ range m, c l • verVal i (l * len + j) else 0)
      (if j < len then ∑ l ∈ range m, c l • val (l * len + j) else 0) := by
    by_cases hj : j < len
    · simp only [if_pos hj]
      exact Shared.linear c fun l _ => h (l * len + j)
    · simp only [if_neg hj]
      exact Shared.zero
  exact hfold.congr fun i hi => by rw [hlen i hi]

/-- **A fold keeps the arrays shared**, if the values of `h` are. -/
theorem fold_shared (h : SharedBy n delta ver prv) {m : ℕ} {verH : ℕ → ℕ → AuthShare F}
    {polyH : ℕ → F} (hH : ∀ i < 2 * m - 1, Shared n delta (fun v => verH v i) (polyH i))
    (lag : (ℕ → F) × (ℕ → F)) :
    SharedBy n delta (fun i => (ver i).fold m (verH i) lag) (prv.fold m polyH lag) where
  lenSlice i hi := by simp only [fold, h.lenSlice i hi]
  valX := foldEntry_shared m h.lenSlice h.valX lag.1
  valY := foldEntry_shared m h.lenSlice h.valY lag.1
  valZ := Shared.linear lag.2 hH

theorem withEntry_shared (m : ℕ) {verVal : ℕ → ℕ → AuthShare F} {val : ℕ → F}
    (h : ∀ p, Shared n delta (fun i => verVal i p) (val p)) {verV : ℕ → AuthShare F} {v : F}
    (hv : Shared n delta verV v) (p : ℕ) :
    Shared n delta (fun i => withEntry m (verVal i) (verV i) p) (withEntry m val v p) := by
  simp only [withEntry]
  by_cases hp : p = m
  · simp only [if_pos hp]
    exact hv
  · simp only [if_neg hp]
    exact h p

/-- **The last round keeps them shared.** -/
theorem lastRound_shared (h : SharedBy n delta ver prv) {m : ℕ} {verH : ℕ → ℕ → AuthShare F}
    {polyH : ℕ → F} (hH : ∀ i < 2 * m + 1, Shared n delta (fun v => verH v i) (polyH i))
    {verX verY : ℕ → AuthShare F} {xm ym : F} (hx : Shared n delta verX xm)
    (hy : Shared n delta verY ym) (lag : (ℕ → F) × (ℕ → F)) :
    Triple.SharedBy n delta (fun i => (ver i).lastRound m (verH i) lag (verX i) (verY i))
      (prv.lastRound m polyH lag xm ym) where
  x := Shared.linear lag.1 fun j _ => withEntry_shared m h.valX hx j
  y := Shared.linear lag.1 fun j _ => withEntry_shared m h.valY hy j
  z := Shared.linear lag.2 hH

end CheckState

/-! ## Preprocessed sharings -/

theorem PreAuth.ensure_ensure {num : ℕ} (h : num ≤ preAuthSharingNum) (p : PreAuth) :
    (p.ensure num).ensure num = p.ensure num := by
  have hle : ¬ (p.ensure num).ptr + num > preAuthSharingNum := by
    rw [ensure]
    split
    · show ¬ 0 + num > preAuthSharingNum
      omega
    · assumption
  rw [ensure, if_neg hle]

theorem PreAuth.ensure_le {num : ℕ} (h : num ≤ preAuthSharingNum) (p : PreAuth) :
    (p.ensure num).ptr + num ≤ preAuthSharingNum := by
  rw [ensure]
  split
  · show 0 + num ≤ preAuthSharingNum
    omega
  · omega

/-- A difference to a shared value, added by verifier 0, gives shares of the new value. -/
theorem shared_of_diff (hn : 0 < n) {pre : ℕ → AuthShare F} {u : F} (hpre : Shared n delta pre u)
    (v : F) :
    Shared n delta (fun i =>
      { mac := (pre i).mac
        key := (pre i).key - (v - u) * delta i
        share := if i = 0 then v - u + (pre i).share else (pre i).share }) v where
  share_sum := by
    have hsplit : ∀ i, (if i = 0 then v - u + (pre i).share else (pre i).share)
        = (pre i).share + if i = 0 then v - u else 0 := fun i => by
      split
      · exact add_comm _ _
      · exact (add_zero _).symm
    simp only [hsplit]
    rw [sum_add_distrib, hpre.share_sum, sum_ite_eq_of_mem' _ _ _ (mem_range.mpr hn)]
    exact add_sub_cancel _ _
  mac_sum := by
    show ∑ i ∈ range n, (pre i).mac
      = ∑ i ∈ range n, ((pre i).key - (v - u) * delta i) + (∑ i ∈ range n, delta i) * v
    rw [hpre.mac_sum, sum_sub_distrib, ← mul_sum]
    ring

/-- The preprocessed shares of the verifiers are shares of the prover's secrets. -/
def CheckConfig.PreShared (C : CheckConfig F) : Prop :=
  ∀ r, ∀ i < C.k * preAuthSharingNum,
    Shared C.n C.delta (fun v => C.preAuthShares v r i) (C.preAuthSharing r i)

/-- The values of `h` of the verifiers: completed at the first point, and received at the
others. -/
theorem Verifier.polyH_shared {m cnt : ℕ} (hm : 0 < m) (hcnt : m ≤ cnt) {polyH : ℕ → F} {z : F}
    (hsum : ∑ i ∈ range m, polyH i = z) {verZ : ℕ → AuthShare F} (hz : Shared n delta verZ z)
    {received : ℕ → ℕ → AuthShare F}
    (hrec : ∀ l, l + 1 < cnt → Shared n delta (fun v => received v l) (polyH (l + 1))) {i : ℕ}
    (hi : i < cnt) :
    Shared n delta (fun v => Verifier.polyH m (verZ v) (received v) i) (polyH i) := by
  cases i with
  | zero =>
    have hfirst : polyH 0 = z - ∑ l ∈ range (m - 1), polyH (l + 1) := by
      obtain ⟨m, rfl⟩ := Nat.exists_eq_succ_of_ne_zero hm.ne'
      rw [← hsum, sum_range_succ', Nat.succ_eq_add_one, Nat.add_sub_cancel, add_sub_cancel_left]
    simp only [Verifier.polyH, if_true]
    rw [hfirst]
    refine hz.sub (Shared.sum fun l hl => hrec l ?_)
    have := mem_range.mp hl
    omega
  | succ i =>
    simp only [Verifier.polyH, Nat.succ_ne_zero, if_false, Nat.add_sub_cancel]
    exact hrec i hi

/-- The prover completes the values of `h` at the base points to the claim. -/
theorem Prover.sum_polyH {comp : Compress F} (hm : 0 < comp.m) (st : CheckState F) :
    ∑ i ∈ range comp.m, Prover.polyH comp st i = st.valZ := by
  obtain ⟨m, hm'⟩ := Nat.exists_eq_succ_of_ne_zero hm.ne'
  have hlow : ∀ i ∈ range m, Prover.polyH comp st i = Prover.sliceProd st i := fun i hi => by
    have := mem_range.mp hi
    rw [Prover.polyH, if_pos (by omega)]
  have hlast : Prover.polyH comp st m = st.valZ - ∑ l ∈ range m, Prover.sliceProd st l := by
    rw [Prover.polyH, if_neg (by omega), if_pos (by omega), hm', Nat.succ_eq_add_one,
      Nat.add_sub_cancel]
  rw [hm', sum_range_succ, sum_congr rfl hlow, hlast, add_sub_cancel]

theorem Prover.sum_lastPolyH (lag : Lagrange F) {m : ℕ} (hm : 0 < m) (valX valY : ℕ → F)
    (valZ : F) : ∑ i ∈ range m, Prover.lastPolyH lag m valX valY valZ i = valZ := by
  obtain ⟨m, rfl⟩ := Nat.exists_eq_succ_of_ne_zero hm.ne'
  have hlow : ∀ i ∈ range m, Prover.lastPolyH lag m.succ valX valY valZ i = valX i * valY i :=
    fun i hi => by
      have := mem_range.mp hi
      rw [Prover.lastPolyH, if_pos (by omega)]
  have hlast : Prover.lastPolyH lag m.succ valX valY valZ m
      = valZ - ∑ l ∈ range m, valX l * valY l := by
    rw [Prover.lastPolyH, if_neg (by omega), if_pos rfl, Nat.succ_eq_add_one, Nat.add_sub_cancel]
  rw [sum_range_succ, sum_congr rfl hlow, hlast, add_sub_cancel]

/-! ## The session -/

/-- The number of slices after a fold. -/
theorem fold_lenSlice_lt {m len : ℕ} (hm : 2 ≤ m) (hlen : 2 ≤ len) :
    1 ≤ (len + m - 1) / m ∧ (len + m - 1) / m < len := by
  have hmul : 2 * m ≤ len * m := Nat.mul_le_mul_right m hlen
  have htwo : len * 2 ≤ len * m := Nat.mul_le_mul_left len hm
  constructor
  · rw [Nat.one_le_div_iff (by omega)]
    omega
  · rw [Nat.div_lt_iff_lt_mul (by omega)]
    omega

namespace CheckSession

variable {C : CheckConfig F} {s : CheckSession F}

/-- **Prover and verifiers agree.** -/
structure Agree (C : CheckConfig F) (s : CheckSession F) : Prop where
  /-- The arrays are shared. -/
  arrays : CheckState.SharedBy C.n C.delta s.verifier s.prover
  /-- As many preprocessed sharings are used up. -/
  pre : ∀ i < C.n, s.verifierPre i = s.proverPre

theorem start_agree {cnt : ℕ} {triples : ℕ → Triple F} {shares : ℕ → ℕ → Triple (AuthShare F)}
    (h : ∀ j < cnt, Triple.SharedBy C.n C.delta (fun i => shares i j) (triples j))
    {proverPre : PreAuth} {verifierPre : ℕ → PreAuth}
    (hpre : ∀ i < C.n, verifierPre i = proverPre) :
    (start C cnt triples shares proverPre verifierPre).Agree C where
  arrays := CheckState.combine_shared C.comp.m cnt h C.randStream
  pre := hpre

section Receive

variable (hn : 0 < C.n) (hk : 0 < C.k) (hpre : C.PreShared) (h : s.Agree C)
include hn hk hpre h

/-- **What the verifiers receive is shared**, and they use up what the prover uses up. -/
theorem receive_shared {len : ℕ} (hfits : C.Fits len) (vals : ℕ → F) :
    (∀ l < len, Shared C.n C.delta
      (fun i => (s.receive C i len
        (Prover.genAddSharesDiff C.k C.preAuthSharing vals len s.proverPre).1).1 l) (vals l)) ∧
    ∀ i < C.n, (s.receive C i len
        (Prover.genAddSharesDiff C.k C.preAuthSharing vals len s.proverPre).1).2
      = (Prover.genAddSharesDiff C.k C.preAuthSharing vals len s.proverPre).2 := by
  have hensure : ∀ i < C.n, ((s.verifierPre i).ensure ((len + C.k - 1) / C.k)).ensure
      ((len + C.k - 1) / C.k) = s.proverPre.ensure ((len + C.k - 1) / C.k) := fun i hi => by
    rw [PreAuth.ensure_ensure hfits, h.pre i hi]
  constructor
  · intro l hl
    have hbatch : l < C.k * ((len + C.k - 1) / C.k) := by
      have := le_slices_mul hk len
      rw [mul_comm]
      omega
    have hle := PreAuth.ensure_le hfits s.proverPre
    have hin : C.k * (s.proverPre.ensure ((len + C.k - 1) / C.k)).ptr + l
        < C.k * preAuthSharingNum := by
      have := Nat.mul_le_mul_left C.k hle
      rw [Nat.mul_add] at this
      omega
    have hold := hpre (s.proverPre.ensure ((len + C.k - 1) / C.k)).refills _ hin
    refine (shared_of_diff hn hold (vals l)).congr fun i hi => ?_
    simp only [receive, Verifier.genAddSharesFromDiff, Prover.genAddSharesDiff, hensure i hi]
  · intro i hi
    simp only [receive, Verifier.genAddSharesFromDiff, Prover.genAddSharesDiff, hensure i hi]

variable [DecidableEq F] (hm : 0 < C.comp.m)
include hm

/-- **A folding round keeps the agreement.** -/
theorem round_agree (hfits : C.Fits (2 * C.comp.m - 2))
    (hr : ¬ C.comp.IsInterpolationPoint (C.challenge s.rounds)) :
    ∃ s', round C s = some s' ∧ s'.Agree C ∧ s'.rounds = s.rounds + 1
      ∧ s'.prover = s.prover.fold C.comp.m (Prover.polyH C.comp s.prover)
          (C.comp.computeLagCoeff (C.challenge s.rounds)) := by
  obtain ⟨hrec, hused⟩ := receive_shared hn hk hpre h hfits
    fun i => Prover.polyH C.comp s.prover (i + 1)
  have hsum := Prover.sum_polyH hm s.prover
  refine ⟨_, if_neg (not_or.mpr ⟨not_not.mpr hfits, hr⟩), ⟨?_, hused⟩, rfl, rfl⟩
  refine CheckState.fold_shared h.arrays (fun i hi => ?_) _
  exact Verifier.polyH_shared hm (by omega) hsum h.arrays.valZ
    (fun l hl => hrec l (by omega)) hi

/-- **The last round keeps the agreement.** -/
theorem lastRound_agree (hfits : C.Fits (2 * C.comp.m + 2))
    (hr : ¬ C.comp.IsInterpolationPoint (C.challenge s.rounds))
    (hlast : ¬ C.lagrange.IsInterpolationPoint (C.challenge s.rounds)) :
    ∃ res, lastRound C s = some res ∧ Triple.SharedBy C.n C.delta res.verifier res.prover
      ∧ (∀ i < C.n, res.verifierPre i = res.proverPre)
      ∧ res.prover = s.prover.lastRound C.comp.m
          (Prover.lastPolyH C.lagrange C.comp.m
            (CheckState.withEntry C.comp.m s.prover.valX C.mask.1)
            (CheckState.withEntry C.comp.m s.prover.valY C.mask.2) s.prover.valZ)
          (C.lagrange.computeLagCoeff (C.challenge s.rounds)) C.mask.1 C.mask.2 := by
  obtain ⟨polyH, hpolyH⟩ : ∃ polyH, polyH = Prover.lastPolyH C.lagrange C.comp.m
      (CheckState.withEntry C.comp.m s.prover.valX C.mask.1)
      (CheckState.withEntry C.comp.m s.prover.valY C.mask.2) s.prover.valZ := ⟨_, rfl⟩
  obtain ⟨vals, hvals⟩ : ∃ vals : ℕ → F, vals = fun i =>
      if i < 2 * C.comp.m then polyH (i + 1)
      else if i = 2 * C.comp.m then CheckState.withEntry C.comp.m s.prover.valX C.mask.1 C.comp.m
      else CheckState.withEntry C.comp.m s.prover.valY C.mask.2 C.comp.m := ⟨_, rfl⟩
  have hvalH : ∀ l < 2 * C.comp.m, vals l = polyH (l + 1) := fun l hl => by
    simp only [hvals, if_pos hl]
  have hvalX : vals (2 * C.comp.m) = C.mask.1 := by
    simp only [hvals, lt_irrefl, if_false, if_true, CheckState.withEntry]
  have hvalY : vals (2 * C.comp.m + 1) = C.mask.2 := by
    have hlt : ¬ 2 * C.comp.m + 1 < 2 * C.comp.m := by omega
    simp only [hvals, hlt, Nat.succ_ne_self, if_false, if_true, CheckState.withEntry]
  obtain ⟨hrec, hused⟩ := receive_shared hn hk hpre h hfits vals
  have hsum : ∑ i ∈ range C.comp.m, polyH i = s.prover.valZ :=
    hpolyH ▸ Prover.sum_lastPolyH C.lagrange hm _ _ _
  have hH : ∀ l, l + 1 < 2 * C.comp.m + 1 → Shared C.n C.delta (fun i => (s.receive C i
      (2 * C.comp.m + 2) (Prover.genAddSharesDiff C.k C.preAuthSharing vals (2 * C.comp.m + 2)
        s.proverPre).1).1 l) (polyH (l + 1)) := fun l hl => by
    rw [← hvalH l (by omega)]
    exact hrec l (by omega)
  have hx := hrec (2 * C.comp.m) (by omega)
  have hy := hrec (2 * C.comp.m + 1) (by omega)
  rw [hvalX] at hx
  rw [hvalY] at hy
  subst hvals hpolyH
  refine ⟨_, if_neg (not_or.mpr ⟨not_not.mpr hfits, not_or.mpr ⟨hr, hlast⟩⟩), ?_, hused, rfl⟩
  exact CheckState.lastRound_shared h.arrays
    (fun i hi => Verifier.polyH_shared hm (by omega) hsum h.arrays.valZ hH hi) hx hy _

end Receive

variable [DecidableEq F]

section Loop

variable (h : s.Agree C)
include h

/-- With more than one slice, all parties fold. -/
theorem foldLoop_fold (hm : 0 < C.comp.m) (hlen : 2 ≤ s.prover.lenSlice) (fuel : ℕ) :
    foldLoop C s (fuel + 1) = (round C s).bind fun s => foldLoop C s fuel := by
  have hmore : s.prover.lenSlice * C.comp.m > C.comp.m := by
    have := Nat.mul_le_mul_right C.comp.m hlen
    omega
  rw [foldLoop, if_pos ⟨hmore, fun i hi => by rw [h.arrays.lenSlice i hi]; exact hmore⟩]

/-- With one slice, all parties leave the loop. -/
theorem foldLoop_done (hlen : s.prover.lenSlice = 1) (fuel : ℕ) :
    foldLoop C s (fuel + 1) = some s := by
  have hdone : ∀ {len}, len = 1 → ¬ len * C.comp.m > C.comp.m := by
    rintro len rfl
    omega
  have hnone : ¬ (s.prover.lenSlice * C.comp.m > C.comp.m
      ∨ ∃ i < C.n, (s.verifier i).lenSlice * C.comp.m > C.comp.m) := by
    rintro (hmore | ⟨i, hi, hmore⟩)
    · exact hdone hlen hmore
    · exact hdone ((h.arrays.lenSlice i hi).trans hlen) hmore
  rw [foldLoop, if_neg fun hall => hnone (Or.inl hall.1), if_neg hnone]

end Loop

/-- **The folding loop ends, with one slice**, and keeps what every round keeps. -/
theorem foldLoop_ends (hm : 2 ≤ C.comp.m) {Inv : CheckSession F → Prop}
    (hagree : ∀ s, Inv s → s.Agree C)
    (hround : ∀ s, Inv s → ∃ s', round C s = some s' ∧ Inv s' ∧
      s'.prover.lenSlice = (s.prover.lenSlice + C.comp.m - 1) / C.comp.m) :
    ∀ (fuel : ℕ) (s : CheckSession F), Inv s → 1 ≤ s.prover.lenSlice → s.prover.lenSlice ≤ fuel →
      ∃ s', foldLoop C s fuel = some s' ∧ Inv s' ∧ s'.prover.lenSlice = 1 := by
  intro fuel
  induction fuel with
  | zero =>
    intro s _ hpos hle
    omega
  | succ fuel ih =>
    intro s hs hpos hle
    rcases Nat.eq_or_lt_of_le hpos with hone | htwo
    · exact ⟨s, foldLoop_done (hagree s hs) hone.symm fuel, hs, hone.symm⟩
    · obtain ⟨s', hs', hinv, hlen⟩ := hround s hs
      obtain ⟨hpos', hlt⟩ := fold_lenSlice_lt hm htwo
      rw [foldLoop_fold (hagree s hs) (by omega) htwo, hs']
      exact ih s' hinv (by omega) (by omega)

end CheckSession

/-! ## Parties that are set up -/

/-- The parties are set up for a check of width `2 ^ logM`, and no challenge of a folding round is
an interpolation point. -/
structure CheckConfig.Ok (C : CheckConfig (ZMod P59)) (logM : ℕ) : Prop where
  /-- There are verifiers. -/
  n_pos : 0 < C.n
  /-- A packed sharing holds values. -/
  k_pos : 0 < C.k
  /-- The folding rounds. -/
  comp : Compress.init logM = some C.comp
  /-- The last round. -/
  lagrange : Lagrange.init C.comp.m = some C.lagrange
  /-- The values of a round fit the preprocessed sharings of a refill. -/
  fits : 2 * C.comp.m + 2 ≤ C.k * preAuthSharingNum
  /-- The preprocessed sharings are shared. -/
  preShared : C.PreShared
  /-- The challenges. -/
  challenge : ∀ t, ¬ C.comp.IsInterpolationPoint (C.challenge t)

theorem CheckConfig.Ok.fits_of_le {C : CheckConfig (ZMod P59)} {logM : ℕ} (hC : C.Ok logM) {len : ℕ}
    (hlen : len ≤ 2 * C.comp.m + 2) : C.Fits len := by
  have hk := hC.k_pos
  have hfits := hC.fits
  rw [Fits, Nat.div_le_iff_le_mul_add_pred hk]
  omega

end VoleZk.Mvzk
