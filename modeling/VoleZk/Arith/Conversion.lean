import VoleZk.Arith.ArithToBool

/-!
# Conversion between wires and labels, for honest parties

The way back: `x` on wires is masked by subtracting the wires of an edabit `r`, the difference is
revealed and added to the label of `r`.  On the wires the difference is taken modulo `2 ^ 62`, and
`PR` is added when its sign is set; on the label it is a residue that the verifier subtracts times
the key.

## What is here

* `EdaBits.bool2arith`, `EdaBits.bool2arithBulk`, and `EdaBits.bool2arithBulk_eq` — the bulk
  conversion is the scalar one, element by element;
* `toNat_diffBool` — the difference is the canonical residue of `x - r`;
* `Label.Holds.bool2arith`, `Label.Holds.arith2bool` — one conversion in each direction;
* `conversion_exact` — **the conversions are exact and undo each other**, one by one and in bulk.
-/

set_option autoImplicit false

namespace VoleZk

/-! ## The difference -/

/-- The wires that are opened: those of `x` less those of `r`, and `PR` more if bit 61 is set. -/
def diffBool (x r : ZKInt62) : ZKInt62 :=
  let d := x - r
  if d.getLsbD 61 then d + intBooPr else d

/-- The word a `ZKInt` is revealed as: a signed number, kept as 64 bits. -/
def revealWord (d : ZKInt62) : ℕ := (d.signExtend 64).toNat

/-- `intfp_add_const`. -/
def intfpAddConst (F : FpOps) (deltaFp : ℕ) (a : Label) (b : ℕ) : Label where
  prover := ⟨F.addMod a.prover.val b, a.prover.mac⟩
  verifier := ⟨0, F.addMod a.verifier.mac (PR - F.multMod b deltaFp)⟩

/-- Unmask the wires of `x` with the edabit of label `cand` and wires `r`. -/
def unmaskOne (F : FpOps) (deltaFp : ℕ) (cand : Label) (d : ZKInt62) : Label :=
  intfpAddConst F deltaFp cand (revealWord d)

namespace EdaBits

variable {P : EdaBitsParams}

/-! ## Conversion to a label -/

/-- `bool2arith`. -/
def bool2arith (F : FpOps) (s : EdaBits P) (x : ZKInt62) : EdaBits P × Label :=
  let (s, edabF2, edabFp) := s.nextEdabits
  let d := diffBool x (s.boolCandidate edabF2)
  (s, unmaskOne F s.deltaFp (s.arithCandidate edabFp) d)

/-- The first loop of a chunk: an edabit for each element, the wires to open and the index of its
label. -/
def diffChunk : EdaBits P → List ZKInt62 → EdaBits P × List (ZKInt62 × ℕ)
  | s, [] => (s, [])
  | s, x :: xs =>
    let (s, edabF2, edabFp) := s.nextEdabits
    let d := diffBool x (s.boolCandidate edabF2)
    let (s, rest) := diffChunk s xs
    (s, (d, edabFp) :: rest)

/-- The bulk `bool2arith`.  The labels of a chunk are read after all its edabits have been drawn. -/
def bool2arithBulk (F : FpOps) (s : EdaBits P) (xs : List ZKInt62) : EdaBits P × List Label :=
  if _h : xs = [] then (s, [])
  else
    let num := min xs.length s.avail
    let (s', diffs) := diffChunk s (xs.take num)
    let outs := diffs.map fun m => unmaskOne F s'.deltaFp (s'.arithCandidate m.2) m.1
    let (s'', rest) := bool2arithBulk F s' (xs.drop num)
    (s'', outs ++ rest)
termination_by xs.length
decreasing_by
  have hx : 0 < xs.length := List.length_pos_iff.mpr _h
  have ha := s.avail_pos
  rw [List.length_drop]
  omega

/-! ## The bulk conversion is the scalar one -/

theorem bool2arith_eq {F : FpOps} (s : EdaBits P) (x : ZKInt62) :
    s.bool2arith F x = (s.drawn, unmaskOne F s.drawn.deltaFp (s.edabitAt 0).1
      (diffBool x (s.edabitAt 0).2)) := rfl

theorem bool2arith_fst {F : FpOps} (s : EdaBits P) (x : ZKInt62) :
    (s.bool2arith F x).1 = s.drawn := rfl

theorem diffChunk_cons (s : EdaBits P) (x : ZKInt62) (xs : List ZKInt62) :
    diffChunk s (x :: xs) = ((diffChunk s.drawn xs).1,
      (diffBool x (s.edabitAt 0).2, s.nextEdabits.2.2) :: (diffChunk s.drawn xs).2) := rfl

theorem bool2arithBulk_nil {F : FpOps} (s : EdaBits P) : bool2arithBulk F s [] = (s, []) := by
  rw [bool2arithBulk, dif_pos rfl]

/-- One turn of the loop over chunks. -/
theorem bool2arithBulk_of_ne_nil {F : FpOps} {s s' : EdaBits P} {xs : List ZKInt62}
    {diffs : List (ZKInt62 × ℕ)} (h : xs ≠ [])
    (hdiff : diffChunk s (xs.take (min xs.length s.avail)) = (s', diffs)) :
    bool2arithBulk F s xs = ((bool2arithBulk F s' (xs.drop (min xs.length s.avail))).1,
      (diffs.map fun m => unmaskOne F s'.deltaFp (s'.arithCandidate m.2) m.1) ++
        (bool2arithBulk F s' (xs.drop (min xs.length s.avail))).2) := by
  rw [bool2arithBulk, dif_neg h]
  simp only [hdiff]

theorem drawn_of_pos {s : EdaBits P} (h : 0 < s.edabitNum) :
    s.drawn = { s with edabitOffset := s.edabitOffset + 1, edabitNum := s.edabitNum - 1 } := by
  rw [drawn, nextEdabits, ready_of_pos h]

/-- As long as a chunk stays within the batch, every label is still in place when its edabits have
all been drawn. -/
theorem diffChunk_spec {F : FpOps} : ∀ (s : EdaBits P) (xs : List ZKInt62),
    xs.length ≤ s.edabitNum →
      (diffChunk s xs).1.arithCandidate = s.arithCandidate ∧
      (diffChunk s xs).1.deltaFp = s.deltaFp ∧
      Chunks.each (bool2arith F) s xs = ((diffChunk s xs).1, (diffChunk s xs).2.map fun m =>
        unmaskOne F s.deltaFp (s.arithCandidate m.2) m.1)
  | _, [], _ => ⟨rfl, rfl, rfl⟩
  | s, x :: xs, h => by
    rw [List.length_cons] at h
    have hdrawn := drawn_of_pos (Nat.zero_lt_of_lt h)
    have harith : s.drawn.arithCandidate = s.arithCandidate := by rw [hdrawn]
    have hnum : xs.length ≤ s.drawn.edabitNum := by
      rw [hdrawn]
      exact Nat.le_sub_one_of_lt h
    obtain ⟨hkeep, hdelta, hrest⟩ := diffChunk_spec (F := F) s.drawn xs hnum
    rw [harith] at hkeep hrest
    rw [deltaFp_drawn] at hdelta hrest
    refine ⟨hkeep, hdelta, ?_⟩
    rw [Chunks.each, bool2arith_fst, hrest, diffChunk_cons, bool2arith_eq, deltaFp_drawn,
      List.map_cons, ← harith]
    rfl

theorem diffChunk_ready {s : EdaBits P} {xs : List ZKInt62} (h : xs ≠ []) :
    diffChunk s.ready xs = diffChunk s xs := by
  cases xs with
  | nil => exact absurd rfl h
  | cons x xs => rw [diffChunk, diffChunk, nextEdabits_ready]

theorem each_bool2arith_ready {F : FpOps} {s : EdaBits P} {xs : List ZKInt62} (h : xs ≠ []) :
    Chunks.each (bool2arith F) s.ready xs = Chunks.each (bool2arith F) s xs := by
  cases xs with
  | nil => exact absurd rfl h
  | cons x xs => rw [Chunks.each, Chunks.each, bool2arith, bool2arith, nextEdabits_ready]

/-- **The bulk conversion is the scalar one, element by element.** -/
theorem bool2arithBulk_eq {F : FpOps} (s : EdaBits P) (xs : List ZKInt62) :
    bool2arithBulk F s xs = Chunks.each (bool2arith F) s xs := by
  refine Chunks.bulk_eq_each avail_pos bool2arithBulk_nil (fun s xs h => ?_) s xs
  have htake := s.take_avail_ne_nil h
  obtain ⟨harith, hdelta, heach⟩ := diffChunk_spec (F := F) s.ready _ (s.length_take_avail xs)
  rw [each_bool2arith_ready htake, diffChunk_ready htake] at heach
  rw [diffChunk_ready htake] at harith hdelta
  rw [bool2arithBulk_of_ne_nil h rfl, harith, hdelta, heach]

theorem bool2arithBulk_fst {F : FpOps} (s : EdaBits P) (xs : List ZKInt62) :
    (s.bool2arithBulk F xs).1 = drawn^[xs.length] s := by
  rw [bool2arithBulk_eq, Chunks.each_fst bool2arith_fst]

/-! ## Honest openings -/

/-- The word an honest prover opens the `i`-th sum as. -/
def sumWord (F : FpOps) (s : EdaBits P) (i : ℕ) (x : Label) : ℕ :=
  (intfpAdd F (s.edabitAt i).1 x).prover.val

/-- `arith2bool` with an honest prover. -/
def arith2boolHonest (F : FpOps) (s : EdaBits P) (x : Label) : EdaBits P × Converted :=
  s.arith2bool F x (s.sumWord F 0 x)

/-- The bulk `arith2bool` with an honest prover. -/
def arith2boolBulkHonest (F : FpOps) (s : EdaBits P) (xs : List Label) :
    EdaBits P × List Converted :=
  s.arith2boolBulk F (xs.mapIdx fun i x => (x, s.sumWord F i x))

theorem arith2boolHonest_eq {F : FpOps} (s : EdaBits P) (x : Label) :
    s.arith2boolHonest F x = (s.drawn, convertOne F s.drawn.deltaFp
      (intfpAdd F (s.edabitAt 0).1 x) (s.sumWord F 0 x) (s.edabitAt 0).2) := rfl

theorem arith2boolHonest_fst {F : FpOps} (s : EdaBits P) (x : Label) :
    (s.arith2boolHonest F x).1 = s.drawn := rfl

theorem arith2boolBulkHonest_eq {F : FpOps} (s : EdaBits P) (xs : List Label) :
    s.arith2boolBulkHonest F xs = Chunks.each (arith2boolHonest F) s xs := by
  rw [arith2boolBulkHonest, arith2boolBulk_eq]
  induction xs generalizing s with
  | nil => rfl
  | cons x xs ih =>
    rw [List.mapIdx_cons, arith2boolEach_cons, Chunks.each, arith2boolHonest_fst, ← ih]
    rfl

theorem arith2boolBulkHonest_fst {F : FpOps} (s : EdaBits P) (xs : List Label) :
    (s.arith2boolBulkHonest F xs).1 = drawn^[xs.length] s := by
  rw [arith2boolBulkHonest_eq, Chunks.each_fst arith2boolHonest_fst]

/-! ## Consistent edabits -/

/-- The next `n` edabits are consistent. -/
def Consistent (s : EdaBits P) (n : ℕ) : Prop := ∀ i < n, ∃ r, ConsistentEdabit s i r

theorem edabitAt_iterate_drawn (s : EdaBits P) (m i : ℕ) :
    (drawn^[m] s).edabitAt i = s.edabitAt (m + i) := by
  rw [edabitAt, edabitAt, ← Function.iterate_add_apply, Nat.add_comm]

theorem Consistent.iterate_drawn {s : EdaBits P} {m n : ℕ} (h : s.Consistent (m + n)) :
    (drawn^[m] s).Consistent n := by
  intro i hi
  obtain ⟨r, hfp, hf2⟩ := h (m + i) (Nat.add_lt_add_left hi m)
  refine ⟨r, ?_, ?_⟩
  · rwa [deltaFp_iterate_drawn, edabitAt_iterate_drawn]
  · rwa [edabitAt_iterate_drawn]

theorem Consistent.mono {s : EdaBits P} {m n : ℕ} (h : s.Consistent n) (hmn : m ≤ n) :
    s.Consistent m :=
  fun i hi => h i (hi.trans_le hmn)

end EdaBits

/-! ## One conversion -/

/-- A label of value `v`. -/
def Label.Holds (deltaFp : ℕ) (y : Label) (v : ℕ) : Prop := Auth deltaFp y.prover y.verifier v

/-- **The difference is a canonical residue**: without its sign it is `x - r`, and with it
`x + PR - r`. -/
theorem toNat_diffBool {x : ZKInt62} {r : ℕ} (hx : x.toNat < PR) (hr : r < PR) :
    (diffBool x (BitVec.ofNat 62 r)).toNat = if r ≤ x.toNat then x.toNat - r
      else x.toNat + PR - r := by
  have hPR : PR = 2 ^ 61 - 1 := rfl
  have hsub : (x - BitVec.ofNat 62 r).toNat = (2 ^ 62 - r + x.toNat) % 2 ^ 62 := by
    rw [BitVec.toNat_sub, BitVec.toNat_ofNat, Nat.mod_eq_of_lt (by omega : r < 2 ^ 62)]
  have hmsb : (x - BitVec.ofNat 62 r).getLsbD 61
      = decide (2 ^ 61 ≤ (2 ^ 62 - r + x.toNat) % 2 ^ 62) := by
    have hlast := BitVec.msb_eq_decide (x - BitVec.ofNat 62 r)
    rwa [BitVec.msb_eq_getLsbD_last, hsub] at hlast
  rw [diffBool]
  simp only [hmsb, decide_eq_true_eq]
  by_cases hle : r ≤ x.toNat
  · rw [if_neg (by omega), if_pos hle, hsub]
    omega
  · rw [if_pos (by omega), if_neg hle, BitVec.toNat_add, hsub, intBooPr, BitVec.toNat_ofNat]
    omega

/-- The word revealed is the difference: its sign is clear. -/
theorem revealWord_diffBool {x : ZKInt62} {r : ℕ} (hx : x.toNat < PR) (hr : r < PR) :
    revealWord (diffBool x (BitVec.ofNat 62 r)) = if r ≤ x.toNat then x.toNat - r
      else x.toNat + PR - r := by
  have hPR : PR = 2 ^ 61 - 1 := rfl
  have hd := toNat_diffBool hx hr
  have hlt : (diffBool x (BitVec.ofNat 62 r)).toNat < 2 ^ 61 := by
    rw [hd]
    split <;> omega
  have hmsb : (diffBool x (BitVec.ofNat 62 r)).msb = false := by
    rw [BitVec.msb_eq_decide, decide_eq_false_iff_not, not_le]
    exact hlt
  rw [revealWord, BitVec.signExtend_eq_setWidth_of_msb_false hmsb, BitVec.toNat_setWidth,
    Nat.mod_eq_of_lt (hlt.trans (by decide)), hd]

variable {F : FpOps} {Δ : ℕ}

theorem toNat_ofNat_of_lt {v : ℕ} (hv : v < PR) : (BitVec.ofNat 62 v).toNat = v := by
  rw [BitVec.toNat_ofNat]
  exact Nat.mod_eq_of_lt (hv.trans (by decide))

/-- Adding a constant to a label. -/
theorem Label.Holds.intfpAddConst (hF : F.Canonical) (hΔ : Δ < PR) {a : Label} {r d : ℕ}
    (h : a.Holds Δ r) (hd : d < PR) :
    (intfpAddConst F Δ a d).Holds Δ ((r + d) % PR) := by
  have hmul : F.multMod d Δ < PR := hF.multMod_lt hd hΔ
  have hval : a.prover.val + d < 2 * PR := by
    rw [h.val_eq]
    exact two_mul PR ▸ Nat.add_lt_add h.val_lt hd
  have hkey : a.verifier.mac + (PR - F.multMod d Δ) < 2 * PR :=
    two_mul PR ▸ Nat.add_lt_add_of_lt_of_le h.key_lt (Nat.sub_le _ _)
  refine .of_cast ?_ (Nat.mod_lt _ PR_pos) rfl h.mac_lt
    (hF.addMod_lt h.key_lt.le (Nat.sub_le _ _) hkey) ?_
  · show F.addMod a.prover.val d = _
    rw [hF.addMod_eq _ _ (h.val_eq ▸ h.val_lt.le) hd.le hval, h.val_eq]
  · show (a.prover.mac : ZMod PR)
      = (F.addMod a.verifier.mac (PR - F.multMod d Δ) : ℕ) + ((r + d) % PR : ℕ) * Δ
    rw [hF.addMod_cast h.key_lt.le (Nat.sub_le _ _) hkey, ZMod.natCast_mod, Nat.cast_add,
      Nat.cast_sub hmul.le, ZMod.natCast_self, hF.multMod_cast hd hΔ, h.mac_cast]
    ring

/-- **Unmasking gives a label of `x`.** -/
theorem Label.Holds.bool2arith (hF : F.Canonical) (hΔ : Δ < PR) {cand : Label} {r : ℕ} {x : ZKInt62}
    (h : cand.Holds Δ r) (hx : x.toNat < PR) :
    (unmaskOne F Δ cand (diffBool x (BitVec.ofNat 62 r))).Holds Δ x.toNat := by
  rw [unmaskOne, revealWord_diffBool hx h.val_lt]
  have hr := h.val_lt
  split
  · rename_i hle
    have hauth := h.intfpAddConst hF hΔ ((Nat.sub_le _ r).trans_lt hx)
    rwa [Nat.add_sub_cancel' hle, Nat.mod_eq_of_lt hx] at hauth
  · rename_i hlt
    have hd : x.toNat + PR - r < PR := by omega
    have hauth := h.intfpAddConst hF hΔ hd
    have hsum : r + (x.toNat + PR - r) = x.toNat + PR := by omega
    rwa [hsum, Nat.add_mod_right, Nat.mod_eq_of_lt hx] at hauth

/-- **Masking and opening gives the wires of `x`**, and the MACs agree. -/
theorem Label.Holds.arith2bool (hF : F.Canonical) (hΔ : Δ < PR) {wire cand : Label} {x r : ℕ}
    (hx : wire.Holds Δ x) (hr : cand.Holds Δ r) {c : Converted}
    (hc : c = convertOne F Δ (intfpAdd F cand wire) (intfpAdd F cand wire).prover.val
      (BitVec.ofNat 62 r)) :
    c.sent = c.recomputed ∧ c.out = BitVec.ofNat 62 x := by
  have hsum := Auth.intfpAdd hF hr hx
  have hlt : (intfpAdd F cand wire).prover.val < PR := hsum.val_eq ▸ hsum.val_lt
  have hval : (intfpAdd F cand wire).prover.val % PR = (x + r) % PR := by
    rw [hsum.val_eq, Nat.mod_mod, Nat.add_comm r x]
  rw [hc]
  constructor
  · refine hsum.open_eq hF ?_ (hF.multMod_eq _ _ hlt hΔ)
    rw [hsum.val_eq, Nat.mod_mod]
  · refine (sumBoo_eq_iff hx.val_lt hr.val_lt (hlt.trans (by decide)) hval).mpr ?_
    rw [← Nat.mod_eq_of_lt hlt, hval]
    exact Nat.mod_le _ _

/-! ## The conversions -/

namespace EdaBits

variable {P : EdaBitsParams} {s : EdaBits P}

theorem Consistent.bool2arith (hF : F.Canonical) (hΔ : s.deltaFp < PR) (hs : s.Consistent 1)
    {x : ZKInt62} (hx : x.toNat < PR) : (s.bool2arith F x).2.Holds s.deltaFp x.toNat := by
  obtain ⟨r, hfp, hf2⟩ := hs 0 Nat.one_pos
  rw [bool2arith_eq, hf2, deltaFp_drawn]
  exact Label.Holds.bool2arith hF hΔ hfp hx

theorem Consistent.arith2bool (hF : F.Canonical) (hΔ : s.deltaFp < PR) (hs : s.Consistent 1)
    {y : Label} {v : ℕ} (hy : y.Holds s.deltaFp v) :
    (s.arith2boolHonest F y).2.sent = (s.arith2boolHonest F y).2.recomputed ∧
      (s.arith2boolHonest F y).2.out = BitVec.ofNat 62 v := by
  obtain ⟨r, hfp, hf2⟩ := hs 0 Nat.one_pos
  refine hy.arith2bool hF hΔ hfp ?_
  rw [arith2boolHonest_eq, hf2, deltaFp_drawn]
  rfl

theorem toNat_values {xs : List ZKInt62} (hxs : ∀ x ∈ xs, x.toNat < PR) :
    List.Forall₂ (fun x v => x.toNat = v ∧ v < PR) xs (xs.map BitVec.toNat) :=
  List.forall₂_map_right_iff.mpr (List.forall₂_same.mpr fun x hx => ⟨rfl, hxs x hx⟩)

/-- The state in which element `i` is converted. -/
theorem Consistent.at {n i : ℕ} (hs : s.Consistent n) (hi : i < n) :
    (drawn^[i] s).Consistent 1 :=
  Consistent.iterate_drawn (hs.mono hi)

theorem Consistent.bool2arithBulk (hF : F.Canonical) (hΔ : s.deltaFp < PR) {xs : List ZKInt62}
    {vs : List ℕ} (hs : s.Consistent xs.length)
    (hxs : List.Forall₂ (fun x v => x.toNat = v ∧ v < PR) xs vs) :
    List.Forall₂ (fun y v => y.Holds s.deltaFp v) (s.bool2arithBulk F xs).2 vs := by
  rw [bool2arithBulk_eq]
  refine Chunks.forall₂_each bool2arith_fst hxs fun i hi x v hx => ?_
  obtain ⟨rfl, hlt⟩ := hx
  rw [← deltaFp_iterate_drawn s i] at hΔ ⊢
  exact (hs.at hi).bool2arith hF hΔ hlt

theorem Consistent.arith2boolBulk (hF : F.Canonical) (hΔ : s.deltaFp < PR) {ys : List Label}
    {vs : List ℕ} (hs : s.Consistent ys.length)
    (hys : List.Forall₂ (fun y v => y.Holds s.deltaFp v) ys vs) :
    List.Forall₂ (fun c v => (c.sent = c.recomputed ∧ c.out = BitVec.ofNat 62 v) ∧ v < PR)
      (s.arith2boolBulkHonest F ys).2 vs := by
  rw [arith2boolBulkHonest_eq]
  refine Chunks.forall₂_each arith2boolHonest_fst hys fun i hi y v hy => ⟨?_, hy.val_lt⟩
  rw [← deltaFp_iterate_drawn s i] at hy hΔ
  exact (hs.at hi).arith2bool hF hΔ hy

/-- To a label and back. -/
theorem Consistent.arith2bool_bool2arith (hF : F.Canonical) (hΔ : s.deltaFp < PR)
    (hs : s.Consistent 2) {x : ZKInt62} (hx : x.toNat < PR) :
    ((s.bool2arith F x).1.arith2boolHonest F (s.bool2arith F x).2).2.out = x := by
  have hy := Consistent.bool2arith hF hΔ (hs.mono one_le_two) hx
  have hs' : s.drawn.Consistent 1 := Consistent.iterate_drawn (n := 1) hs
  rw [← deltaFp_drawn] at hy hΔ
  rw [bool2arith_fst, (hs'.arith2bool hF hΔ hy).2, BitVec.ofNat_toNat, BitVec.setWidth_eq]

/-- To wires and back. -/
theorem Consistent.bool2arith_arith2bool (hF : F.Canonical) (hΔ : s.deltaFp < PR)
    (hs : s.Consistent 2) {y : Label} {v : ℕ} (hy : y.Holds s.deltaFp v) :
    ((s.arith2boolHonest F y).1.bool2arith F (s.arith2boolHonest F y).2.out).2.Holds
      s.deltaFp v := by
  have hout := (Consistent.arith2bool hF hΔ (hs.mono one_le_two) hy).2
  have hs' : s.drawn.Consistent 1 := Consistent.iterate_drawn (n := 1) hs
  have hv := toNat_ofNat_of_lt hy.val_lt
  rw [← deltaFp_drawn] at hΔ ⊢
  rw [arith2boolHonest_fst, hout]
  simpa only [hv] using hs'.bool2arith hF hΔ (hv.trans_lt hy.val_lt)

/-- To labels and back, in bulk. -/
theorem Consistent.arith2boolBulk_bool2arithBulk (hF : F.Canonical) (hΔ : s.deltaFp < PR)
    {xs : List ZKInt62} (hs : s.Consistent (xs.length + xs.length))
    (hxs : ∀ x ∈ xs, x.toNat < PR) :
    ((s.bool2arithBulk F xs).1.arith2boolBulkHonest F (s.bool2arithBulk F xs).2).2.map
      Converted.out = xs := by
  have hys := Consistent.bool2arithBulk hF hΔ (hs.mono (Nat.le_add_left _ _)) (toNat_values hxs)
  have hlen : (s.bool2arithBulk F xs).2.length = xs.length := by
    rw [hys.length_eq, List.length_map]
  have hs' : (s.bool2arithBulk F xs).1.Consistent (s.bool2arithBulk F xs).2.length := by
    rw [bool2arithBulk_fst, hlen]
    exact Consistent.iterate_drawn hs
  have hdelta : (s.bool2arithBulk F xs).1.deltaFp = s.deltaFp := by
    rw [bool2arithBulk_fst, deltaFp_iterate_drawn]
  rw [← hdelta] at hys hΔ
  have houts := List.forall₂_map_right_iff.mp (hs'.arith2boolBulk hF hΔ hys)
  have heq : List.Forall₂ (fun c x => c.out = x) ((s.bool2arithBulk F xs).1.arith2boolBulkHonest F
      (s.bool2arithBulk F xs).2).2 xs :=
    houts.imp fun c x hc => by rw [hc.1.2, BitVec.ofNat_toNat, BitVec.setWidth_eq]
  rw [← List.forall₂_eq_eq_eq, List.forall₂_map_left_iff]
  exact heq

/-- To wires and back, in bulk. -/
theorem Consistent.bool2arithBulk_arith2boolBulk (hF : F.Canonical) (hΔ : s.deltaFp < PR)
    {ys : List Label} {vs : List ℕ} (hs : s.Consistent (ys.length + ys.length))
    (hys : List.Forall₂ (fun y v => y.Holds s.deltaFp v) ys vs) :
    List.Forall₂ (fun y v => y.Holds s.deltaFp v)
      ((s.arith2boolBulkHonest F ys).1.bool2arithBulk F
        ((s.arith2boolBulkHonest F ys).2.map Converted.out)).2 vs := by
  have houts := Consistent.arith2boolBulk hF hΔ (hs.mono (Nat.le_add_left _ _)) hys
  have hlen : ((s.arith2boolBulkHonest F ys).2.map Converted.out).length = ys.length := by
    rw [List.length_map, houts.length_eq, hys.length_eq]
  have hs' : (s.arith2boolBulkHonest F ys).1.Consistent
      ((s.arith2boolBulkHonest F ys).2.map Converted.out).length := by
    rw [arith2boolBulkHonest_fst, hlen]
    exact Consistent.iterate_drawn hs
  have hdelta : (s.arith2boolBulkHonest F ys).1.deltaFp = s.deltaFp := by
    rw [arith2boolBulkHonest_fst, deltaFp_iterate_drawn]
  rw [← hdelta] at hΔ ⊢
  refine hs'.bool2arithBulk hF hΔ (List.forall₂_map_left_iff.mpr (houts.imp fun c v hc => ?_))
  exact ⟨(congrArg _ hc.1.2).trans (toNat_ofNat_of_lt hc.2), hc.2⟩

/-- **The conversions between wires and labels are exact and undo each other**, whenever the edabits
they draw are consistent: one element and in bulk, in both directions and back. -/
theorem conversion_exact (hF : F.Canonical) (s : EdaBits P) (hΔ : s.deltaFp < PR) :
    (∀ x : ZKInt62, x.toNat < PR → s.Consistent 1 →
      (s.bool2arith F x).2.Holds s.deltaFp x.toNat) ∧
    (∀ y v, y.Holds s.deltaFp v → s.Consistent 1 →
      (s.arith2boolHonest F y).2.sent = (s.arith2boolHonest F y).2.recomputed ∧
        (s.arith2boolHonest F y).2.out = BitVec.ofNat 62 v) ∧
    (∀ x : ZKInt62, x.toNat < PR → s.Consistent 2 →
      ((s.bool2arith F x).1.arith2boolHonest F (s.bool2arith F x).2).2.out = x) ∧
    (∀ y v, y.Holds s.deltaFp v → s.Consistent 2 →
      ((s.arith2boolHonest F y).1.bool2arith F (s.arith2boolHonest F y).2.out).2.Holds
        s.deltaFp v) ∧
    (∀ xs : List ZKInt62, (∀ x ∈ xs, x.toNat < PR) → s.Consistent xs.length →
      List.Forall₂ (fun y x => y.Holds s.deltaFp x.toNat) (s.bool2arithBulk F xs).2 xs) ∧
    (∀ ys vs, List.Forall₂ (fun y v => y.Holds s.deltaFp v) ys vs → s.Consistent ys.length →
      List.Forall₂ (fun c v => c.sent = c.recomputed ∧ c.out = BitVec.ofNat 62 v)
        (s.arith2boolBulkHonest F ys).2 vs) ∧
    (∀ xs : List ZKInt62, (∀ x ∈ xs, x.toNat < PR) → s.Consistent (xs.length + xs.length) →
      ((s.bool2arithBulk F xs).1.arith2boolBulkHonest F (s.bool2arithBulk F xs).2).2.map
        Converted.out = xs) ∧
    (∀ ys vs, List.Forall₂ (fun y v => y.Holds s.deltaFp v) ys vs →
      s.Consistent (ys.length + ys.length) →
        List.Forall₂ (fun y v => y.Holds s.deltaFp v)
          ((s.arith2boolBulkHonest F ys).1.bool2arithBulk F
            ((s.arith2boolBulkHonest F ys).2.map Converted.out)).2 vs) := by
  refine ⟨fun x hx hs => hs.bool2arith hF hΔ hx, fun y v hy hs => hs.arith2bool hF hΔ hy,
    fun x hx hs => hs.arith2bool_bool2arith hF hΔ hx,
    fun y v hy hs => hs.bool2arith_arith2bool hF hΔ hy,
    fun xs hxs hs => List.forall₂_map_right_iff.mp (hs.bool2arithBulk hF hΔ (toNat_values hxs)),
    fun ys vs hys hs => (hs.arith2boolBulk hF hΔ hys).imp fun _ _ hc => hc.1,
    fun xs hxs hs => hs.arith2boolBulk_bool2arithBulk hF hΔ hxs,
    fun ys vs hys hs => hs.bool2arithBulk_arith2boolBulk hF hΔ hys⟩

/-- `x = 3` with edabits of 4: the difference wraps, and comes back. -/
theorem conversion_exact_three :
    (((sampleEdaBits 4).bool2arith FpOps.residues 3).1.arith2boolHonest FpOps.residues
      ((sampleEdaBits 4).bool2arith FpOps.residues 3).2).2.out = 3 := by
  have hauth : Auth 1 ⟨4, 9⟩ ⟨0, 5⟩ 4 :=
    ⟨rfl, by decide +kernel, rfl, by decide +kernel, by decide +kernel, by decide +kernel⟩
  have hs : (sampleEdaBits 4).Consistent 2 := fun i hi => by
    obtain rfl | rfl : i = 0 ∨ i = 1 := by omega
    · exact ⟨4, hauth, rfl⟩
    · exact ⟨4, hauth, rfl⟩
  exact (conversion_exact FpOps.residues_canonical (sampleEdaBits 4) (by decide +kernel)).2.2.1 3
    (by decide +kernel) hs

end EdaBits

end VoleZk
