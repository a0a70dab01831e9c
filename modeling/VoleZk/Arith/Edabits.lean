import VoleZk.Arith.Fp61
import VoleZk.Lib.Chunks
import Mathlib.Data.BitVec

/-!
# Edabits: from arithmetic labels to Boolean wires

`EdaBits` converts a label of value `x` into 62 Boolean wires.  It draws an *edabit*, a random `r`
held both as a label and as wires, opens `x + r` and subtracts `r` again inside the circuit.  The
two parties' objects move in lockstep, so their cursors are one set of fields here and a label is
the pair of its halves; a Boolean wire is its cleartext bit, which is what the Boolean engine
proves about it.

The word opened is whatever the prover sends: both entry points take it as an argument, and return
the MACs the two parties hash for it.

## What is here

* `EdaBits.nextEdabits`, with the refill of `EdaBits.edabitsGenBackend`;
* `EdaBits.arith2bool`, and `EdaBits.arith2boolBulk`, which opens a chunk of words at a time;
* `EdaBits.arith2boolBulk_eq` — **the bulk conversion is the scalar one, element by element.**

The openings and the bucket comparisons by which the generation checks its candidates leave the
candidates as they are, and are not part of this file.
-/

set_option autoImplicit false

namespace VoleZk

/-- A label as the two parties hold it. -/
structure Label where
  /-- The prover's half. -/
  prover : AuthVal
  /-- The verifier's half. -/
  verifier : AuthVal

/-- A ZKInt of 62 bits. -/
abbrev ZKInt62 : Type := BitVec 62

/-- The parameters of the generation.  A batch must not be empty. -/
structure EdaBitsParams where
  /-- The number of edabits a batch yields. -/
  N : ℕ
  /-- The bucket size. -/
  B : ℕ
  /-- The number of candidates opened. -/
  C : ℕ
  /-- The number of labels drawn at a time. -/
  npSz : ℕ
  /-- A batch yields something. -/
  N_pos : 0 < N

/-- The candidates in one batch. -/
def EdaBitsParams.ell (P : EdaBitsParams) : ℕ := P.B * P.N + P.C

/-- The parameters of the source. -/
def EdaBitsParams.std : EdaBitsParams where
  N := 800000
  B := 2
  C := 2
  npSz := 2 ^ 22
  N_pos := by decide

/-- The two parties' `EdaBits`. -/
structure EdaBits (P : EdaBitsParams) where
  /-- The verifier's MAC key. -/
  deltaFp : ℕ
  /-- The labels drawn last. -/
  arithCandidate : ℕ → Label
  /-- The Boolean candidates of the current batch. -/
  boolCandidate : ℕ → ZKInt62
  /-- Where the current batch starts among the labels. -/
  npPt : ℕ
  /-- Where the current batch ends. -/
  npRg : ℕ
  /-- The edabits left in the batch. -/
  edabitNum : ℕ
  /-- The next edabit of the batch. -/
  edabitOffset : ℕ
  /-- What each call of `draw_vole` returns, and how many were made. -/
  voleDraw : ℕ → ℕ → Label
  /-- The number of draws so far. -/
  draws : ℕ
  /-- The wires the prover feeds in each generation. -/
  boolFeed : ℕ → ℕ → ZKInt62
  /-- The number of generations so far. -/
  gens : ℕ

/-! ## The circuit on the Boolean side -/

/-- `int_boo_pr`. -/
def intBooPr : ZKInt62 := BitVec.ofNat 62 PR

/-- What becomes of the opened word: a public input of 62 bits, minus the wires of `r`, plus `PR`
if bit 61 is set. -/
def sumBoo (sum : ℕ) (r : ZKInt62) : ZKInt62 :=
  let s := BitVec.ofNat 62 sum - r
  if s.getLsbD 61 then s + intBooPr else s

/-! ## Opening labels -/

/-- `intfp_add`, on the prover's half. -/
def intfpAddPrv (F : FpOps) (a b : AuthVal) : AuthVal :=
  ⟨F.addMod a.val b.val, F.addMod a.mac b.mac⟩

/-- `intfp_add`, on the verifier's half. -/
def intfpAddVer (F : FpOps) (a b : AuthVal) : AuthVal := ⟨0, F.addMod a.mac b.mac⟩

/-- `intfp_add`. -/
def intfpAdd (F : FpOps) (a b : Label) : Label :=
  ⟨intfpAddPrv F a.prover b.prover, intfpAddVer F a.verifier b.verifier⟩

/-- What `open_check_send` hashes for an opened label: its MAC. -/
def openCheckSend (dat : AuthVal) : ℕ := dat.mac

/-- What `open_check_recv` hashes for a label opened as `val`: the MAC that `val` would have. -/
def openCheckRecv (F : FpOps) (deltaFp val : ℕ) (dat : AuthVal) : ℕ :=
  F.addMod dat.mac (F.multMod val deltaFp)

/-- The conversion of one label: the MACs hashed by the two parties, and the wires. -/
structure Converted where
  /-- What the prover hashed. -/
  sent : ℕ
  /-- What the verifier hashed. -/
  recomputed : ℕ
  /-- The Boolean output. -/
  out : ZKInt62

/-- Open `sumFp` as `sum` and subtract the wires of `r`. -/
def convertOne (F : FpOps) (deltaFp : ℕ) (sumFp : Label) (sum : ℕ) (r : ZKInt62) : Converted where
  sent := openCheckSend sumFp.prover
  recomputed := openCheckRecv F deltaFp sum sumFp.verifier
  out := sumBoo sum r

namespace EdaBits

variable {P : EdaBitsParams}

/-! ## Edabits -/

/-- `edabits_gen_backend`: draw new labels if the buffer is used up, and feed the Boolean
candidates of the batch. -/
def edabitsGenBackend (s : EdaBits P) : EdaBits P :=
  let s := if P.npSz < s.npPt + P.ell then
      { s with arithCandidate := s.voleDraw s.draws, draws := s.draws + 1, npPt := 0 }
    else s
  { s with
    npRg := s.npPt + P.ell
    boolCandidate := s.boolFeed s.gens
    gens := s.gens + 1
    edabitNum := P.N
    edabitOffset := 0 }

/-- The refill at the head of `next_edabits`. -/
def ready (s : EdaBits P) : EdaBits P :=
  if s.edabitNum = 0 then edabitsGenBackend { s with npPt := s.npRg } else s

/-- `next_edabits`: the state after the draw, and the indices of the edabit among the wires and
among the labels. -/
def nextEdabits (s : EdaBits P) : EdaBits P × ℕ × ℕ :=
  let s := s.ready
  ({ s with edabitOffset := s.edabitOffset + 1, edabitNum := s.edabitNum - 1 },
    s.edabitOffset, s.npPt + s.edabitOffset)

/-! ## Conversion -/

/-- `arith2bool`, the prover opening the sum as the word `sum`. -/
def arith2bool (F : FpOps) (s : EdaBits P) (x : Label) (sum : ℕ) : EdaBits P × Converted :=
  let (s, edabF2, edabFp) := s.nextEdabits
  let sumFp := intfpAdd F (s.arithCandidate edabFp) x
  (s, convertOne F s.deltaFp sumFp sum (s.boolCandidate edabF2))

/-- The first loop of a chunk: an edabit for each label, the index of its wires and the sum to
open. -/
def maskChunk (F : FpOps) : EdaBits P → List (Label × ℕ) → EdaBits P × List (ℕ × Label × ℕ)
  | s, [] => (s, [])
  | s, x :: xs =>
    let (s, edabF2, edabFp) := s.nextEdabits
    let sumFp := intfpAdd F (s.arithCandidate edabFp) x.1
    let (s, rest) := maskChunk F s xs
    (s, (edabF2, sumFp, x.2) :: rest)

/-- The length of the next chunk: what is left of the batch, or a fresh one. -/
def avail (s : EdaBits P) : ℕ := if 0 < s.edabitNum then s.edabitNum else P.N

theorem avail_pos (s : EdaBits P) : 0 < s.avail := by
  by_cases h : 0 < s.edabitNum
  · rwa [avail, if_pos h]
  · rw [avail, if_neg h]
    exact P.N_pos

/-- The bulk `arith2bool`, on labels paired with the words the prover opens their sums as.  The
wires of a chunk are read after all its edabits have been drawn. -/
def arith2boolBulk (F : FpOps) (s : EdaBits P) (xs : List (Label × ℕ)) :
    EdaBits P × List Converted :=
  if _h : xs = [] then (s, [])
  else
    let num := min xs.length s.avail
    let (s', sums) := maskChunk F s (xs.take num)
    let outs := sums.map fun m => convertOne F s'.deltaFp m.2.1 m.2.2 (s'.boolCandidate m.1)
    let (s'', rest) := arith2boolBulk F s' (xs.drop num)
    (s'', outs ++ rest)
termination_by xs.length
decreasing_by
  have hx : 0 < xs.length := List.length_pos_iff.mpr _h
  have ha := s.avail_pos
  rw [List.length_drop]
  omega

/-- The scalar conversion, one label after the other. -/
def arith2boolEach (F : FpOps) : EdaBits P → List (Label × ℕ) → EdaBits P × List Converted
  | s, [] => (s, [])
  | s, x :: xs =>
    let (s, c) := s.arith2bool F x.1 x.2
    let (s, cs) := arith2boolEach F s xs
    (s, c :: cs)

/-! ## The bulk conversion is the scalar one -/

theorem arith2bool_eq {F : FpOps} (s : EdaBits P) (x : Label) (sum : ℕ) :
    s.arith2bool F x sum = (s.nextEdabits.1, convertOne F s.nextEdabits.1.deltaFp
      (intfpAdd F (s.nextEdabits.1.arithCandidate s.nextEdabits.2.2) x) sum
      (s.nextEdabits.1.boolCandidate s.nextEdabits.2.1)) := rfl

theorem maskChunk_cons {F : FpOps} (s : EdaBits P) (x : Label × ℕ) (xs : List (Label × ℕ)) :
    maskChunk F s (x :: xs) = ((maskChunk F s.nextEdabits.1 xs).1,
      (s.nextEdabits.2.1, intfpAdd F (s.nextEdabits.1.arithCandidate s.nextEdabits.2.2) x.1, x.2)
        :: (maskChunk F s.nextEdabits.1 xs).2) := rfl

theorem arith2boolEach_cons {F : FpOps} (s : EdaBits P) (x : Label × ℕ) (xs : List (Label × ℕ)) :
    arith2boolEach F s (x :: xs) = ((arith2boolEach F s.nextEdabits.1 xs).1,
      (s.arith2bool F x.1 x.2).2 :: (arith2boolEach F s.nextEdabits.1 xs).2) := rfl

theorem arith2boolBulk_nil {F : FpOps} (s : EdaBits P) : arith2boolBulk F s [] = (s, []) := by
  rw [arith2boolBulk, dif_pos rfl]

/-- One turn of the loop over chunks. -/
theorem arith2boolBulk_of_ne_nil {F : FpOps} {s s' : EdaBits P} {xs : List (Label × ℕ)}
    {sums : List (ℕ × Label × ℕ)} (h : xs ≠ [])
    (hmask : maskChunk F s (xs.take (min xs.length s.avail)) = (s', sums)) :
    arith2boolBulk F s xs = ((arith2boolBulk F s' (xs.drop (min xs.length s.avail))).1,
      (sums.map fun m => convertOne F s'.deltaFp m.2.1 m.2.2 (s'.boolCandidate m.1)) ++
        (arith2boolBulk F s' (xs.drop (min xs.length s.avail))).2) := by
  rw [arith2boolBulk, dif_neg h]
  simp only [hmask]

theorem ready_of_pos {s : EdaBits P} (h : 0 < s.edabitNum) : s.ready = s :=
  if_neg h.ne'

theorem edabitNum_ready (s : EdaBits P) : s.ready.edabitNum = s.avail := by
  by_cases h : s.edabitNum = 0
  · rw [ready, if_pos h, avail, if_neg (by omega), edabitsGenBackend]
  · rw [ready, if_neg h, avail, if_pos (Nat.pos_of_ne_zero h)]

theorem ready_ready (s : EdaBits P) : s.ready.ready = s.ready :=
  ready_of_pos (by rw [edabitNum_ready]; exact s.avail_pos)

theorem nextEdabits_ready (s : EdaBits P) : s.ready.nextEdabits = s.nextEdabits := by
  rw [nextEdabits, nextEdabits, ready_ready]

/-- A turn of the loop over chunks takes something. -/
theorem take_avail_ne_nil {α : Type*} (s : EdaBits P) {xs : List α} (h : xs ≠ []) :
    xs.take (min xs.length s.avail) ≠ [] := by
  rw [ne_eq, List.take_eq_nil_iff, not_or]
  exact ⟨(Nat.lt_min.mpr ⟨List.length_pos_iff.mpr h, s.avail_pos⟩).ne', h⟩

/-- It takes no more than the batch has. -/
theorem length_take_avail {α : Type*} (s : EdaBits P) (xs : List α) :
    (xs.take (min xs.length s.avail)).length ≤ s.ready.edabitNum := by
  rw [List.length_take, edabitNum_ready]
  exact (min_le_left _ _).trans (min_le_right _ _)

/-- As long as a chunk stays within the batch, every wire and the key are still in place when its
edabits have all been drawn, so converting at the end is converting at once. -/
theorem maskChunk_spec {F : FpOps} : ∀ (s : EdaBits P) (xs : List (Label × ℕ)),
    xs.length ≤ s.edabitNum →
      (maskChunk F s xs).1.boolCandidate = s.boolCandidate ∧
      (maskChunk F s xs).1.deltaFp = s.deltaFp ∧
      arith2boolEach F s xs = ((maskChunk F s xs).1, (maskChunk F s xs).2.map fun m =>
        convertOne F s.deltaFp m.2.1 m.2.2 (s.boolCandidate m.1))
  | _, [], _ => ⟨rfl, rfl, rfl⟩
  | s, x :: xs, h => by
    rw [List.length_cons] at h
    have hs : s.ready = s := ready_of_pos (by omega)
    obtain ⟨hbool, hdelta, hrest⟩ := maskChunk_spec (F := F) s.nextEdabits.1 xs
      (by rw [nextEdabits, hs]; show xs.length ≤ s.edabitNum - 1; omega)
    have hbool' : s.nextEdabits.1.boolCandidate = s.boolCandidate := by rw [nextEdabits, hs]
    have hdelta' : s.nextEdabits.1.deltaFp = s.deltaFp := by rw [nextEdabits, hs]
    rw [hbool'] at hbool hrest
    rw [hdelta'] at hdelta hrest
    refine ⟨hbool, hdelta, ?_⟩
    rw [arith2boolEach_cons, hrest, maskChunk_cons, arith2bool_eq, hbool', hdelta']
    rfl

theorem arith2boolEach_eq {F : FpOps} (s : EdaBits P) (xs : List (Label × ℕ)) :
    arith2boolEach F s xs = Chunks.each (fun s x => s.arith2bool F x.1 x.2) s xs := by
  induction xs generalizing s with
  | nil => rfl
  | cons x xs ih =>
    rw [arith2boolEach_cons, ih]
    rfl

theorem arith2boolEach_ready {F : FpOps} {s : EdaBits P} {xs : List (Label × ℕ)} (h : xs ≠ []) :
    arith2boolEach F s.ready xs = arith2boolEach F s xs := by
  cases xs with
  | nil => exact absurd rfl h
  | cons x xs => rw [arith2boolEach, arith2boolEach, arith2bool, arith2bool, nextEdabits_ready]

theorem maskChunk_ready {F : FpOps} {s : EdaBits P} {xs : List (Label × ℕ)} (h : xs ≠ []) :
    maskChunk F s.ready xs = maskChunk F s xs := by
  cases xs with
  | nil => exact absurd rfl h
  | cons x xs => rw [maskChunk, maskChunk, nextEdabits_ready]

/-- **The bulk conversion is the scalar one, element by element**: a chunk never outlives the
batch its edabits come from. -/
theorem arith2boolBulk_eq {F : FpOps} (s : EdaBits P) (xs : List (Label × ℕ)) :
    arith2boolBulk F s xs = arith2boolEach F s xs := by
  rw [arith2boolEach_eq]
  refine Chunks.bulk_eq_each avail_pos arith2boolBulk_nil (fun s xs h => ?_) s xs
  have htake := s.take_avail_ne_nil h
  obtain ⟨hbool, hdelta, heach⟩ := maskChunk_spec (F := F) s.ready _ (s.length_take_avail xs)
  rw [arith2boolEach_ready htake, maskChunk_ready htake] at heach
  rw [maskChunk_ready htake] at hbool hdelta
  rw [arith2boolBulk_of_ne_nil h rfl, hbool, hdelta, ← arith2boolEach_eq, heach]

/-! ## The edabit consumed -/

/-- The state after the next edabit has been drawn. -/
def drawn (s : EdaBits P) : EdaBits P := s.nextEdabits.1

/-- The `i`-th edabit from now: its label and its wires, where they are read. -/
def edabitAt (s : EdaBits P) (i : ℕ) : Label × ZKInt62 :=
  let (s, edabF2, edabFp) := (drawn^[i] s).nextEdabits
  (s.arithCandidate edabFp, s.boolCandidate edabF2)

theorem deltaFp_drawn (s : EdaBits P) : s.drawn.deltaFp = s.deltaFp := by
  have hready : s.ready.deltaFp = s.deltaFp := by
    rw [ready]
    split
    · rw [edabitsGenBackend]
      split <;> rfl
    · rfl
  exact hready

theorem deltaFp_iterate_drawn (s : EdaBits P) (i : ℕ) : (drawn^[i] s).deltaFp = s.deltaFp := by
  induction i with
  | zero => rfl
  | succ i ih => rw [Function.iterate_succ_apply', deltaFp_drawn, ih]

/-- **What the conversions return**: element `i` is masked with the `i`-th edabit. -/
theorem arith2boolEach_getElem? {F : FpOps} {s : EdaBits P} {xs : List (Label × ℕ)} (i : ℕ) :
    (arith2boolEach F s xs).2[i]? = xs[i]?.map fun x =>
      convertOne F s.deltaFp (intfpAdd F (s.edabitAt i).1 x.1) x.2 (s.edabitAt i).2 := by
  have hadv : ∀ (s : EdaBits P) (x : Label × ℕ), (s.arith2bool F x.1 x.2).1 = s.drawn :=
    fun _ _ => rfl
  rw [arith2boolEach_eq, Chunks.each_getElem? hadv]
  refine congrArg (fun f => xs[i]?.map f) (funext fun x => ?_)
  rw [arith2bool_eq, ← drawn, deltaFp_drawn, deltaFp_iterate_drawn]
  rfl

end EdaBits

end VoleZk
