import VoleZk.Arith.Conversion

/-!
# Edabits are used once

The generation keeps four cursors.  `np_pt` and `np_rg` delimit the labels of the current batch in
the buffer of labels, `edabit_num` and `edabit_offset` count through the batch.  A batch is
generated when an element finds the last one used up, and new labels are drawn when the next batch
does not fit.  The bulk conversions note the indices of a whole chunk before they read what is
there.

Each edabit is noted here as it is drawn, with the generation and the draw of labels in place, and
again with what is in place when the chunk is read.

## What is here

* `EdaBits.start` — the constructor;
* `ConversionCall`, `EdaBits.call`, `EdaBits.run` — the four conversions, and a sequence of calls;
* `EdaBits.useBulk`, `EdaBits.uses` — the edabits that a call draws and reads;
* `EdaBitsParams.edabit`, `EdaBits.serving_iterate` — **edabit `k` is at position `k % N` of
  generation `k / N`**;
* `EdaBits.edabits_single_use` — **no edabit is used twice, whatever the calls are.**
-/

set_option autoImplicit false

namespace VoleZk

/-! ## Calls -/

/-- A call of one of the conversions, on words of the prover where labels are opened. -/
inductive ConversionCall where
  /-- `bool2arith`. -/
  | bool2arith (x : ZKInt62)
  /-- The bulk `bool2arith`. -/
  | bool2arithBulk (xs : List ZKInt62)
  /-- `arith2bool`. -/
  | arith2bool (x : Label) (sum : ℕ)
  /-- The bulk `arith2bool`. -/
  | arith2boolBulk (xs : List (Label × ℕ))

/-- The elements converted by a call. -/
def ConversionCall.elems : ConversionCall → List (ZKInt62 ⊕ Label × ℕ)
  | .bool2arith x => [.inl x]
  | .bool2arithBulk xs => xs.map .inl
  | .arith2bool x sum => [.inr (x, sum)]
  | .arith2boolBulk xs => xs.map .inr

/-- An edabit as `next_edabits` hands it out. -/
structure Edabit where
  /-- The number of the generation in place, from 1 on. -/
  gen : ℕ
  /-- The number of the draw of labels in place, from 1 on. -/
  draw : ℕ
  /-- Where the batch starts among the labels. -/
  npPt : ℕ
  /-- The index among the wires. -/
  edabF2 : ℕ
  /-- The index among the labels. -/
  edabFp : ℕ
deriving DecidableEq

/-- An edabit and what is in place when its candidates are read. -/
structure EdabitUse extends Edabit where
  /-- The generation. -/
  genRead : ℕ
  /-- The draw of labels. -/
  drawRead : ℕ
deriving DecidableEq

namespace EdaBits

variable {P : EdaBitsParams}

/-- The constructor: the labels are drawn, and there is no batch. -/
def start (deltaFp : ℕ) (voleDraw : ℕ → ℕ → Label) (boolFeed : ℕ → ℕ → ZKInt62) : EdaBits P where
  deltaFp
  arithCandidate := voleDraw 0
  boolCandidate _ := 0
  npPt := 0
  npRg := 0
  edabitNum := 0
  edabitOffset := 0
  voleDraw
  draws := 1
  boolFeed
  gens := 0

/-- One element, by the scalar conversion. -/
def convert (F : FpOps) (s : EdaBits P) : ZKInt62 ⊕ Label × ℕ → EdaBits P × (Label ⊕ Converted)
  | .inl x => ((s.bool2arith F x).1, .inl (s.bool2arith F x).2)
  | .inr x => ((s.arith2bool F x.1 x.2).1, .inr (s.arith2bool F x.1 x.2).2)

/-- A call. -/
def call (F : FpOps) (s : EdaBits P) : ConversionCall → EdaBits P × List (Label ⊕ Converted)
  | .bool2arith x =>
    let (s, y) := s.bool2arith F x
    (s, [.inl y])
  | .bool2arithBulk xs =>
    let (s, ys) := s.bool2arithBulk F xs
    (s, ys.map .inl)
  | .arith2bool x sum =>
    let (s, c) := s.arith2bool F x sum
    (s, [.inr c])
  | .arith2boolBulk xs =>
    let (s, cs) := s.arith2boolBulk F xs
    (s, cs.map .inr)

/-- A sequence of calls, and all they return. -/
def run (F : FpOps) (s : EdaBits P) (calls : List ConversionCall) :
    EdaBits P × List (Label ⊕ Converted) :=
  ((Chunks.each (call F) s calls).1, (Chunks.each (call F) s calls).2.flatten)

/-! ## The edabits of a call -/

/-- The next edabit. -/
def fetch (s : EdaBits P) : Edabit :=
  let (s, edabF2, edabFp) := s.nextEdabits
  ⟨s.gens, s.draws, s.npPt, edabF2, edabFp⟩

/-- Read the candidates of an edabit.  In a chunk one of the two is read when the edabit is drawn,
and the other one at the end. -/
def readIn (e : Edabit) (s : EdaBits P) : EdabitUse := ⟨e, s.gens, s.draws⟩

/-- The edabit of a scalar conversion. -/
def useOne {α : Type*} (s : EdaBits P) (_x : α) : EdaBits P × EdabitUse :=
  (s.drawn, readIn s.fetch s.drawn)

/-- The edabits of the first loop of a chunk. -/
def fetchChunk {α : Type*} : EdaBits P → List α → EdaBits P × List Edabit
  | s, [] => (s, [])
  | s, _ :: xs => ((fetchChunk s.drawn xs).1, s.fetch :: (fetchChunk s.drawn xs).2)

/-- The edabits of a bulk conversion, with what is in place at the end of their chunk. -/
def useBulk {α : Type*} (s : EdaBits P) (xs : List α) : EdaBits P × List EdabitUse :=
  if _h : xs = [] then (s, [])
  else
    let num := min xs.length s.avail
    let (s', es) := fetchChunk s (xs.take num)
    let (s'', rest) := useBulk s' (xs.drop num)
    (s'', es.map (readIn · s') ++ rest)
termination_by xs.length
decreasing_by
  have hx : 0 < xs.length := List.length_pos_iff.mpr _h
  have ha := s.avail_pos
  rw [List.length_drop]
  omega

/-- The edabits of a call. -/
def callUses (s : EdaBits P) : ConversionCall → EdaBits P × List EdabitUse
  | .bool2arith x => ((s.useOne x).1, [(s.useOne x).2])
  | .bool2arithBulk xs => useBulk s xs
  | .arith2bool x sum => ((s.useOne (x, sum)).1, [(s.useOne (x, sum)).2])
  | .arith2boolBulk xs => useBulk s xs

/-- The edabits of a sequence of calls. -/
def uses (s : EdaBits P) (calls : List ConversionCall) : EdaBits P × List EdabitUse :=
  ((Chunks.each callUses s calls).1, (Chunks.each callUses s calls).2.flatten)

/-! ## Bulk and scalar -/

variable {F : FpOps}

/-- **A call is the scalar conversion of its elements**, one after the other. -/
theorem call_eq (s : EdaBits P) (c : ConversionCall) :
    call F s c = Chunks.each (convert F) s c.elems := by
  cases c with
  | bool2arith x => rfl
  | bool2arithBulk xs =>
    have hinl : ∀ (s : EdaBits P) x, convert F s (.inl x) = Prod.map id .inl (bool2arith F s x) :=
      fun _ _ => rfl
    rw [call, bool2arithBulk_eq, ConversionCall.elems, Chunks.each_map hinl]
    rfl
  | arith2bool x sum => rfl
  | arith2boolBulk xs =>
    have hinr : ∀ (s : EdaBits P) x,
        convert F s (.inr x) = Prod.map id .inr (arith2bool F s x.1 x.2) := fun _ _ => rfl
    rw [call, arith2boolBulk_eq, arith2boolEach_eq, ConversionCall.elems, Chunks.each_map hinr]
    rfl

theorem run_eq (s : EdaBits P) (calls : List ConversionCall) :
    run F s calls = Chunks.each (convert F) s (calls.flatMap ConversionCall.elems) :=
  (Chunks.each_flatMap call_eq s calls).symm

theorem useOne_fst {α : Type*} (s : EdaBits P) (x : α) : (useOne s x).1 = s.drawn := rfl

theorem useBulk_nil {α : Type*} (s : EdaBits P) : useBulk s ([] : List α) = (s, []) := by
  rw [useBulk, dif_pos rfl]

/-- One turn of the loop over chunks. -/
theorem useBulk_of_ne_nil {α : Type*} {s : EdaBits P} {xs : List α} (h : xs ≠ []) :
    useBulk s xs =
      ((useBulk (fetchChunk s (xs.take (min xs.length s.avail))).1
          (xs.drop (min xs.length s.avail))).1,
        (fetchChunk s (xs.take (min xs.length s.avail))).2.map
            (readIn · (fetchChunk s (xs.take (min xs.length s.avail))).1) ++
          (useBulk (fetchChunk s (xs.take (min xs.length s.avail))).1
            (xs.drop (min xs.length s.avail))).2) := by
  rw [useBulk, dif_neg h]

/-- **A chunk stays within its batch**: what is in place at its end was in place at each draw. -/
theorem fetchChunk_spec {α : Type*} : ∀ (s : EdaBits P) (xs : List α),
    xs.length ≤ s.edabitNum →
      (fetchChunk s xs).1.gens = s.gens ∧ (fetchChunk s xs).1.draws = s.draws ∧
      Chunks.each useOne s xs = ((fetchChunk s xs).1, (fetchChunk s xs).2.map (readIn · s))
  | _, [], _ => ⟨rfl, rfl, rfl⟩
  | s, x :: xs, h => by
    rw [List.length_cons] at h
    have hdrawn := drawn_of_pos (Nat.zero_lt_of_lt h)
    have hnum : xs.length ≤ s.drawn.edabitNum := by
      rw [hdrawn]
      exact Nat.le_sub_one_of_lt h
    have hgens : s.drawn.gens = s.gens := by rw [hdrawn]
    have hdraws : s.drawn.draws = s.draws := by rw [hdrawn]
    have hread : (readIn · s.drawn) = (readIn · s) := by
      funext e
      rw [readIn, readIn, hgens, hdraws]
    obtain ⟨hgens', hdraws', hrest⟩ := fetchChunk_spec s.drawn xs hnum
    refine ⟨hgens'.trans hgens, hdraws'.trans hdraws, ?_⟩
    rw [hread] at hrest
    rw [Chunks.each, useOne, hrest, fetchChunk, List.map_cons]
    exact congrArg (fun f : Edabit → EdabitUse => (_, f s.fetch :: _)) hread

theorem fetch_ready (s : EdaBits P) : s.ready.fetch = s.fetch := by
  rw [fetch, fetch, nextEdabits_ready]

theorem drawn_ready (s : EdaBits P) : s.ready.drawn = s.drawn := by
  rw [drawn, drawn, nextEdabits_ready]

theorem fetchChunk_ready {α : Type*} {s : EdaBits P} {xs : List α} (h : xs ≠ []) :
    fetchChunk s.ready xs = fetchChunk s xs := by
  cases xs with
  | nil => exact absurd rfl h
  | cons x xs => rw [fetchChunk, fetchChunk, fetch_ready, drawn_ready]

theorem each_useOne_ready {α : Type*} {s : EdaBits P} {xs : List α} (h : xs ≠ []) :
    Chunks.each useOne s.ready xs = Chunks.each useOne s xs := by
  cases xs with
  | nil => exact absurd rfl h
  | cons x xs => rw [Chunks.each, Chunks.each, useOne, useOne, fetch_ready, drawn_ready]

/-- **A bulk conversion uses the edabits of the scalar ones**, and reads them in place. -/
theorem useBulk_eq {α : Type*} (s : EdaBits P) (xs : List α) :
    useBulk s xs = Chunks.each useOne s xs := by
  refine Chunks.bulk_eq_each avail_pos useBulk_nil (fun s xs h => ?_) s xs
  have htake := s.take_avail_ne_nil h
  obtain ⟨hgens, hdraws, heach⟩ := fetchChunk_spec s.ready _ (s.length_take_avail xs)
  rw [each_useOne_ready htake, fetchChunk_ready htake] at heach
  rw [fetchChunk_ready htake] at hgens hdraws
  have hread : (readIn · (fetchChunk s (xs.take (min xs.length s.avail))).1)
      = (readIn · s.ready) := by
    funext e
    rw [readIn, readIn, hgens, hdraws]
  rw [useBulk_of_ne_nil h, hread, heach]

theorem callUses_eq (s : EdaBits P) (c : ConversionCall) :
    callUses s c = Chunks.each useOne s c.elems := by
  have hmap : ∀ {α : Type} (f : α → ZKInt62 ⊕ Label × ℕ) (xs : List α),
      Chunks.each useOne s (xs.map f) = Chunks.each useOne s xs := fun f xs => by
    have hid : ∀ (s : EdaBits P) x, useOne s (f x) = Prod.map id id (useOne s x) :=
      fun _ _ => rfl
    simp [Chunks.each_map hid]
  cases c with
  | bool2arith x => rfl
  | bool2arithBulk xs => rw [callUses, useBulk_eq, ConversionCall.elems, hmap]
  | arith2bool x sum => rfl
  | arith2boolBulk xs => rw [callUses, useBulk_eq, ConversionCall.elems, hmap]

theorem uses_eq (s : EdaBits P) (calls : List ConversionCall) :
    uses s calls = Chunks.each useOne s (calls.flatMap ConversionCall.elems) :=
  (Chunks.each_flatMap callUses_eq s calls).symm

end EdaBits

/-! ## Where an edabit is -/

namespace EdaBitsParams

variable (P : EdaBitsParams)

/-- The batches that fit into one draw of labels. -/
def windows : ℕ := P.npSz / P.ell

/-- Edabit `k` of a run: the batches follow each other, and so do the edabits of a batch. -/
def edabit (k : ℕ) : Edabit where
  gen := k / P.N + 1
  draw := k / P.N / P.windows + 1
  npPt := k / P.N % P.windows * P.ell
  edabF2 := k % P.N
  edabFp := k / P.N % P.windows * P.ell + k % P.N

variable {P}

theorem N_le_ell (hB : 0 < P.B) : P.N ≤ P.ell :=
  (Nat.le_mul_of_pos_left P.N hB).trans (Nat.le_add_right _ P.C)

theorem windows_pos (hB : 0 < P.B) (hsz : P.ell ≤ P.npSz) : 0 < P.windows :=
  Nat.div_pos hsz (P.N_pos.trans_le (N_le_ell hB))

/-- A batch fits at the end of window `m` as long as there are windows. -/
theorem fits_iff (hB : 0 < P.B) (m : ℕ) : m * P.ell + P.ell ≤ P.npSz ↔ m < P.windows := by
  rw [windows, ← Nat.succ_mul, ← Nat.le_div_iff_mul_le (P.N_pos.trans_le (N_le_ell hB))]
  exact Nat.succ_le_iff

/-- The words that `edabits_gen_backend` compares do not wrap around. -/
theorem std_window_lt_word {npPt : ℕ} (h : npPt + std.ell ≤ std.npSz) :
    npPt + std.ell + std.ell < 2 ^ 32 := by
  have hell : std.ell = 1600002 := by decide
  have hsz : std.npSz = 4194304 := by decide
  omega

/-! ### Edabits of a run -/

theorem edabF2_lt (k : ℕ) : (P.edabit k).edabF2 < P.N := Nat.mod_lt k P.N_pos

theorem window_le (hB : 0 < P.B) (hsz : P.ell ≤ P.npSz) (k : ℕ) :
    (P.edabit k).npPt + P.ell ≤ P.npSz :=
  (fits_iff hB _).mpr (Nat.mod_lt _ (windows_pos hB hsz))

/-- Two edabits of one position in one generation are the same. -/
theorem edabit_injective_f2 :
    Function.Injective fun k => ((P.edabit k).gen, (P.edabit k).edabF2) := by
  rintro k k' h
  obtain ⟨hgen, hpos⟩ := Prod.mk.injEq .. ▸ h
  have hdiv : k / P.N = k' / P.N := Nat.succ_injective hgen
  have hmod : k % P.N = k' % P.N := hpos
  rw [← Nat.div_add_mod k P.N, hdiv, hmod, Nat.div_add_mod]

/-- **Windows of one draw** are the same or apart. -/
theorem window_disjoint {k k' : ℕ} (hdraw : (P.edabit k).draw = (P.edabit k').draw)
    (hgen : (P.edabit k).gen ≠ (P.edabit k').gen) :
    (P.edabit k).npPt + P.ell ≤ (P.edabit k').npPt ∨
      (P.edabit k').npPt + P.ell ≤ (P.edabit k).npPt := by
  have hne : k / P.N % P.windows ≠ k' / P.N % P.windows := fun hmod => hgen (congrArg (· + 1) (by
    have hdiv : k / P.N / P.windows = k' / P.N / P.windows := Nat.succ_injective hdraw
    rw [← Nat.div_add_mod (k / P.N) P.windows, hdiv, hmod, Nat.div_add_mod]))
  have happart : ∀ {m m' : ℕ}, m < m' → m * P.ell + P.ell ≤ m' * P.ell := fun hlt => by
    rw [← Nat.succ_mul]
    exact Nat.mul_le_mul_right P.ell hlt
  exact hne.lt_or_gt.imp happart happart

/-- Two edabits of one label of one draw are the same. -/
theorem edabit_injective_fp (hB : 0 < P.B) :
    Function.Injective fun k => ((P.edabit k).draw, (P.edabit k).edabFp) := by
  rintro k k' h
  obtain ⟨hdraw, hfp⟩ := Prod.mk.injEq .. ▸ h
  have hlt := (P.edabF2_lt k).trans_le (N_le_ell hB)
  have hlt' := (P.edabF2_lt k').trans_le (N_le_ell hB)
  have hsum : (P.edabit k).npPt + (P.edabit k).edabF2
      = (P.edabit k').npPt + (P.edabit k').edabF2 := hfp
  have hgen : (P.edabit k).gen = (P.edabit k').gen := by
    by_contra hne
    rcases window_disjoint hdraw hne with hle | hle <;> omega
  have hpt : (P.edabit k).npPt = (P.edabit k').npPt :=
    congrArg (fun g => (g - 1) % P.windows * P.ell) hgen
  have hpos : (P.edabit k).edabF2 = (P.edabit k').edabF2 := by omega
  exact edabit_injective_f2 (Prod.ext hgen hpos)

end EdaBitsParams

/-- The next number, within a row. -/
theorem succ_div_mod_of_lt {k n : ℕ} (h : k % n + 1 < n) :
    (k + 1) / n = k / n ∧ (k + 1) % n = k % n + 1 := by
  refine (Nat.div_mod_unique (Nat.zero_lt_of_lt h)).mpr ⟨?_, h⟩
  rw [Nat.add_right_comm, Nat.mod_add_div]

/-- The next number, at the end of a row. -/
theorem succ_div_mod_of_eq {k n : ℕ} (h : k % n + 1 = n) :
    (k + 1) / n = k / n + 1 ∧ (k + 1) % n = 0 := by
  have hpos : 0 < n := h ▸ Nat.succ_pos _
  refine (Nat.div_mod_unique hpos).mpr ⟨?_, hpos⟩
  have hdiv := Nat.mod_add_div k n
  rw [Nat.zero_add, Nat.mul_succ]
  omega

namespace EdaBits

variable {P : EdaBitsParams} {deltaFp : ℕ} {voleDraw : ℕ → ℕ → Label}
  {boolFeed : ℕ → ℕ → ZKInt62}

/-- The state that has edabit `k` to hand out next. -/
structure Serving (deltaFp : ℕ) (voleDraw : ℕ → ℕ → Label) (boolFeed : ℕ → ℕ → ZKInt62) (k : ℕ)
    (s : EdaBits P) : Prop where
  /-- The generation. -/
  gens : s.gens = k / P.N + 1
  /-- The draw of labels. -/
  draws : s.draws = k / P.N / P.windows + 1
  /-- Its start. -/
  npPt : s.npPt = k / P.N % P.windows * P.ell
  /-- Its end. -/
  npRg : s.npRg = s.npPt + P.ell
  /-- The position. -/
  edabitOffset : s.edabitOffset = k % P.N
  /-- What is left. -/
  edabitNum : s.edabitNum = P.N - k % P.N
  /-- The wires of the generation. -/
  boolCandidate : s.boolCandidate = boolFeed (k / P.N)
  /-- The labels of the draw. -/
  arithCandidate : s.arithCandidate = voleDraw (k / P.N / P.windows)
  /-- The key is fixed. -/
  deltaFp_eq : s.deltaFp = deltaFp
  /-- The draws are fixed. -/
  voleDraw_eq : s.voleDraw = voleDraw
  /-- The feeds are fixed. -/
  boolFeed_eq : s.boolFeed = boolFeed

/-- A batch that fits takes the labels that are there. -/
theorem edabitsGenBackend_of_le {s : EdaBits P} (h : s.npPt + P.ell ≤ P.npSz) :
    s.edabitsGenBackend = { s with
      npRg := s.npPt + P.ell, boolCandidate := s.boolFeed s.gens, gens := s.gens + 1
      edabitNum := P.N, edabitOffset := 0 } := by
  rw [edabitsGenBackend, if_neg h.not_gt]

/-- A batch that does not fit starts over with new labels. -/
theorem edabitsGenBackend_of_lt {s : EdaBits P} (h : P.npSz < s.npPt + P.ell) :
    s.edabitsGenBackend = { s with
      arithCandidate := s.voleDraw s.draws, draws := s.draws + 1, npPt := 0
      npRg := 0 + P.ell, boolCandidate := s.boolFeed s.gens, gens := s.gens + 1
      edabitNum := P.N, edabitOffset := 0 } := by
  rw [edabitsGenBackend, if_pos h]

section Serving

variable (hB : 0 < P.B) (hsz : P.ell ≤ P.npSz)

include hsz in
theorem Serving.zero : Serving (P := P) deltaFp voleDraw boolFeed 0
    (start deltaFp voleDraw boolFeed).ready := by
  have hready : (start deltaFp voleDraw boolFeed : EdaBits P).ready
      = (start deltaFp voleDraw boolFeed).edabitsGenBackend := if_pos rfl
  have hfits : (start deltaFp voleDraw boolFeed : EdaBits P).npPt + P.ell ≤ P.npSz := by
    rw [start, Nat.zero_add]
    exact hsz
  rw [hready, edabitsGenBackend_of_le hfits]
  constructor <;> simp [start]

/-- **Within a batch** only the position moves. -/
theorem Serving.within {k : ℕ} {s : EdaBits P} (h : Serving deltaFp voleDraw boolFeed k s)
    (hlt : k % P.N + 1 < P.N) : Serving deltaFp voleDraw boolFeed (k + 1) s.drawn.ready := by
  obtain ⟨hdiv, hmod⟩ := succ_div_mod_of_lt hlt
  have hnum := h.edabitNum
  rw [drawn_of_pos (by omega), ready_of_pos (by show 0 < s.edabitNum - 1; omega)]
  exact { h with
    gens := hdiv ▸ h.gens
    draws := hdiv ▸ h.draws
    npPt := hdiv ▸ h.npPt
    edabitOffset := hmod ▸ congrArg (· + 1) h.edabitOffset
    edabitNum := by rw [hmod, hnum, Nat.sub_sub]
    boolCandidate := hdiv ▸ h.boolCandidate
    arithCandidate := hdiv ▸ h.arithCandidate }

include hB hsz in
/-- **At the end of a batch** the next one is generated: in the next window, or in the first one of
a new draw. -/
theorem Serving.turn {k : ℕ} {s : EdaBits P} (h : Serving deltaFp voleDraw boolFeed k s)
    (heq : k % P.N + 1 = P.N) : Serving deltaFp voleDraw boolFeed (k + 1) s.drawn.ready := by
  obtain ⟨hdiv, hmod⟩ := succ_div_mod_of_eq heq
  have hnum := h.edabitNum
  have hready : s.drawn.ready = edabitsGenBackend { s with
      edabitOffset := s.edabitOffset + 1, edabitNum := s.edabitNum - 1, npPt := s.npRg } := by
    rw [drawn_of_pos (by omega), ready, if_pos (by show s.edabitNum - 1 = 0; omega)]
  have hend : s.npRg = (k / P.N % P.windows + 1) * P.ell := by
    rw [h.npRg, h.npPt, Nat.succ_mul]
  have hfits := EdaBitsParams.fits_iff hB (k / P.N % P.windows + 1)
  rw [← hend] at hfits
  have hmodlt := Nat.mod_lt (k / P.N) (EdaBitsParams.windows_pos hB hsz)
  rw [hready]
  rcases (Nat.succ_le_of_lt hmodlt).lt_or_eq with hlast | hlast
  · obtain ⟨hdiv', hmod'⟩ := succ_div_mod_of_lt hlast
    rw [edabitsGenBackend_of_le (hfits.mpr hlast)]
    exact { h with
      gens := by rw [hdiv, h.gens]
      draws := by rw [hdiv, hdiv', h.draws]
      npPt := by rw [hdiv, hmod', hend]
      npRg := rfl
      edabitOffset := hmod.symm
      edabitNum := by rw [hmod, Nat.sub_zero]
      boolCandidate := by rw [hdiv, h.boolFeed_eq, h.gens]
      arithCandidate := by rw [hdiv, hdiv', h.arithCandidate] }
  · obtain ⟨hdiv', hmod'⟩ := succ_div_mod_of_eq hlast
    rw [edabitsGenBackend_of_lt (Nat.not_le.mp (mt hfits.mp hlast.not_lt))]
    exact { h with
      gens := by rw [hdiv, h.gens]
      draws := by rw [hdiv, hdiv', h.draws]
      npPt := by rw [hdiv, hmod', Nat.zero_mul]
      npRg := rfl
      edabitOffset := hmod.symm
      edabitNum := by rw [hmod, Nat.sub_zero]
      boolCandidate := by rw [hdiv, h.boolFeed_eq, h.gens]
      arithCandidate := by rw [hdiv, hdiv', h.voleDraw_eq, h.draws] }

include hB hsz in
/-- **Edabit `k`**, after any `k` draws. -/
theorem serving_iterate (k : ℕ) : Serving deltaFp voleDraw boolFeed k
    (drawn^[k] (start deltaFp voleDraw boolFeed : EdaBits P)).ready := by
  induction k with
  | zero => exact Serving.zero hsz
  | succ k ih =>
    rw [Function.iterate_succ_apply', ← drawn_ready]
    rcases (Nat.succ_le_of_lt (Nat.mod_lt k P.N_pos)).lt_or_eq with hlt | heq
    · exact ih.within hlt
    · exact ih.turn hB hsz heq

/-- What is handed out, and what is in place when it is read. -/
theorem Serving.useOne {α : Type*} {k : ℕ} {s : EdaBits P}
    (h : Serving deltaFp voleDraw boolFeed k s.ready) (x : α) :
    (s.useOne x).2 = ⟨P.edabit k, (P.edabit k).gen, (P.edabit k).draw⟩ := by
  have hfetch : s.fetch = P.edabit k := by
    rw [fetch, EdaBitsParams.edabit, ← h.gens, ← h.draws, ← h.npPt, ← h.edabitOffset]
    rfl
  rw [EdaBits.useOne, readIn, hfetch]
  show (⟨_, s.ready.gens, s.ready.draws⟩ : EdabitUse) = _
  rw [h.gens, h.draws]
  rfl

/-- The candidates of an edabit. -/
theorem Serving.edabitAt {k : ℕ} {s : EdaBits P}
    (h : Serving deltaFp voleDraw boolFeed k s.ready) :
    s.edabitAt 0 = (voleDraw ((P.edabit k).draw - 1) (P.edabit k).edabFp,
      boolFeed ((P.edabit k).gen - 1) (P.edabit k).edabF2) := by
  show (s.ready.arithCandidate (s.ready.npPt + s.ready.edabitOffset),
    s.ready.boolCandidate s.ready.edabitOffset) = _
  rw [h.arithCandidate, h.boolCandidate, h.npPt, h.edabitOffset]
  rfl

end Serving

/-! ## A run -/

/-- The conversion of an element with the candidates of an edabit. -/
def converted (F : FpOps) (deltaFp : ℕ) (cand : Label) (r : ZKInt62) :
    ZKInt62 ⊕ Label × ℕ → Label ⊕ Converted
  | .inl x => .inl (unmaskOne F deltaFp cand (diffBool x r))
  | .inr x => .inr (convertOne F deltaFp (intfpAdd F cand x.1) x.2 r)

theorem convert_fst {F : FpOps} (s : EdaBits P) (e : ZKInt62 ⊕ Label × ℕ) :
    (convert F s e).1 = s.drawn := by
  cases e <;> rfl

theorem convert_snd {F : FpOps} (s : EdaBits P) (e : ZKInt62 ⊕ Label × ℕ) :
    (convert F s e).2 = converted F s.deltaFp (s.edabitAt 0).1 (s.edabitAt 0).2 e := by
  rw [← deltaFp_drawn]
  cases e <;> rfl

section Run

variable (hB : 0 < P.B) (hsz : P.ell ≤ P.npSz)
include hB hsz

/-- **The edabits of a run** are the edabits in their order. -/
theorem uses_start (calls : List ConversionCall) :
    (uses (start deltaFp voleDraw boolFeed : EdaBits P) calls).2
      = (List.range (calls.flatMap ConversionCall.elems).length).map fun k =>
        ⟨P.edabit k, (P.edabit k).gen, (P.edabit k).draw⟩ := by
  rw [uses_eq]
  generalize calls.flatMap ConversionCall.elems = elems
  refine List.ext_getElem? fun k => ?_
  simp only [Chunks.each_getElem? useOne_fst, (serving_iterate hB hsz k).useOne]
  rcases Nat.lt_or_ge k elems.length with hlt | hge
  · simp [hlt]
  · simp [hge]

/-- **What a run returns**: element `k` is converted with the candidates that edabit `k` has when
they are read. -/
theorem run_start (F : FpOps) (calls : List ConversionCall) :
    (run F (start deltaFp voleDraw boolFeed : EdaBits P) calls).2
      = List.zipWith (fun e (u : EdabitUse) =>
          converted F deltaFp (voleDraw (u.drawRead - 1) u.edabFp)
            (boolFeed (u.genRead - 1) u.edabF2) e)
        (calls.flatMap ConversionCall.elems)
        (uses (start deltaFp voleDraw boolFeed : EdaBits P) calls).2 := by
  rw [run_eq, uses_start hB hsz]
  refine List.ext_getElem? fun k => ?_
  have hserving : Serving (P := P) deltaFp voleDraw boolFeed k _ := serving_iterate hB hsz k
  rw [Chunks.each_getElem? convert_fst, List.getElem?_zipWith, List.getElem?_map]
  cases hk : (calls.flatMap ConversionCall.elems)[k]? with
  | none => rfl
  | some e =>
    have hlt := (List.getElem?_eq_some_iff.mp hk).1
    rw [List.getElem?_range hlt, Option.map_some, Option.map_some, convert_snd,
      hserving.edabitAt, deltaFp_iterate_drawn]
    rfl

/-- **Edabits are used once.**  Whatever the calls of the four conversions are, of one element or
of any number, from the constructor on:

they return what the scalar conversions would, element by element, and leave the same state; every
edabit is read in the generation, and under the draw of labels, in which it was handed out, at one
position of the batch among its wires and among its labels; no wires and no label are used twice;
the batches stay inside the buffer of labels, and two of one draw have no label in common.  The
outputs come from the candidates at these places. -/
theorem edabits_single_use (F : FpOps) (deltaFp : ℕ) (voleDraw : ℕ → ℕ → Label)
    (boolFeed : ℕ → ℕ → ZKInt62) (calls : List ConversionCall) :
    let s : EdaBits P := start deltaFp voleDraw boolFeed
    let elems := calls.flatMap ConversionCall.elems
    let us := (uses s calls).2
    run F s calls = Chunks.each (convert F) s elems ∧ (run F s calls).1 = (uses s calls).1 ∧
    us.length = elems.length ∧
    (∀ u ∈ us, u.genRead = u.gen ∧ u.drawRead = u.draw ∧ u.edabF2 < P.N ∧
      u.edabFp = u.npPt + u.edabF2 ∧ u.npPt + P.ell ≤ P.npSz) ∧
    (us.map fun u => (u.gen, u.edabF2)).Nodup ∧ (us.map fun u => (u.draw, u.edabFp)).Nodup ∧
    (∀ u ∈ us, ∀ u' ∈ us, u.draw = u'.draw → u.gen ≠ u'.gen →
      u.npPt + P.ell ≤ u'.npPt ∨ u'.npPt + P.ell ≤ u.npPt) ∧
    (run F s calls).2 = List.zipWith (fun e (u : EdabitUse) =>
      converted F deltaFp (voleDraw (u.drawRead - 1) u.edabFp)
        (boolFeed (u.genRead - 1) u.edabF2) e) elems us := by
  intro s elems us
  have hus : us = (List.range elems.length).map fun k =>
      ⟨P.edabit k, (P.edabit k).gen, (P.edabit k).draw⟩ := uses_start hB hsz calls
  have hmem : ∀ u ∈ us, ∃ k, u = ⟨P.edabit k, (P.edabit k).gen, (P.edabit k).draw⟩ := by
    rintro u hu
    rw [hus, List.mem_map] at hu
    obtain ⟨k, -, rfl⟩ := hu
    exact ⟨k, rfl⟩
  refine ⟨run_eq s calls, ?_, by rw [hus, List.length_map, List.length_range], ?_, ?_, ?_, ?_,
    run_start hB hsz F calls⟩
  · rw [run_eq, uses_eq, Chunks.each_fst convert_fst, Chunks.each_fst useOne_fst]
  · rintro u hu
    obtain ⟨k, rfl⟩ := hmem u hu
    exact ⟨rfl, rfl, P.edabF2_lt k, rfl, EdaBitsParams.window_le hB hsz k⟩
  · rw [hus, List.map_map]
    exact List.nodup_range.map EdaBitsParams.edabit_injective_f2
  · rw [hus, List.map_map]
    exact List.nodup_range.map (EdaBitsParams.edabit_injective_fp hB)
  · rintro u hu u' hu'
    obtain ⟨k, rfl⟩ := hmem u hu
    obtain ⟨k', rfl⟩ := hmem u' hu'
    exact EdaBitsParams.window_disjoint

end Run

/-- Calls of `m` elements, of one and of `n`. -/
def mixedCalls (m n : ℕ) : List ConversionCall :=
  [.bool2arithBulk (List.replicate m 3), .arith2bool ⟨⟨0, 0⟩, ⟨0, 0⟩⟩ 0,
    .arith2boolBulk (List.replicate n (⟨⟨0, 0⟩, ⟨0, 0⟩⟩, 0))]

theorem length_mixedCalls (m n : ℕ) :
    ((mixedCalls m n).flatMap ConversionCall.elems).length = m + (n + 1) := by
  simp [mixedCalls, ConversionCall.elems]

/-- Three million conversions with the parameters of the source: five batches, under three draws of
labels.  No cursor wraps around. -/
theorem edabits_single_use_std :
    let s : EdaBits EdaBitsParams.std := start 1 (fun _ _ => ⟨⟨0, 0⟩, ⟨0, 0⟩⟩) fun _ _ => 0
    let us := (uses s (mixedCalls 800001 2400000)).2
    us.length = 3200002 ∧ (us.map fun u => (u.gen, u.edabF2)).Nodup ∧
      (us.map fun u => (u.draw, u.edabFp)).Nodup ∧
      ∀ u ∈ us, u.npPt + 1600002 ≤ 4194304 ∧
        u.npPt + EdaBitsParams.std.ell + EdaBitsParams.std.ell < 2 ^ 32 := by
  intro s us
  obtain ⟨-, -, hlen, hin, hf2, hfp, -⟩ := edabits_single_use (P := EdaBitsParams.std)
    Nat.two_pos (by decide) FpOps.residues 1 (fun _ _ => ⟨⟨0, 0⟩, ⟨0, 0⟩⟩) (fun _ _ => 0)
    (mixedCalls 800001 2400000)
  refine ⟨hlen.trans (length_mixedCalls _ _), hf2, hfp, fun u hu => ?_⟩
  obtain ⟨-, -, -, -, hwindow⟩ := hin u hu
  exact ⟨hwindow, EdaBitsParams.std_window_lt_word hwindow⟩

end EdaBits

end VoleZk
