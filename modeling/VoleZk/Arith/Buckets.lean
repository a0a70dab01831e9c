import VoleZk.Arith.Edabits
import VoleZk.Lib.CyclicCover

/-!
# Which candidates a generation opens and pairs

A generation of edabits keeps its first `N` candidates and uses up the others: from a challenge on,
`C` of them are opened, and the next `(B - 1) * N`, in a circle, are paired with the outputs.  The
partners are found by indices that are taken back into the circle; the opened block is addressed
from its first candidate on.

## What is here

* `EdaBitsParams.openedF2`, `EdaBitsParams.openedFp`, `EdaBitsParams.buckets`, by their loops;
* `EdaBitsParams.buckets_eq` — **the pairs of a generation**;
* `EdaBitsParams.covered_iff` — **every candidate is used once unless the opened block leaves the
  batch**;
* `EdaBitsParams.std_not_covered` — the last challenge of the source's parameters.
-/

set_option autoImplicit false

open CyclicCover

namespace VoleZk

/-- A comparison of an output candidate with a partner: the indices among the wires, and among the
labels. -/
structure Comparison where
  /-- `i`. -/
  outF2 : ℕ
  /-- `if21`. -/
  partnerF2 : ℕ
  /-- `ifp0`. -/
  outFp : ℕ
  /-- `ifp1`. -/
  partnerFp : ℕ
  deriving DecidableEq

namespace EdaBitsParams

variable (P : EdaBitsParams)

/-- `ell_faulty`: the candidates that are used up. -/
def ellFaulty : ℕ := P.ell - P.N

/-- `Bm1`. -/
def Bm1 : ℕ := P.B - 1

/-- `fp_index`, in a batch that ends at `npRg`. -/
def fpIndex (npRg offset : ℕ) : ℕ := if offset ≥ npRg then offset - P.ellFaulty else offset

/-- `f2_index`. -/
def f2Index (offset : ℕ) : ℕ := if offset ≥ P.ell then offset - P.ellFaulty else offset

/-- The wires that are opened. -/
def openedF2 (randPt : ℕ) : List ℕ := (List.range P.C).map fun i => P.N + randPt + i

/-- The labels that are opened. -/
def openedFp (npPt randPt : ℕ) : List ℕ := (List.range P.C).map fun i => npPt + P.N + randPt + i

/-- The inner loop of the bucketing, with `len` turns to go. -/
def bucketRow (npRg : ℕ) : ℕ → ℕ → ℕ → ℕ → ℕ → List Comparison
  | 0, _, _, _, _ => []
  | len + 1, i, ifp0, ifp1, if21 =>
    ⟨i, if21, ifp0, ifp1⟩ ::
      bucketRow npRg len (i + 1) (ifp0 + 1) (P.fpIndex npRg (ifp1 + P.Bm1))
        (P.f2Index (if21 + P.Bm1))

/-- The bucketing of `edabits_gen_backend`. -/
def buckets (npPt randPt : ℕ) : List Comparison :=
  let npRg := npPt + P.ell
  let bucStart := P.fpIndex npRg (npPt + P.N + randPt + P.C)
  let bucStart1 := P.f2Index (randPt + P.N + P.C)
  (List.range P.Bm1).flatMap fun j =>
    P.bucketRow npRg P.N 0 npPt (P.fpIndex npRg (bucStart + j)) (P.f2Index (bucStart1 + j))

/-- **Every candidate is used once**: all indices are in the batch, wires and labels correspond, and
the opened candidates and the partners are those behind the outputs. -/
structure Covered (npPt randPt : ℕ) : Prop where
  /-- The opened wires. -/
  openedF2_lt : ∀ i ∈ P.openedF2 randPt, i < P.ell
  /-- The opened labels. -/
  openedFp_mem : ∀ i ∈ P.openedFp npPt randPt, npPt ≤ i ∧ i < npPt + P.ell
  /-- The compared wires. -/
  buckets_lt : ∀ c ∈ P.buckets npPt randPt, c.outF2 < P.ell ∧ c.partnerF2 < P.ell
  /-- The compared labels. -/
  buckets_mem : ∀ c ∈ P.buckets npPt randPt,
    (npPt ≤ c.outFp ∧ c.outFp < npPt + P.ell) ∧ npPt ≤ c.partnerFp ∧ c.partnerFp < npPt + P.ell
  /-- The opened labels are those of the opened wires. -/
  openedFp_eq : P.openedFp npPt randPt = (P.openedF2 randPt).map (npPt + ·)
  /-- The compared labels are those of the compared wires. -/
  buckets_eq : ∀ c ∈ P.buckets npPt randPt,
    c.outFp = npPt + c.outF2 ∧ c.partnerFp = npPt + c.partnerF2
  /-- There are `C` opened candidates. -/
  opened_length : (P.openedF2 randPt).length = P.C
  /-- Every output is compared `B - 1` times. -/
  outputs : (P.buckets npPt randPt).map Comparison.outF2
    = (List.range P.Bm1).flatMap fun _ => List.range P.N
  /-- The others are opened, or partners. -/
  used : (P.openedF2 randPt ++ (P.buckets npPt randPt).map Comparison.partnerF2).Perm
    (List.range' P.N P.ellFaulty)

variable {P}

theorem ellFaulty_eq (hB : 2 ≤ P.B) : P.ellFaulty = P.Bm1 * P.N + P.C := by
  obtain ⟨b, hb⟩ := Nat.exists_eq_add_of_le' (show 1 ≤ P.B by omega)
  rw [ellFaulty, ell, Bm1, hb, Nat.add_sub_cancel, Nat.succ_mul]
  omega

theorem ell_eq (hB : 2 ≤ P.B) : P.ell = P.N + P.ellFaulty := by
  rw [ellFaulty_eq hB, ell, Bm1]
  obtain ⟨b, hb⟩ := Nat.exists_eq_add_of_le' (show 1 ≤ P.B by omega)
  rw [hb, Nat.add_sub_cancel, Nat.succ_mul]
  omega

/-- Wires are counted from the first candidate that is no output. -/
theorem f2Index_eq_wrap (hB : 2 ≤ P.B) (offset : ℕ) :
    P.f2Index offset = wrap P.N P.ellFaulty offset := by
  rw [f2Index, wrap, ell_eq hB]

/-- So are labels. -/
theorem fpIndex_eq_wrap (hB : 2 ≤ P.B) (npPt offset : ℕ) :
    P.fpIndex (npPt + P.ell) offset = wrap (npPt + P.N) P.ellFaulty offset := by
  rw [fpIndex, wrap, ell_eq hB, Nat.add_assoc]

/-- **A row of the bucketing.** -/
theorem bucketRow_eq (hB : 2 ≤ P.B) (hM : P.Bm1 ≤ P.ellFaulty) (hM0 : 0 < P.ellFaulty) (npPt : ℕ)
    (len i t : ℕ) :
    P.bucketRow (npPt + P.ell) len i (npPt + i) (npPt + P.N + t % P.ellFaulty)
        (P.N + t % P.ellFaulty)
      = (List.range len).map fun e => ⟨i + e, P.N + (t + e * P.Bm1) % P.ellFaulty,
        npPt + (i + e), npPt + (P.N + (t + e * P.Bm1) % P.ellFaulty)⟩ := by
  induction len generalizing i t with
  | zero => rfl
  | succ len ih =>
    have hlt := Nat.mod_lt t hM0
    have hf2 : P.f2Index (P.N + t % P.ellFaulty + P.Bm1) = P.N + (t + P.Bm1) % P.ellFaulty := by
      rw [f2Index_eq_wrap hB, Nat.add_assoc, wrap_eq (by omega), Nat.mod_add_mod]
    have hfp : P.fpIndex (npPt + P.ell) (npPt + P.N + t % P.ellFaulty + P.Bm1)
        = npPt + P.N + (t + P.Bm1) % P.ellFaulty := by
      rw [fpIndex_eq_wrap hB, Nat.add_assoc, wrap_eq (by omega), Nat.mod_add_mod]
    rw [bucketRow, hf2, hfp, Nat.add_assoc npPt i 1, ih, List.range_succ_eq_map, List.map_cons,
      List.map_map, Nat.zero_mul, Nat.add_zero, Nat.add_zero, Nat.add_assoc npPt]
    refine congrArg _ (List.map_congr_left fun e _ => ?_)
    rw [Function.comp_apply, Nat.succ_mul, Nat.add_comm (e * _), ← Nat.add_assoc t,
      Nat.succ_eq_add_one, Nat.add_comm e, Nat.add_assoc i]

/-- **The pairs of a generation.** -/
theorem buckets_eq (hB : 2 ≤ P.B) (npPt : ℕ) {randPt : ℕ} (hrand : randPt < P.ellFaulty) :
    P.buckets npPt randPt = (List.range P.Bm1).flatMap fun j => (List.range P.N).map fun e =>
      ⟨e, P.N + (randPt + P.C + j + e * P.Bm1) % P.ellFaulty,
        npPt + e, npPt + (P.N + (randPt + P.C + j + e * P.Bm1) % P.ellFaulty)⟩ := by
  have hM : P.Bm1 ≤ P.ellFaulty := by
    rw [ellFaulty_eq hB]
    exact (Nat.le_mul_of_pos_right _ P.N_pos).trans (Nat.le_add_right _ _)
  have hC : P.C ≤ P.ellFaulty := by
    rw [ellFaulty_eq hB]
    exact Nat.le_add_left _ _
  have hM0 : 0 < P.ellFaulty := (Nat.zero_le _).trans_lt hrand
  have hmod := Nat.mod_lt (randPt + P.C) hM0
  have hstart1 : P.f2Index (randPt + P.N + P.C) = P.N + (randPt + P.C) % P.ellFaulty := by
    rw [f2Index_eq_wrap hB, Nat.add_right_comm, Nat.add_comm _ P.N, wrap_eq (by omega)]
  have hstart : P.fpIndex (npPt + P.ell) (npPt + P.N + randPt + P.C)
      = npPt + P.N + (randPt + P.C) % P.ellFaulty := by
    rw [fpIndex_eq_wrap hB, Nat.add_assoc (npPt + P.N), wrap_eq (by omega)]
  rw [buckets]
  refine List.flatMap_congr fun j hj => ?_
  have hj := List.mem_range.mp hj
  have hrow1 : P.f2Index (P.N + (randPt + P.C) % P.ellFaulty + j)
      = P.N + (randPt + P.C + j) % P.ellFaulty := by
    rw [f2Index_eq_wrap hB, Nat.add_assoc, wrap_eq (by omega), Nat.mod_add_mod]
  have hrow : P.fpIndex (npPt + P.ell) (npPt + P.N + (randPt + P.C) % P.ellFaulty + j)
      = npPt + P.N + (randPt + P.C + j) % P.ellFaulty := by
    rw [fpIndex_eq_wrap hB, Nat.add_assoc (npPt + P.N), wrap_eq (by omega), Nat.mod_add_mod]
  have hloop := bucketRow_eq hB hM hM0 npPt P.N 0 (randPt + P.C + j)
  simp only [hstart, hstart1, hrow, hrow1]
  simpa using hloop

/-- A comparison is an output and a partner. -/
theorem mem_buckets (hB : 2 ≤ P.B) {npPt randPt : ℕ} (hrand : randPt < P.ellFaulty)
    {c : Comparison} (hc : c ∈ P.buckets npPt randPt) :
    ∃ e t, e < P.N ∧ t < P.ellFaulty ∧ c = ⟨e, P.N + t, npPt + e, npPt + (P.N + t)⟩ := by
  rw [buckets_eq hB npPt hrand, List.mem_flatMap] at hc
  obtain ⟨j, -, hc⟩ := hc
  obtain ⟨e, he, rfl⟩ := List.mem_map.mp hc
  exact ⟨e, _, List.mem_range.mp he, Nat.mod_lt _ ((Nat.zero_le _).trans_lt hrand), rfl⟩

/-- **Every candidate is used once unless the opened block leaves the batch**, which it does for the
last challenges if more than one candidate is opened. -/
theorem covered_iff (hB : 2 ≤ P.B) (hC : 1 ≤ P.C) (npPt : ℕ) {randPt : ℕ}
    (hrand : randPt < P.ellFaulty) : P.Covered npPt randPt ↔ randPt ≤ (P.B - 1) * P.N := by
  have hell := ell_eq hB
  have hM : P.ellFaulty = (P.B - 1) * P.N + P.C := ellFaulty_eq hB
  constructor
  · intro h
    have hlast : P.N + randPt + (P.C - 1) ∈ P.openedF2 randPt :=
      List.mem_map_of_mem (List.mem_range.mpr (by omega))
    have := h.openedF2_lt _ hlast
    omega
  · intro hle
    refine
      { openedF2_lt := fun i hi => ?_
        openedFp_mem := fun i hi => ?_
        buckets_lt := fun c hc => ?_
        buckets_mem := fun c hc => ?_
        openedFp_eq := ?_
        buckets_eq := fun c hc => ?_
        opened_length := by rw [openedF2, List.length_map, List.length_range]
        outputs := ?_
        used := ?_ }
    · obtain ⟨t, ht, rfl⟩ := List.mem_map.mp hi
      have := List.mem_range.mp ht
      omega
    · obtain ⟨t, ht, rfl⟩ := List.mem_map.mp hi
      have := List.mem_range.mp ht
      omega
    · obtain ⟨e, t, he, ht, rfl⟩ := mem_buckets hB hrand hc
      show e < P.ell ∧ P.N + t < P.ell
      omega
    · obtain ⟨e, t, he, ht, rfl⟩ := mem_buckets hB hrand hc
      show (npPt ≤ npPt + e ∧ npPt + e < npPt + P.ell) ∧ npPt ≤ npPt + (P.N + t) ∧
        npPt + (P.N + t) < npPt + P.ell
      omega
    · rw [openedFp, openedF2, List.map_map]
      refine List.map_congr_left fun t _ => ?_
      rw [Function.comp_apply, Nat.add_assoc, Nat.add_assoc, Nat.add_assoc]
    · obtain ⟨e, t, -, -, rfl⟩ := mem_buckets hB hrand hc
      exact ⟨rfl, rfl⟩
    · rw [buckets_eq hB npPt hrand, List.map_flatMap]
      refine List.flatMap_congr fun j _ => ?_
      rw [List.map_map]
      exact List.map_id' _
    · -- the opened block does not turn around, so that it is a block of the circle
      have hopened : P.openedF2 randPt
          = ((List.range P.C).map fun t => (randPt + t) % P.ellFaulty).map (P.N + ·) := by
        rw [openedF2, List.map_map]
        refine List.map_congr_left fun t ht => ?_
        have := List.mem_range.mp ht
        rw [Function.comp_apply, Nat.mod_eq_of_lt (by omega), Nat.add_assoc]
      have hpartners : (P.buckets npPt randPt).map Comparison.partnerF2
          = ((List.range P.Bm1).flatMap fun j => (List.range P.N).map fun e =>
            (randPt + P.C + j + e * P.Bm1) % P.ellFaulty).map (P.N + ·) := by
        rw [buckets_eq hB npPt hrand, List.map_flatMap, List.map_flatMap]
        refine List.flatMap_congr fun j _ => ?_
        rw [List.map_map, List.map_map]
        rfl
      rw [hopened, hpartners, ← List.map_append, List.range'_eq_map_range, hM]
      exact (cover_perm (P.B - 1) P.N P.C randPt).map _

/-- The first challenge, and the last that keeps the opened block in the batch. -/
theorem covered_std : EdaBitsParams.std.Covered 0 0 ∧ EdaBitsParams.std.Covered 0 800000 :=
  ⟨(covered_iff (by decide) (by decide) 0 (by decide)).mpr (by decide),
    (covered_iff (by decide) (by decide) 0 (by decide)).mpr (by decide)⟩

/-- **The last challenge of the source's parameters** opens a candidate that does not exist, and
leaves one that is not used. -/
theorem std_not_covered : 800001 < EdaBitsParams.std.ellFaulty ∧
    EdaBitsParams.std.ell ∈ EdaBitsParams.std.openedF2 800001 ∧
    ¬ EdaBitsParams.std.Covered 0 800001 := by
  have hmem : EdaBitsParams.std.ell ∈ EdaBitsParams.std.openedF2 800001 :=
    List.mem_map.mpr ⟨1, by decide, by decide⟩
  exact ⟨by decide, hmem, fun h => lt_irrefl _ (h.openedF2_lt _ hmem)⟩

end EdaBitsParams

end VoleZk
