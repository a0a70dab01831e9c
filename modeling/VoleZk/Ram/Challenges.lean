import Mathlib.Data.FinEnum
import VoleZk.Lib.PublicCoin
import VoleZk.Ram.Complete
import VoleZk.Ram.Set

/-!
# Soundness of the memory, down to the challenges

The shuffles of a memory are permutation proofs: the wires of a record are folded into one with
random coefficients, and the products of the two sides are compared at a random point.  Two records
fold to the same element for few coefficients, and lists that are no permutations of each other have
the same product at few points.  So a memory whose reads are wrong is accepted for few challenges,
whatever the prover commits.

## What is here

* `PermProof.acceptsAt` — `check_eq` after some calls of `emit_`, at given challenges;
* `map_foldVal`, `card_foldVal_eq_le` — **folding two records to one element**;
* `Emitted.card_acceptsAt_le` — **challenges at which no permutation is accepted**;
* `ZKRam.ram_sound_challenges` — **challenges at which wrong reads are accepted.**
-/

set_option autoImplicit false

open Finset

namespace VoleZk

/-- The coefficients that are drawn. -/
def coeffOf {n : ℕ} (c : Fin n → Block) (j : ℕ) : Block := if h : j < n then c ⟨j, h⟩ else 0

/-- The challenges of `check_eq`: the coefficients, and the point. -/
abbrev PermChallenge (width : ℕ) : Type := (Fin (nBlocksFor width) → Block) × Block

/-- `check_eq` after some calls of `emit_` accepts at these challenges, on engines in some state. -/
def PermProof.acceptsAt (C : F2kConfig) {width : ℕ} (prover verifier : ZKBool) (voles : ℕ)
    (em : List Emit) (ch : PermChallenge width) : Bool :=
  (((PermProof.init prover verifier voles).run C (em.map (Emit.op C.bool width))).bind
    (PermProof.checkEq C (nBlocksFor width) (coeffOf ch.1) ch.2)).isSome

theorem card_block : Fintype.card Block = 2 ^ 128 := by
  rw [← FinEnum.card_eq_fintypeCard]
  rfl

/-! ## Folding -/

section Fold

variable {C : BoolConfig} {R : Type*} [CommRing R] {φ : Block → R} {n : ℕ}

/-- A folded element is a combination of its wires. -/
theorem map_foldVal (hG : C.G.Lawful φ) (hn : 0 < n) (hne : n ≠ 1) (c e : Fin n → Block) :
    φ (foldVal C (coeffOf c) e) = ∑ j, φ (c j) * φ (e j) := by
  have hterms : ∀ (coeff wire : ℕ → Block) (k : ℕ),
      φ ((List.range k).foldl (fun acc j => acc ^^^ C.G.gfmul (coeff (j + 1)) (wire (j + 1)))
        (C.G.gfmul (coeff 0) (wire 0))) = ∑ j ∈ range (k + 1), φ (coeff j) * φ (wire j) := by
    intro coeff wire k
    induction k with
    | zero => simp [hG.gfmul]
    | succ k ih =>
      rw [List.range_succ, List.foldl_append, sum_range_succ, ← ih]
      simp only [List.foldl_cons, List.foldl_nil, hG.xor, hG.gfmul]
  rw [foldVal, if_neg hne]
  refine (hterms (coeffOf c) (fun j => if h : j < n then e ⟨j, h⟩ else 0) (n - 1)).trans ?_
  rw [Nat.sub_add_cancel hn, ← Fin.sum_univ_eq_sum_range
    fun j => φ (coeffOf c j) * φ (if h : j < n then e ⟨j, h⟩ else 0)]
  simp only [coeffOf, Fin.is_lt, dif_pos]

/-- **Few coefficients fold two records to one element.** -/
theorem card_foldVal_eq_le [IsDomain R] (hG : C.G.Lawful φ) (hn : 0 < n) {e e' : Fin n → Block}
    (h : e ≠ e') :
    #{c : Fin n → Block | foldVal C (coeffOf c) e = foldVal C (coeffOf c) e'}
      ≤ Fintype.card Block ^ (n - 1) := by
  classical
  obtain ⟨j, hj⟩ := Function.ne_iff.mp h
  by_cases hone : n = 1
  · -- an element of one wire is not folded
    subst hone
    rw [filter_eq_empty_iff.mpr, card_empty]
    · exact Nat.zero_le _
    · intro c _ heq
      simp only [foldVal, if_true, Nat.one_pos, dif_pos] at heq
      exact hj (by rwa [Fin.eq_zero j])
  · obtain ⟨err, herr⟩ : ∃ err : ℕ → R, err = fun j =>
      if h : j < n then φ (e ⟨j, h⟩) - φ (e' ⟨j, h⟩) else 0 := ⟨_, rfl⟩
    have hne : err j ≠ 0 := by
      simp only [herr, Fin.is_lt, dif_pos]
      exact sub_ne_zero.mpr fun heq => hj (hG.injective heq)
    refine (card_le_card fun c hc => mem_filter.mpr ⟨mem_univ c, ?_⟩).trans
      (PublicCoin.card_combinations_le hG.injective j.isLt hne)
    have heq := congrArg φ (mem_filter.mp hc).2
    rw [map_foldVal hG hn hone, map_foldVal hG hn hone, ← sub_eq_zero, ← sum_sub_distrib] at heq
    simpa only [herr, Fin.is_lt, dif_pos, mul_sub] using heq

end Fold

/-! ## The permutation proof -/

section Accept

variable {C : F2kConfig} {R : Type*} [CommRing R] [IsDomain R] {φ : Block → R} {width : ℕ}
  {Rec : Type} {bits : Rec → List Bool}

/-- The wires of a record, by value. -/
def elemOf (width : ℕ) (bits : List Bool) (j : Fin (nBlocksFor width)) : Block := recordVal bits j

omit [IsDomain R] in
/-- What waits after some calls of `emit_`, compressed. -/
theorem compressed_emits (hG : C.bool.G.Lawful φ) (width : ℕ) {p : PermLists Rec} {em : List Emit}
    (h : Emitted C.bool bits p em) (coeff : ℕ → Block) :
    let f := (Folds.empty : Folds (nBlocksFor width)).run (em.map (Emit.op C.bool width))
    compressed C.bool Batch.a (f.close coeff)
        = p.listA.map (fun rec => foldVal C.bool coeff (elemOf width (bits rec))) ∧
      compressed C.bool Batch.b (f.close coeff)
        = p.listB.map fun rec => foldVal C.bool coeff (elemOf width (bits rec)) := by
  intro f
  have hf : f.close coeff = [⟨p.listA.map fun rec => elemOf width (bits rec),
      p.listB.map fun rec => elemOf width (bits rec), coeff⟩] := by
    simp only [f, run_emits, map_elemVal hG h.listA, map_elemVal hG h.listB, Folds.close,
      Folds.empty, List.nil_append]
    rfl
  rw [hf]
  simp [compressed, Function.comp_def]

/-- **What is accepted**: sides of one length, with one product. -/
theorem Emitted.acceptsAt_iff (hG : C.bool.G.Lawful φ) (hC : C.Valid) (hwidth : 0 < width)
    {p : PermLists Rec} {em : List Emit} (h : Emitted C.bool bits p em) {prover verifier : ZKBool}
    (hdrawn : prover.drawn = verifier.drawn) (voles : ℕ) (ch : PermChallenge width) :
    PermProof.acceptsAt C prover verifier voles em ch ↔
      p.listA.length = p.listB.length ∧
        ((p.listA.map fun rec =>
            φ (foldVal C.bool (coeffOf ch.1) (elemOf width (bits rec)))).map
              fun a => φ ch.2 - a).prod
          = ((p.listB.map fun rec =>
            φ (foldVal C.bool (coeffOf ch.1) (elemOf width (bits rec)))).map
              fun b => φ ch.2 - b).prod := by
  have hn : 0 < nBlocksFor width := Nat.div_pos (by omega) (by decide)
  obtain ⟨s, hrun⟩ : ∃ s, (PermProof.init prover verifier voles).run C
    (em.map (Emit.op C.bool width)) = some s := exists_run_emits _ em
  have hinv := (PermProof.inv_init C φ hdrawn voles).run hG hC hn (h.opOk hG) hrun
  obtain ⟨hA, hB⟩ := compressed_emits hG width h (coeffOf ch.1)
  rw [PermProof.acceptsAt, hrun, Option.bind_some, (hinv.checkEq hG hC hn _ _).2, hA, hB]
  simp only [F2kSession.factors, List.length_map, List.map_map]
  rfl

/-- Packing tells records apart, so their elements do. -/
theorem elemOf_injective (hlen : ∀ rec, (bits rec).length = width)
    (hbits : ∀ rec rec', recordVals (bits rec) = recordVals (bits rec') → rec = rec') :
    Function.Injective fun rec => elemOf width (bits rec) := fun rec rec' h => by
  refine hbits rec rec' ?_
  rw [recordVals, recordVals, hlen, hlen]
  refine List.map_congr_left fun j hj => ?_
  exact congrFun h ⟨j, List.mem_range.mp hj⟩

/-- **Challenges at which no permutation is accepted**: the coefficients fold two records to one
element, or the products agree at the point. -/
theorem Emitted.card_acceptsAt_le (hG : C.bool.G.Lawful φ) (hC : C.Valid) (hwidth : 0 < width)
    (hlen : ∀ rec, (bits rec).length = width)
    (hbits : ∀ rec rec', recordVals (bits rec) = recordVals (bits rec') → rec = rec')
    {p : PermLists Rec} {em : List Emit} (h : Emitted C.bool bits p em) (hperm : ¬p.checkEq)
    {prover verifier : ZKBool} (hdrawn : prover.drawn = verifier.drawn) (voles : ℕ) :
    #{ch : PermChallenge width | PermProof.acceptsAt C prover verifier voles em ch}
      ≤ 2 * p.listA.length * (2 ^ 128) ^ nBlocksFor width := by
  classical
  have hn : 0 < nBlocksFor width := Nat.div_pos (by omega) (by decide)
  by_cases hsame : p.listA.length = p.listB.length
  · have hvec : ¬(p.listA.map fun rec => elemOf width (bits rec)).Perm
        (p.listB.map fun rec => elemOf width (bits rec)) := fun hvec =>
      hperm ((List.map_perm_map_iff (elemOf_injective hlen hbits)).mp hvec)
    let folded (rs : List Rec) (c : Fin (nBlocksFor width) → Block) : List Block :=
      rs.map fun rec => foldVal C.bool (coeffOf c) (elemOf width (bits rec))
    have hbad : #{c | (folded p.listA c).Perm (folded p.listB c)}
        ≤ p.listA.length * Fintype.card Block ^ (nBlocksFor width - 1) := by
      have hcard := ProductTest.card_map_perm_le
        (f := fun (c : Fin (nBlocksFor width) → Block) e => foldVal C.bool (coeffOf c) e)
        (fun e e' hne => card_foldVal_eq_le hG hn hne) (by simpa using hsame) hvec
      simp only [List.map_map, List.length_map] at hcard
      exact hcard
    have hpoint : ∀ c, ¬(folded p.listA c).Perm (folded p.listB c) →
        #{r | PermProof.acceptsAt C prover verifier voles em (c, r)}
          ≤ p.listA.length := fun c hc => by
      have hφ : ¬((folded p.listA c).map φ).Perm ((folded p.listB c).map φ) := fun hmap =>
        hc ((List.map_perm_map_iff hG.injective).mp hmap)
      have hcard := ProductTest.card_le_of_not_perm (by simpa [folded] using hsame) hφ
        (({r | PermProof.acceptsAt C prover verifier voles em (c, r)} :
          Finset Block).map ⟨φ, hG.injective⟩) fun r hr => by
        obtain ⟨r', hr', rfl⟩ := mem_map.mp hr
        simpa [folded, Function.comp_def] using
          ((h.acceptsAt_iff hG hC hwidth hdrawn voles _).mp (mem_filter.mp hr').2).2
      rw [card_map] at hcard
      exact hcard.trans (by simp [folded])
    have hpow : Fintype.card Block ^ (nBlocksFor width - 1) * Fintype.card Block
        = (2 ^ 128) ^ nBlocksFor width := by
      rw [← pow_succ, Nat.sub_add_cancel hn, card_block]
    calc _ ≤ #{c | (folded p.listA c).Perm (folded p.listB c)} * Fintype.card Block
            + Fintype.card (Fin (nBlocksFor width) → Block) * p.listA.length :=
          PublicCoin.card_pairs_le _ hpoint
      _ ≤ p.listA.length * Fintype.card Block ^ (nBlocksFor width - 1) * Fintype.card Block
            + (2 ^ 128) ^ nBlocksFor width * p.listA.length := by
          rw [Fintype.card_fun, Fintype.card_fin, card_block]
          exact Nat.add_le_add_right (Nat.mul_le_mul_right _ (card_block ▸ hbad)) _
      _ = 2 * p.listA.length * (2 ^ 128) ^ nBlocksFor width := by
          rw [mul_assoc, hpow]
          ring
  · rw [filter_eq_empty_iff.mpr, card_empty]
    · exact Nat.zero_le _
    · intro ch _ hacc
      exact hsame ((h.acceptsAt_iff hG hC hwidth hdrawn voles _).mp hacc).1

end Accept

/-- Records can be emitted as public wires. -/
theorem exists_emitted {C : BoolConfig} (hC : C.Valid) {Rec : Type} (bits : Rec → List Bool)
    (p : PermLists Rec) : ∃ em, Emitted C bits p em := by
  have hside : ∀ recs : List Rec, List.Forall₂
      (fun ws rec => List.Forall₂ (BitLabel.Of C.delta) ws (bits rec))
      (recs.map fun rec => (bits rec).map C.publicBlock) recs := fun recs => by
    rw [List.forall₂_map_left_iff, List.forall₂_same]
    intro rec _
    rw [List.forall₂_map_left_iff, List.forall₂_same]
    exact fun b _ => BoolConfig.publicBlock_auth hC b
  refine ⟨p.listA.map (fun rec => (true, (bits rec).map C.publicBlock))
    ++ p.listB.map fun rec => (false, (bits rec).map C.publicBlock), ?_, ?_⟩
  · simpa [Emit.side, List.filter_map, Function.comp_def] using hside p.listA
  · simpa [Emit.side, List.filter_map, Function.comp_def] using hside p.listB

/-! ## The memory -/

/-- Queries of a set whose shuffle holds are in the range, if there are at most `T`. -/
theorem ZKSet.inRange_of_checkEq {T elemSz : ℕ} (hfit : T < 2 ^ elemSz)
    {qs : List (BitVec elemSz × BitVec (ramzkBitsFor T))} (hlen : qs.length ≤ T)
    {vers : ℕ → BitVec (ramzkBitsFor T)}
    (hperm : (((setup T elemSz).run qs).check vers).perm.checkEq) {v : BitVec elemSz}
    (hv : v ∈ ((setup T elemSz).run qs).queries) : 1 ≤ v.toNat ∧ v.toNat ≤ T := by
  by_contra hout
  have hA : ((setup T elemSz).run qs).perm.listA = qs.map readRec := by
    rw [(run_perm _ qs).1, setup, PermLists.foldl_emit_false, List.nil_append]
  -- outside the range only the queries count, and each writes the successor of what it reads
  have hshift : (versionsOf v (qs.map readRec)).map (fun c => c + BitVec.ofNat _ 1)
      = versionsOf v (qs.map readRec) := by
    have hvers : versionsOf v _ = versionsOf v _ :=
      Multiset.coe_eq_coe.mpr ((hperm.filter fun r => r.element = v).map SetRecord.version)
    rw [check_run_listA, check_run_listB, versionsOf_append, versionsOf_append,
      versionsOf_range hfit hout, versionsOf_range hfit hout, add_zero, zero_add,
      versionsOf_writeRec] at hvers
    exact hvers.symm
  obtain ⟨rec, hrec, rfl⟩ := List.mem_map.mp hv
  rw [hA] at hrec
  have hmem : rec.version ∈ versionsOf rec.element (qs.map readRec) :=
    Multiset.mem_coe.mpr (List.mem_map_of_mem
      (List.mem_filter.mpr ⟨hrec, decide_eq_true rfl⟩))
  have hcard : Multiset.card (versionsOf rec.element (qs.map readRec)) ≤ T := by
    rw [versionsOf, Multiset.coe_card, List.length_map]
    exact (List.length_filter_le _ _).trans (by simpa using hlen)
  have hle := card_le_of_map_eq hshift hmem (iterate_succ_injOn rec.version)
  exact Nat.not_le.mpr (lt_two_pow_ramzkBitsFor T) (hle.trans hcard)

namespace ZKRam

variable {indexSz valSz T : ℕ}

/-- The set of differences has one query for each access. -/
theorem run_diffs {as : List (Op indexSz valSz × Commit valSz T)} {r r' : ZKRam indexSz valSz T}
    {outs : List (BitVec valSz)} (h : r.run as = some (r', outs)) :
    ∃ qs : List (BitVec (timeSz T) × BitVec (ramzkBitsFor T)), qs.length = as.length ∧
      r'.diffs = r.diffs.map fun s => s.run qs := by
  induction as generalizing r outs with
  | nil =>
    simp only [run, Option.some.injEq, Prod.mk.injEq] at h
    obtain ⟨rfl, rfl⟩ := h
    exact ⟨[], rfl, by simp [ZKSet.run]⟩
  | cons a as ih =>
    rw [run, Option.bind_eq_some_iff] at h
    obtain ⟨⟨r₁, out⟩, hstep, hmap⟩ := h
    obtain ⟨⟨r₂, outs₂⟩, hrun, heq⟩ := Option.map_eq_some_iff.mp hmap
    rw [Prod.mk.injEq] at heq
    obtain ⟨rfl, rfl⟩ := heq
    obtain ⟨qs, hlen, hqs⟩ := ih hrun
    obtain ⟨-, -, -, -, -, hdiffs⟩ := step_eq_some hstep
    refine ⟨(BitVec.ofNat (timeSz T) r.clock - a.2.timeOld, a.2.verOld) :: qs, by simp [hlen], ?_⟩
    rw [hqs, hdiffs, Option.map_map]
    rfl

/-- **Challenges at which wrong reads are accepted.**  Whatever the prover commits in a run of
accesses whose times do not wrap around, and at the teardown: if the run is not sound, the two
permutation proofs accept the wires of its records for few of their challenges. -/
theorem ram_sound_challenges {C : F2kConfig} {R : Type*} [CommRing R] [IsDomain R]
    {φ : Block → R} (hG : C.bool.G.Lawful φ) (hC : C.Valid) {x : List (BitVec valSz)}
    (hn : x.length ≤ 2 ^ indexSz) {as : List (Op indexSz valSz × Commit valSz T)}
    (hT : as.length ≤ T) (hfit : as.length + T ≤ 2 ^ timeSz T) {r : ZKRam indexSz valSz T}
    {outs : List (BitVec valSz)}
    (hrun : ((setup indexSz valSz T false).init x).run as = some (r, outs))
    (hwrong : ¬Ram.Sound x (as.map Prod.fst) outs)
    (cell : ℕ → BitVec valSz × BitVec (timeSz T)) (vers : ℕ → BitVec (ramzkBitsFor T))
    {em emSet : List Emit} (hem : Emitted C.bool RamRecord.bits (r.check cell vers).perm em)
    (hset : ∀ s, (r.check cell vers).diffs = some s →
      Emitted C.bool SetRecord.bits s.perm emSet)
    {prover verifier prover' verifier' : ZKBool} (hdrawn : prover.drawn = verifier.drawn)
    (hdrawn' : prover'.drawn = verifier'.drawn) (voles voles' : ℕ) :
    #{ch : PermChallenge (indexSz + valSz + timeSz T)
          × PermChallenge (timeSz T + ramzkBitsFor T) |
        PermProof.acceptsAt C prover verifier voles em ch.1 ∧
          PermProof.acceptsAt C prover' verifier' voles' emSet ch.2}
      ≤ 2 * (as.length + max x.length T)
        * (2 ^ 128) ^ (nBlocksFor (indexSz + valSz + timeSz T)
            + nBlocksFor (timeSz T + ramzkBitsFor T) + 1) := by
  have hwidth : 0 < timeSz T := ramzkBitsFor_pos T
  obtain ⟨qs, hqs, hdiffs⟩ := run_diffs hrun
  have hdiffs : r.diffs = some ((ZKSet.setup T (timeSz T)).run qs) := hdiffs
  have hteardown : (r.check cell vers).diffs
      = some (((ZKSet.setup T (timeSz T)).run qs).check vers) := by
    rw [check, hdiffs, Option.map_some]
  have hlenRam : (r.check cell vers).perm.listA.length = as.length + x.length := by
    obtain ⟨-, hcells, hA, -⟩ := run_eq_some hrun
    rw [check_listA, hA, init_listA, hcells]
    simp [init]
  have hlenSet : (((ZKSet.setup T (timeSz T)).run qs).check vers).perm.listA.length
      = as.length + T := by
    simp [ZKSet.check_run_listA, hqs]
  have hcard : ∀ width, Fintype.card (PermChallenge width) = (2 ^ 128) ^ (nBlocksFor width + 1) :=
    fun width => by
      rw [Fintype.card_prod, Fintype.card_fun, Fintype.card_fin, card_block]
      exact (pow_succ _ _).symm
  have hpow : ∀ q a n₁ n₂ : ℕ, q ^ (n₁ + 1) * (2 * a * q ^ n₂) = 2 * a * q ^ (n₁ + n₂ + 1) :=
    fun q a n₁ n₂ => by ring
  refine (PublicCoin.card_pairs_and
    (fun ch : PermChallenge _ => PermProof.acceptsAt C prover verifier voles em ch)
    fun ch : PermChallenge _ => PermProof.acceptsAt C prover' verifier' voles' emSet ch).trans_le ?_
  by_cases hperm : (r.check cell vers).perm.checkEq
  · -- the old times are not all in the past, so a difference is out of range
    have hout : ¬(((ZKSet.setup T (timeSz T)).run qs).check vers).perm.checkEq := fun hcheck => by
      have hrange : r.DiffsInRange := fun s hs d hd => by
        obtain rfl := Option.some_inj.mp (hdiffs.symm.trans hs)
        exact ZKSet.inRange_of_checkEq (lt_two_pow_ramzkBitsFor T) (hqs ▸ hT) hcheck hd
      have hacc : Ram.Accepts x as cell outs := ⟨r, hrun, hrange, hperm⟩
      exact hwrong (Ram.sound_of_fresh hn hT hacc (Ram.fresh_of_accepts hn hT hfit hacc))
    have hcount := (hset _ hteardown).card_acceptsAt_le hG hC (by omega) SetRecord.length_bits
      (fun _ _ => SetRecord.eq_of_recordVals) hout hdrawn' voles'
    refine (Nat.mul_le_mul ((card_le_univ _).trans_eq (hcard _)) hcount).trans ?_
    rw [hlenSet, hpow]
    exact Nat.mul_le_mul_right _ (by omega)
  · have hcount := hem.card_acceptsAt_le hG hC (by omega) RamRecord.length_bits
      (fun _ _ => RamRecord.eq_of_recordVals) hperm hdrawn voles
    refine (Nat.mul_le_mul hcount ((card_le_univ _).trans_eq (hcard _))).trans ?_
    rw [hlenRam, mul_comm, hpow, Nat.add_comm (nBlocksFor (timeSz T + ramzkBitsFor T))]
    exact Nat.mul_le_mul_right _ (by omega)

/-- A load that returns 1 from a cell that holds 0, with its records as public wires. -/
theorem ram_sound_challenges_one : ∃ r : ZKRam 5 8 2,
    ((setup 5 8 2 false).init [0]).run [(.read 0, ⟨1, 0, 0⟩)] = some (r, [1]) ∧
    ∃ em emSet, Emitted PermProof.smallF2k.bool RamRecord.bits
        (r.check (fun _ => (1, 1)) fun _ => 0).perm em ∧
    #{ch : PermChallenge (5 + 8 + timeSz 2) × PermChallenge (timeSz 2 + ramzkBitsFor 2) |
        PermProof.acceptsAt PermProof.smallF2k ZKBool.init ZKBool.init 0 em ch.1 ∧
          PermProof.acceptsAt PermProof.smallF2k ZKBool.init ZKBool.init 0 emSet ch.2}
      ≤ 2 * (1 + max 1 2) * (2 ^ 128) ^ (nBlocksFor (5 + 8 + timeSz 2)
          + nBlocksFor (timeSz 2 + ramzkBitsFor 2) + 1) := by
  obtain ⟨r, hrun⟩ : ∃ r : ZKRam 5 8 2,
      ((setup 5 8 2 false).init [0]).run [(.read 0, ⟨1, 0, 0⟩)] = some (r, [1]) := ⟨_, rfl⟩
  obtain ⟨em, hem⟩ := exists_emitted PermProof.smallF2k_valid.bool RamRecord.bits
    (r.check (fun _ => (1, 1)) fun _ => 0).perm
  obtain ⟨s, hs⟩ : ∃ s, (r.check (fun _ => (1, 1)) fun _ => 0).diffs = some s := by
    obtain ⟨qs, -, hdiffs⟩ := run_diffs hrun
    rw [check, hdiffs]
    exact ⟨_, rfl⟩
  obtain ⟨emSet, hset⟩ := exists_emitted PermProof.smallF2k_valid.bool SetRecord.bits s.perm
  refine ⟨r, hrun, em, emSet, hem, ram_sound_challenges GfOps.std_lawful
    PermProof.smallF2k_valid (by decide) (by decide) (by decide) hrun (fun h => ?_)
    (fun _ => (1, 1)) (fun _ => 0) hem
    (fun s' hs' => Option.some_inj.mp (hs.symm.trans hs') ▸ hset) rfl rfl 0 0⟩
  exact absurd ((h 0 (by decide)).2 0 rfl) (by decide)

end ZKRam

end VoleZk
