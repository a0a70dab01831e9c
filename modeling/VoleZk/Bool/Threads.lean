import VoleZk.Bool.PolyProof
import VoleZk.Lib.SeekStream

/-!
# The checks over bits and the numbers of workers

`andgate_correctness_check_manage` cuts the buffered gates into a slice per worker.  A worker moves
a generator of its own to the first gate of its slice, draws coefficients for 1024 gates at a time,
and reduces what it has added up at the end.  `PolyProof` cuts its loops the same way.  A party's
blocks are those of one pass over all gates, however many workers it has.

## What is here

* `ZKBool.andgateCorrectnessCheckSend`, `ZKBool.andgateCorrectnessCheckRecv` — what a worker
  computes for its slice, with its generator;
* `ZKBool.aStar`, `ZKBool.bStar` — the blocks of the parties, all workers combined;
* `PolyConfig.checks_thread_independent` — **the workers do not show**, and honest proofs pass
  whatever their numbers.
-/

set_option autoImplicit false

open Finset SeekStream

namespace VoleZk

/-! ## The workers of a check -/

namespace ZKBool

variable (C : BoolConfig) {σ : Type} (G : Gen Block Block σ)

/-- `vector_inn_prdt_sum_no_red` of a chunk, added to an unreduced accumulator. -/
def addChunk (m : ℕ) (chi term : ℕ → Block) (acc : Block × Block) : Block × Block :=
  let p := C.G.innPrdtSumNoRed m chi term
  (acc.1 ^^^ p.1, acc.2 ^^^ p.2)

/-- `andgate_correctness_check` of the prover, on `taskN` gates from `start` on: `ret[2 * thr_idx]`
and the block after it. -/
def andgateCorrectnessCheckSend (e : ZKBool) (start taskN : ℕ) (chiSeed : Block) : Block × Block :=
  if taskN = 0 then (0, 0)
  else
    let acc := (chunkLoop G 1024 taskN (fun base m chi acc =>
      (addChunk C m chi (fun i => termA0 C e (start + base + i)) acc.1,
        addChunk C m chi (fun i => termA1 e (start + base + i)) acc.2))
      (G.seek (G.init chiSeed) start) ((0, 0), (0, 0))).2
    (C.G.reduce acc.1.1 acc.1.2, C.G.reduce acc.2.1 acc.2.2)

/-- `andgate_correctness_check` of the verifier.  `ret[2 * thr_idx + 1]` stays zero. -/
def andgateCorrectnessCheckRecv (e : ZKBool) (start taskN : ℕ) (chiSeed : Block) : Block × Block :=
  if taskN = 0 then (0, 0)
  else
    let acc := (chunkLoop G 1024 taskN (fun base m chi acc =>
      addChunk C m chi (fun i => termB C e (start + base + i)) acc)
      (G.seek (G.init chiSeed) start) (0, 0)).2
    (C.G.reduce acc.1 acc.2, 0)

/-- `agg` of `andgate_correctness_check_manage`: what the workers return for their slices,
combined. -/
def aggregate (threads checkCnt : ℕ) (check : ℕ → ℕ → Block × Block) : Block × Block :=
  ((Workers.split threads checkCnt).map fun r => check r.1 r.2).foldl
    (fun agg s => (agg.1 ^^^ s.1, agg.2 ^^^ s.2)) (0, 0)

/-- `andgate_correctness_aggregate` of the prover: `A_star`. -/
def maskSend (e : ZKBool) (sum : Block × Block) : Block × Block :=
  let opeData := fun i => C.cotPrv (e.drawn + i)
  (C.G.packing opeData ^^^ sum.1, chBlock opeData ^^^ sum.2)

/-- `andgate_correctness_aggregate` of the verifier: `B_star`. -/
def maskRecv (e : ZKBool) (sum : Block × Block) : Block :=
  (C.G.packing fun i => C.cotVer (e.drawn + i)) ^^^ sum.1

/-- `A_star` with `threads` workers. -/
def aStar (threads : ℕ) (e : ZKBool) (seed : Block) : Block × Block :=
  maskSend C e (aggregate threads e.checkCnt fun start taskN =>
    andgateCorrectnessCheckSend C G e start taskN seed)

/-- `B_star` with `threads` workers. -/
def bStar (threads : ℕ) (e : ZKBool) (seed : Block) : Block :=
  maskRecv C e (aggregate threads e.checkCnt fun start taskN =>
    andgateCorrectnessCheckRecv C G e start taskN seed)

/-! ### What a worker computes -/

/-- The generator of a worker is at the first gate of its slice. -/
theorem at_start {G : Gen Block Block σ} {At : σ → Block → ℕ → Prop} (hprg : G.Streams C.prg At)
    (start : ℕ) (seed : Block) : At (G.seek (G.init seed) start) seed start :=
  hprg.seek start (hprg.init seed)

/-- A lane of the blocks of all workers. -/
theorem aggregate_lane {f : Block × Block → Block} (hf : ∀ x y, f (x.1 ^^^ y.1, x.2 ^^^ y.2)
    = f x ^^^ f y) (h0 : f (0, 0) = 0) (threads checkCnt : ℕ) (check : ℕ → ℕ → Block × Block) :
    f (aggregate threads checkCnt check)
      = ((Workers.split threads checkCnt).map fun r => f (check r.1 r.2)).foldl
          (fun agg s => agg ^^^ s) 0 := by
  have hfold : ∀ (l : List (Block × Block)) (a : Block × Block),
      f (l.foldl (fun agg s => (agg.1 ^^^ s.1, agg.2 ^^^ s.2)) a)
        = (l.map f).foldl (fun agg s => agg ^^^ s) (f a) := by
    intro l
    induction l with
    | nil => exact fun _ => rfl
    | cons s l ih =>
      intro a
      rw [List.foldl_cons, ih, hf, List.map_cons, List.foldl_cons]
  rw [aggregate, hfold, h0, List.map_map]
  rfl

section Ring

variable {C G} {R : Type*} [CommRing R] {φ : Block → R} {At : σ → Block → ℕ → Prop}
  (hG : C.G.Lawful φ)

include hG

/-- An accumulator holds an inner product, up to reduction: one more chunk. -/
theorem reduce_addChunk (chi term : ℕ → Block) {m base : ℕ} {words : ℕ → Block}
    {acc : Block × Block} (hwords : ∀ k < m, words k = chi (base + k))
    (hacc : φ (C.G.reduce acc.1 acc.2) = ∑ k ∈ range base, φ (chi k) * φ (term k)) :
    let acc' := addChunk C m words (fun i => term (base + i)) acc
    φ (C.G.reduce acc'.1 acc'.2) = ∑ k ∈ range (base + m), φ (chi k) * φ (term k) := by
  show φ (C.G.reduce (_ ^^^ _) (_ ^^^ _)) = _
  rw [hG.reduce_xor, hG.xor, hacc, hG.reduce_innPrdtSumNoRed, sum_range_add]
  refine congrArg _ (sum_congr rfl fun k hk => ?_)
  rw [hwords k (mem_range.mp hk)]

theorem map_reduce_zero : φ (C.G.reduce 0 0) = 0 := by
  rw [reduce_zero hG]
  exact Gf2k.map_zero hG.xor

/-- What the workers compute for their slices, they compute for the whole. -/
theorem map_aggregate {f : Block × Block → Block} (hf : ∀ x y, f (x.1 ^^^ y.1, x.2 ^^^ y.2)
    = f x ^^^ f y) (h0 : f (0, 0) = 0) {check : ℕ → ℕ → Block × Block} {g : ℕ → R}
    (hcheck : ∀ start taskN, φ (f (check start taskN)) = ∑ k ∈ range taskN, g (start + k))
    (threads checkCnt : ℕ) :
    φ (f (aggregate threads checkCnt check)) = ∑ k ∈ range checkCnt, g k := by
  rw [aggregate_lane hf h0, map_foldl_xor hG, Gf2k.map_zero hG.xor, zero_add, List.map_map,
    ← Workers.sum_split g threads]
  exact congrArg List.sum (List.map_congr_left fun r _ => hcheck r.1 r.2)

variable (hprg : G.Streams C.prg At)
include hprg

/-- **A worker of the prover**: the inner products over its slice. -/
theorem map_andgateCorrectnessCheckSend (e : ZKBool) (start taskN : ℕ) (seed : Block) :
    let ret := andgateCorrectnessCheckSend C G e start taskN seed
    φ ret.1 = ∑ k ∈ range taskN, φ (C.prg seed (start + k)) * φ (termA0 C e (start + k)) ∧
      φ ret.2 = ∑ k ∈ range taskN, φ (C.prg seed (start + k)) * φ (termA1 e (start + k)) := by
  intro ret
  have hzero : φ (C.G.reduce 0 0) = 0 := map_reduce_zero hG
  by_cases htask : taskN = 0
  · have hret : ret = (0, 0) := if_pos htask
    have hmap : φ 0 = 0 := Gf2k.map_zero hG.xor
    simp only [hret, htask, sum_range_zero]
    exact ⟨hmap, hmap⟩
  · simp only [ret, andgateCorrectnessCheckSend, if_neg htask]
    refine chunkLoop_inv (fun k (acc : (Block × Block) × (Block × Block)) =>
        φ (C.G.reduce acc.1.1 acc.1.2)
          = ∑ i ∈ range k, φ (C.prg seed (start + i)) * φ (termA0 C e (start + i)) ∧
        φ (C.G.reduce acc.2.1 acc.2.2)
          = ∑ i ∈ range k, φ (C.prg seed (start + i)) * φ (termA1 e (start + i)))
      hprg (by decide) (at_start C hprg start seed) ⟨hzero, hzero⟩
      fun base m words acc _ hwords hacc => ?_
    simp only [Nat.add_assoc] at hwords ⊢
    exact ⟨reduce_addChunk hG (fun k => C.prg seed (start + k))
        (fun k => termA0 C e (start + k)) hwords hacc.1,
      reduce_addChunk hG (fun k => C.prg seed (start + k))
        (fun k => termA1 e (start + k)) hwords hacc.2⟩

/-- **A worker of the verifier.** -/
theorem map_andgateCorrectnessCheckRecv (e : ZKBool) (start taskN : ℕ) (seed : Block) :
    φ (andgateCorrectnessCheckRecv C G e start taskN seed).1
      = ∑ k ∈ range taskN, φ (C.prg seed (start + k)) * φ (termB C e (start + k)) := by
  by_cases htask : taskN = 0
  · have hmap : φ 0 = 0 := Gf2k.map_zero hG.xor
    rw [andgateCorrectnessCheckRecv, if_pos htask, htask, sum_range_zero]
    exact hmap
  · rw [andgateCorrectnessCheckRecv, if_neg htask]
    refine chunkLoop_inv (fun k (acc : Block × Block) => φ (C.G.reduce acc.1 acc.2)
        = ∑ i ∈ range k, φ (C.prg seed (start + i)) * φ (termB C e (start + i)))
      hprg (by decide) (at_start C hprg start seed) (map_reduce_zero hG)
      fun base m words acc _ hwords hacc => ?_
    simp only [Nat.add_assoc] at hwords ⊢
    exact reduce_addChunk hG (fun k => C.prg seed (start + k))
      (fun k => termB C e (start + k)) hwords hacc

/-! ### All workers -/

/-- **The workers of the prover do not show.** -/
theorem map_aggregateSend (e : ZKBool) (threads : ℕ) (seed : Block) :
    let agg := aggregate threads e.checkCnt fun start taskN =>
      andgateCorrectnessCheckSend C G e start taskN seed
    φ agg.1 = ∑ k ∈ range e.checkCnt, φ (C.prg seed k) * φ (termA0 C e k) ∧
      φ agg.2 = ∑ k ∈ range e.checkCnt, φ (C.prg seed k) * φ (termA1 e k) :=
  ⟨map_aggregate hG (fun _ _ => rfl) rfl (g := fun k => φ (C.prg seed k) * φ (termA0 C e k))
      (fun start taskN => (map_andgateCorrectnessCheckSend hG hprg e start taskN seed).1) _ _,
    map_aggregate hG (fun _ _ => rfl) rfl (g := fun k => φ (C.prg seed k) * φ (termA1 e k))
      (fun start taskN => (map_andgateCorrectnessCheckSend hG hprg e start taskN seed).2) _ _⟩

/-- **The workers of the verifier do not show.** -/
theorem map_aggregateRecv (e : ZKBool) (threads : ℕ) (seed : Block) :
    φ (aggregate threads e.checkCnt fun start taskN =>
        andgateCorrectnessCheckRecv C G e start taskN seed).1
      = ∑ k ∈ range e.checkCnt, φ (C.prg seed k) * φ (termB C e k) :=
  map_aggregate hG (f := Prod.fst) (fun _ _ => rfl) rfl
    (g := fun k => φ (C.prg seed k) * φ (termB C e k))
    (fun start taskN => map_andgateCorrectnessCheckRecv hG hprg e start taskN seed) _ _

/-- `A_star` is that of one pass over all gates. -/
theorem aStar_eq_serial (threads : ℕ) (e : ZKBool) (seed : Block) :
    aStar C G threads e seed
      = maskSend C e (andgateCorrectnessCheckSend C G e 0 e.checkCnt seed) := by
  obtain ⟨h0, h1⟩ := map_aggregateSend hG hprg e threads seed
  obtain ⟨hs0, hs1⟩ := map_andgateCorrectnessCheckSend hG hprg e 0 e.checkCnt seed
  simp only [Nat.zero_add] at hs0 hs1
  exact congrArg (maskSend C e)
    (Prod.ext (hG.injective (h0.trans hs0.symm)) (hG.injective (h1.trans hs1.symm)))

/-- `B_star` is that of one pass over all gates. -/
theorem bStar_eq_serial (threads : ℕ) (e : ZKBool) (seed : Block) :
    bStar C G threads e seed
      = maskRecv C e (andgateCorrectnessCheckRecv C G e 0 e.checkCnt seed) := by
  have h := map_aggregateRecv hG hprg e threads seed
  have hs := map_andgateCorrectnessCheckRecv hG hprg e 0 e.checkCnt seed
  simp only [Nat.zero_add] at hs
  exact congrArg (C.G.packing _ ^^^ ·) (hG.injective (h.trans hs.symm))

/-- The blocks that the prover sends in a check are `A_star`. -/
theorem checkManageSend_eq_aStar (e : ZKBool) :
    (checkManageSend C e).2 = aStar C G C.threadsPrv e (C.digest e.transcript) := by
  obtain ⟨h0, h1⟩ := map_aggregateSend hG hprg e C.threadsPrv (C.digest e.transcript)
  refine Prod.ext (congrArg (C.G.packing _ ^^^ ·) (hG.injective ?_))
    (congrArg (chBlock _ ^^^ ·) (hG.injective ?_))
  · rw [map_checkSum hG, h0]
  · rw [map_checkSum hG, h1]

/-- The verifier compares with `B_star`. -/
theorem checkManageRecv_isSome_iff (e : ZKBool) (A : Block × Block) :
    (checkManageRecv C e A).isSome ↔
      C.G.gfmul A.2 C.delta ^^^ A.1 = bStar C G C.threadsVer e (C.digest e.transcript) := by
  have hB : bStar C G C.threadsVer e (C.digest e.transcript)
      = C.G.packing (fun i => C.cotVer (e.drawn + i))
        ^^^ checkSum C C.threadsVer e (C.prg (C.digest e.transcript)) (termB C e) := by
    refine congrArg (C.G.packing _ ^^^ ·) (hG.injective ?_)
    rw [map_checkSum hG, map_aggregateRecv hG hprg]
  rw [hB]
  exact Option.isSome_ite

end Ring

end ZKBool

/-! ## Honest proofs -/

/-- The parties with other numbers of workers. -/
def BoolConfig.withThreads (C : BoolConfig) (tA tB : ℕ) : BoolConfig :=
  { C with threadsPrv := tA, threadsVer := tB }

/-- The parties with other numbers of workers. -/
def PolyConfig.withThreads (P : PolyConfig) (tA tB : ℕ) : PolyConfig :=
  { P with bool := P.bool.withThreads tA tB }

theorem BoolConfig.Valid.withThreads {C : BoolConfig} (hC : C.Valid) (tA tB : ℕ) :
    (C.withThreads tA tB).Valid :=
  ⟨hC.delta_lsb, hC.cot, hC.checkSz_pos, hC.orderPrv, hC.orderVer⟩

section Honest

variable {R : Type*} [CommRing R] {φ : Block → R}

/-- A program that runs in plain is accepted, up to the last batch. -/
theorem BoolSession.finish_isSome {C : BoolConfig} (hG : C.G.Lawful φ) (hC : C.Valid)
    {ops : List BoolOp} (hplain : (Runs.run BoolPlain.step BoolPlain.init ops).isSome) :
    ((Runs.run (step C) init ops).bind (finish C)).isSome := by
  have hrun := run_inv hG hC ops
  generalize Runs.run BoolPlain.step BoolPlain.init ops = plain at hrun hplain
  generalize Runs.run (step C) init ops = out at hrun ⊢
  cases hrun with
  | none => exact hplain
  | some h =>
    obtain ⟨s', hfinish, -⟩ := h.finish hG hC
    rw [Option.bind_some, hfinish]
    rfl

/-- A batch of right statements is off by nothing. -/
theorem PolyConfig.batchError_eq_zero {P : PolyConfig} (hG : P.bool.G.Lawful φ) (seed : Block)
    {rows : List BitRow} (hrows : ∀ row ∈ rows, row.err = false) : P.batchError seed rows = 0 := by
  refine hG.injective ?_
  rw [batchError, Gf2k.map_xorSum hG.xor, Gf2k.map_zero hG.xor]
  refine sum_eq_zero fun j hj => ?_
  have hlt : j < rows.length := mem_range.mp hj
  rw [List.getD_eq_getElem rows _ hlt, hrows _ (List.getElem_mem hlt), if_neg Bool.false_ne_true]
  exact Gf2k.map_zero hG.xor

/-- Right statements are accepted, up to the last batch. -/
theorem PolySession.finish_isSome {P : PolyConfig} (hG : P.bool.G.Lawful φ)
    (hcap : 0 < P.bufferSz) (δ : Block) {p v : ZKBool} (hdrawn : p.drawn = v.drawn)
    {stmts : List (PolyStmt Block)}
    (hright : ∀ st ∈ stmts, ∀ row ∈ st.rows, row.err = false) :
    ((Runs.run (step (P.withKey δ)) (init p v) (stmts.map (PolyStmt.map (labelAt δ)))).bind
      (finish (P.withKey δ))).isSome := by
  set rows := stmts.flatMap PolyStmt.rows with hrows
  have hflat : (Batches.cut P.bufferSz [] rows).flatten = rows := Batches.cut_flatten _ _ _
  have herr : ∀ b ∈ Batches.cut P.bufferSz [] rows, ∀ row ∈ b, row.err = false := by
    intro b hb row hrow
    have hmem : row ∈ rows := hflat ▸ List.mem_flatten.mpr ⟨b, hb, hrow⟩
    obtain ⟨st, hst, hin⟩ := List.mem_flatMap.mp hmem
    exact hright st hst row hin
  have heq := run_eq_checks (P := P) (δ := δ) (init p v) stmts
  rw [show init p v = fill P δ (init p v, []) from rfl, heq, Option.isSome_map]
  refine (run_checkRows (δ := δ) hG (s := init p v) hdrawn fun b hb => ?_).1.mpr fun k b hb => ?_
  · exact ((Batches.cut_spec P.bufferSz hcap (Nat.zero_le _) rows).1 b hb).1
  · refine hG.injective ?_
    rw [PolyConfig.batchError_eq_zero hG _ (herr b (List.mem_of_getElem? hb)), hG.gfmul]
    have hmap : φ 0 = 0 := Gf2k.map_zero hG.xor
    rw [hmap, mul_zero]

namespace PolyConfig

variable {P : PolyConfig} {σ : Type} {G : Gen Block Block σ} {At : σ → Block → ℕ → Prop}

/-- **The numbers of workers do not show.**

`hprg` says that the generator of a worker yields the stream of its seed from where it is moved to.

The blocks of the AND check, whatever the buffers, the seed and the number of workers, are those of
one worker that does all gates; the loops of `PolyProof` are the serial ones, for every selection of
the products and both accumulations.  So a party may have any number of workers: in a check it sends
or compares with `A_star` or `B_star`, programs are accepted to the last batch, and so are right
statements about polynomials. -/
theorem checks_thread_independent (hG : P.bool.G.Lawful φ) (hprg : G.Streams P.bool.prg At)
    (hcap : 0 < P.bufferSz) :
    (∀ (e : ZKBool) (seed : Block) (threads : ℕ),
      ZKBool.aStar P.bool G threads e seed = ZKBool.maskSend P.bool e
        (ZKBool.andgateCorrectnessCheckSend P.bool G e 0 e.checkCnt seed) ∧
      ZKBool.bStar P.bool G threads e seed = ZKBool.maskRecv P.bool e
        (ZKBool.andgateCorrectnessCheckRecv P.bool G e 0 e.checkCnt seed)) ∧
    (∀ (threads n : ℕ) (x y : ℕ → Block) (sel : ℕ → Bool) (out : Block × Block),
      (P.parAccum threads n
        (fun i A => if sel i then P.bool.accumulateAlice (x i) (y i) A else A) out
          = (List.range n).foldl
            (fun A i => if sel i then P.bool.accumulateAlice (x i) (y i) A else A) out) ∧
      P.parAccum threads n (fun i A => if sel i then P.bobLane (x i) (y i) A else A) out
          = (List.range n).foldl
            (fun A i => if sel i then P.bobLane (x i) (y i) A else A) out) ∧
    (∀ (threads n : ℕ) (chi buf : ℕ → Block),
      P.parInnPrdt threads n chi buf = P.bool.vectorInnPrdtSumRed n chi buf) ∧
    ∀ tA tB : ℕ, let C := P.bool.withThreads tA tB
      (∀ (e : ZKBool) (A : Block × Block),
        (ZKBool.checkManageSend C e).2
          = ZKBool.aStar P.bool G tA e (P.bool.digest e.transcript) ∧
        ((ZKBool.checkManageRecv C e A).isSome ↔ P.bool.G.gfmul A.2 P.bool.delta ^^^ A.1
          = ZKBool.bStar P.bool G tB e (P.bool.digest e.transcript))) ∧
      (P.bool.Valid → ∀ ops : List BoolOp,
        (Runs.run BoolPlain.step BoolPlain.init ops).isSome →
        ((Runs.run (BoolSession.step C) BoolSession.init ops).bind
          (BoolSession.finish C)).isSome) ∧
      ∀ (δ : Block) (p v : ZKBool) (stmts : List (PolyStmt Block)), p.drawn = v.drawn →
        (∀ st ∈ stmts, ∀ row ∈ st.rows, row.err = false) →
        let Q := (P.withThreads tA tB).withKey δ
        ((Runs.run (PolySession.step Q) (PolySession.init p v)
          (stmts.map (PolyStmt.map (PolySession.labelAt δ)))).bind
            (PolySession.finish Q)).isSome := by
  refine ⟨fun e seed threads => ⟨ZKBool.aStar_eq_serial hG hprg threads e seed,
    ZKBool.bStar_eq_serial hG hprg threads e seed⟩, fun threads n x y sel out => ⟨?_, ?_⟩,
    fun threads n chi buf => ?_, fun tA tB => ⟨fun e A => ⟨?_, ?_⟩, fun hC ops hplain => ?_, ?_⟩⟩
  · refine parAccum_eq (fun i A A' => ?_) threads n out
    split
    · exact accumulateAlice_xor _ _ A A'
    · rfl
  · refine parAccum_eq (fun i A A' => ?_) threads n out
    split
    · exact bobLane_xor _ _ A A'
    · rfl
  · refine hG.injective ?_
    rw [map_parInnPrdt hG, BoolConfig.vectorInnPrdtSumRed, hG.reduce_innPrdtSumNoRed]
  · exact ZKBool.checkManageSend_eq_aStar (C := P.bool.withThreads tA tB) hG hprg e
  · exact ZKBool.checkManageRecv_isSome_iff (C := P.bool.withThreads tA tB) hG hprg e A
  · exact BoolSession.finish_isSome (C := P.bool.withThreads tA tB) hG (hC.withThreads tA tB)
      hplain
  · exact fun δ p v stmts hdrawn hright =>
      PolySession.finish_isSome (P := P.withThreads tA tB) hG hcap δ hdrawn hright

end PolyConfig

end Honest

/-- Three gates, with five workers or one, and right statements of all forms, with five workers on
one side and three on the other. -/
theorem PolyConfig.checks_thread_independent_five :
    (let C := PolySession.small.bool
    let G := Gen.ofStream C.prg
    let e := { ZKBool.init with checkCnt := 3, slots := fun j => ⟨BitVec.ofNat 128 j, 5, 4, false⟩ }
    ZKBool.aStar C G 5 e 7
      = ZKBool.maskSend C e (ZKBool.andgateCorrectnessCheckSend C G e 0 3 7)) ∧
    ((Runs.run (PolySession.step ((PolySession.small.withThreads 5 3).withKey 3))
      (PolySession.init .init .init)
      (PolySession.rightStmts.map (PolyStmt.map (PolySession.labelAt 3)))).bind
        (PolySession.finish ((PolySession.small.withThreads 5 3).withKey 3))).isSome := by
  obtain ⟨hcheck, -, -, hproof⟩ := checks_thread_independent (P := PolySession.small)
    GfOps.std_lawful (Gen.ofStream_streams _) (by decide)
  exact ⟨(hcheck _ 7 5).1, (hproof 5 3).2.2 3 .init .init PolySession.rightStmts rfl (by decide)⟩

end VoleZk
