import VoleZk.Bool.CheckSound
import VoleZk.Lib.Batches

/-!
# Proofs of polynomials over bits

`PolyProof` proves relations of degree 2 between authenticated bits.  A statement is folded into an
entry of a buffer: two coefficients on the prover's side, the value at `Δ` on the verifier's.  A
public constant is no wire, so the verifier alone adds it, times `Δ ^ 2`.  Full buffers are checked
with coefficients from a seed of the verifier, under a mask of 128 COTs.

Long loops are shared out among workers, in each party as it likes.  `zkp_inner_prdt_multi` lies
outside the class, is serial, and makes an entry for each bit of its width.

## What is here

* `PolyConfig.parAccum`, `PolyConfig.parInnPrdt` — the loops with workers;
* `PolyStmt`, `PolyConfig.entriesAlice`, `PolyConfig.entriesBob` — the forms of statements, and what
  the parties store for them;
* `PolySession.store`, `PolySession.batchCheck` — the buffers, and a check by both parties;
* `BitRow`, `PolyStmt.rows` — a statement as a list of products and a constant, and
  `PolyConfig.entriesAlice_eq`, `PolyConfig.entriesBob_eq`;
* `PolySession.poly_proof_sound` — **what passes**, over any sequence of statements, and whatever
  the prover sends.
-/

set_option autoImplicit false

open Finset KeyCheck

namespace VoleZk

/-- What the two parties set up, beyond the Boolean engine. -/
structure PolyConfig where
  /-- The Boolean engine. -/
  bool : BoolConfig
  /-- `buffer_sz`. -/
  bufferSz : ℕ
  /-- `kParMin`. -/
  kParMin : ℕ
  /-- `uni_hash_coeff_gen(coeff, seed, sz)`. -/
  uniHashCoeffGen : Block → ℕ → ℕ → Block
  /-- The seeds of the verifier, check after check. -/
  seed : ℕ → Block

/-! ## Statements -/

/-- A statement over wires. -/
inductive PolyStmt (W : Type) where
  /-- `zkp_poly_deg2`. -/
  | polyDeg2 (polyx polyy : ℕ → W) (coeff : ℕ → Bool) (len : ℕ)
  /-- `zkp_inner_prdt`. -/
  | innerPrdt (polyx polyy : ℕ → W) (constant : Bool) (len : ℕ)
  /-- `zkp_inner_prdt_eq`. -/
  | innerPrdtEq (polyx polyy r s : ℕ → W) (len len2 : ℕ)
  /-- `zkp_inner_prdt_eq` with one more pair. -/
  | innerPrdtEqPair (polyx polyy r s : ℕ → W) (rr ss : W) (len len2 : ℕ)
  /-- `zkp_inner_prdt_multi`: `polyx i w` is `polyx[i][w]`, `polyy i` is `polyy[0][i]`. -/
  | innerPrdtMulti (polyx : ℕ → ℕ → W) (polyy r : ℕ → W) (s : W) (len inWidth : ℕ)

/-- The statement over other wires. -/
def PolyStmt.map {W W' : Type} (f : W → W') : PolyStmt W → PolyStmt W'
  | .polyDeg2 x y coeff len => .polyDeg2 (fun i => f (x i)) (fun i => f (y i)) coeff len
  | .innerPrdt x y constant len => .innerPrdt (fun i => f (x i)) (fun i => f (y i)) constant len
  | .innerPrdtEq x y r s len len2 =>
    .innerPrdtEq (fun i => f (x i)) (fun i => f (y i)) (fun i => f (r i)) (fun i => f (s i))
      len len2
  | .innerPrdtEqPair x y r s rr ss len len2 =>
    .innerPrdtEqPair (fun i => f (x i)) (fun i => f (y i)) (fun i => f (r i)) (fun i => f (s i))
      (f rr) (f ss) len len2
  | .innerPrdtMulti x y r s len inWidth =>
    .innerPrdtMulti (fun i w => f (x i w)) (fun i => f (y i)) (fun w => f (r w)) (f s) len inWidth

theorem PolyStmt.map_map {W W' W'' : Type} (f : W → W') (g : W' → W'') (st : PolyStmt W) :
    (st.map f).map g = st.map fun x => g (f x) := by
  cases st <;> rfl

theorem PolyStmt.map_id {W : Type} (st : PolyStmt W) : (st.map fun x => x) = st := by
  cases st <;> rfl

/-! ## One party -/

namespace BoolConfig

variable (C : BoolConfig)

/-- `accumulate_alice`. -/
def accumulateAlice (a b : Block) (A : Block × Block) : Block × Block :=
  (A.1 ^^^ C.G.gfmul a b, A.2 ^^^ (if lsb b then a else 0) ^^^ (if lsb a then b else 0))

/-- `accumulate_bob`. -/
def accumulateBob (a b B : Block) : Block := B ^^^ C.G.gfmul a b

/-- `bob_constant_term`. -/
def bobConstantTerm (b : Bool) : Block := if b then C.G.gfmul C.delta C.delta else 0

end BoolConfig

namespace PolyConfig

variable (P : PolyConfig)

/-- `par_accum_`. -/
def parAccum (threads n : ℕ) (f : ℕ → Block × Block → Block × Block) (out : Block × Block) :
    Block × Block :=
  if threads ≤ 1 ∨ n < P.kParMin then (List.range n).foldl (fun acc i => f i acc) out
  else
    ((Workers.split threads n).map fun r =>
      (List.range r.2).foldl (fun acc k => f (r.1 + k) acc) (0, 0)).foldl
        (fun out part => (out.1 ^^^ part.1, out.2 ^^^ part.2)) out

/-- `par_inn_prdt_`. -/
def parInnPrdt (threads n : ℕ) (chi buf : ℕ → Block) : Block :=
  if threads ≤ 1 ∨ n < P.kParMin then P.bool.vectorInnPrdtSumRed n chi buf
  else
    ((Workers.split threads n).map fun r =>
      P.bool.vectorInnPrdtSumRed r.2 (fun k => chi (r.1 + k)) fun k => buf (r.1 + k)).foldl
        (fun acc part => acc ^^^ part) 0

/-- The loop of the inner products, with the accumulation of a party. -/
def prdtLoop (threads : ℕ) (acc : Block → Block → Block × Block → Block × Block)
    (x y : ℕ → Block) (len : ℕ) (out : Block × Block) : Block × Block :=
  P.parAccum threads len (fun i A => acc (x i) (y i) A) out

/-- The loop of `zkp_poly_deg2`. -/
def deg2Loop (threads : ℕ) (acc : Block → Block → Block × Block → Block × Block)
    (x y : ℕ → Block) (coeff : ℕ → Bool) (len : ℕ) : Block × Block :=
  P.parAccum threads len (fun i A => if coeff (i + 1) then acc (x i) (y i) A else A) (0, 0)

/-- The loop of `zkp_inner_prdt_multi`, for one width. -/
def multiLoop (acc : Block → Block → Block × Block → Block × Block) (x : ℕ → ℕ → Block)
    (y r : ℕ → Block) (s : Block) (len w : ℕ) : Block × Block :=
  acc (r w) s ((List.range len).foldl (fun A i => acc (x i w) (y i) A) (0, 0))

/-- What the prover stores, in `buffer` and `buffer1`. -/
def entriesAlice : PolyStmt Block → List (Block × Block)
  | .polyDeg2 x y coeff len =>
    [P.deg2Loop P.bool.threadsPrv P.bool.accumulateAlice x y coeff len]
  | .innerPrdt x y _ len => [P.prdtLoop P.bool.threadsPrv P.bool.accumulateAlice x y len (0, 0)]
  | .innerPrdtEq x y r s len len2 =>
    let loop := P.prdtLoop P.bool.threadsPrv P.bool.accumulateAlice
    [loop r s len2 (loop x y len (0, 0))]
  | .innerPrdtEqPair x y r s rr ss len len2 =>
    let loop := P.prdtLoop P.bool.threadsPrv P.bool.accumulateAlice
    [P.bool.accumulateAlice rr ss (loop r s len2 (loop x y len (0, 0)))]
  | .innerPrdtMulti x y r s len inWidth =>
    (List.range inWidth).map fun w => multiLoop P.bool.accumulateAlice x y r s len w

/-- The verifier's accumulation leaves the second lane alone. -/
def bobLane (a b : Block) (A : Block × Block) : Block × Block :=
  (P.bool.accumulateBob a b A.1, A.2)

/-- What the verifier stores. -/
def entriesBob : PolyStmt Block → List Block
  | .polyDeg2 x y coeff len =>
    [(P.deg2Loop P.bool.threadsVer P.bobLane x y coeff len).1 ^^^ P.bool.bobConstantTerm (coeff 0)]
  | .innerPrdt x y constant len =>
    [(P.prdtLoop P.bool.threadsVer P.bobLane x y len (0, 0)).1 ^^^ P.bool.bobConstantTerm constant]
  | .innerPrdtEq x y r s len len2 =>
    let loop := P.prdtLoop P.bool.threadsVer P.bobLane
    [(loop r s len2 (loop x y len (0, 0))).1]
  | .innerPrdtEqPair x y r s rr ss len len2 =>
    let loop := P.prdtLoop P.bool.threadsVer P.bobLane
    [P.bool.accumulateBob rr ss (loop r s len2 (loop x y len (0, 0))).1]
  | .innerPrdtMulti x y r s len inWidth =>
    (List.range inWidth).map fun w => (multiLoop P.bobLane x y r s len w).1

/-- The coefficients of a check of `num` entries. -/
def chi (seed : Block) (num : ℕ) : ℕ → Block :=
  P.uniHashCoeffGen seed (if 4 < num then num else 4)

/-- `batch_check` of the prover, on the seed received: the two blocks it sends. -/
def batchCheckSend (e : ZKBool) (buffer : List (Block × Block)) (seed : Block) :
    ZKBool × Block × Block :=
  let num := buffer.length
  let chi := P.chi seed num
  let opeData := fun i => P.bool.cotPrv (e.drawn + i)
  let sum0 := P.parInnPrdt P.bool.threadsPrv num chi (fun k => (buffer.getD k 0).1)
    ^^^ P.bool.G.packing opeData
  let sum1 := P.parInnPrdt P.bool.threadsPrv num chi (fun k => (buffer.getD k 0).2)
    ^^^ ZKBool.chBlock opeData
  ({ e with
      drawn := e.drawn + 128
      transcript := e.transcript ++ [Msg.data seed, Msg.data sum0, Msg.data sum1] }, sum0, sum1)

/-- `batch_check` of the verifier, on the blocks received. -/
def batchCheckRecv (e : ZKBool) (buffer : List Block) (seed : Block) (A : Block × Block) :
    Option ZKBool :=
  let num := buffer.length
  let opeData := fun i => P.bool.cotVer (e.drawn + i)
  let B := P.parInnPrdt P.bool.threadsVer num (P.chi seed num) (fun k => buffer.getD k 0)
    ^^^ P.bool.G.packing opeData
  if A.1 = B ^^^ P.bool.G.gfmul A.2 P.bool.delta then
    some { e with
      drawn := e.drawn + 128
      transcript := e.transcript ++ [Msg.data seed, Msg.data A.1, Msg.data A.2] }
  else none

end PolyConfig

/-! ## Both parties -/

/-- The two parties' engines and buffers. -/
structure PolySession where
  /-- The prover's engine. -/
  prover : ZKBool
  /-- The verifier's engine. -/
  verifier : ZKBool
  /-- The first `num` entries of the prover's buffers. -/
  alice : List (Block × Block)
  /-- The first `num` entries of the verifier's buffer. -/
  bob : List Block
  /-- The buffers of the checks so far. -/
  checked : List (List (Block × Block) × List Block)

namespace PolySession

variable (P : PolyConfig)

/-- `batch_check`, both parties.  If one had nothing to check, the other would wait for it. -/
def batchCheck (s : PolySession) : Option PolySession :=
  if s.alice = [] ∧ s.bob = [] then some s
  else if s.alice = [] ∨ s.bob = [] then none
  else
    let seed := P.seed s.checked.length
    let (p, A) := P.batchCheckSend s.prover s.alice seed
    (P.batchCheckRecv s.verifier s.bob seed A).map fun v =>
      { prover := p, verifier := v, alice := [], bob := [],
        checked := s.checked ++ [(s.alice, s.bob)] }

/-- The head of a statement: a full buffer is checked. -/
def room (s : PolySession) : Option PolySession :=
  if P.bufferSz ≤ s.alice.length ∧ P.bufferSz ≤ s.bob.length then batchCheck P s
  else if P.bufferSz ≤ s.alice.length ∨ P.bufferSz ≤ s.bob.length then none
  else some s

/-- An entry of either party. -/
def store (s : PolySession) (entry : (Block × Block) × Block) : Option PolySession :=
  (room P s).map fun s => { s with alice := s.alice ++ [entry.1], bob := s.bob ++ [entry.2] }

/-- A statement, by both parties. -/
def step (s : PolySession) (st : PolyStmt BitLabel) : Option PolySession :=
  Runs.run (store P) s ((P.entriesAlice (st.map BitLabel.prover)).zip
    (P.entriesBob (st.map BitLabel.verifier)))

/-- The destructor. -/
def finish (s : PolySession) : Option PolySession := batchCheck P s

end PolySession

/-! ## Statements as rows -/

/-- What a statement says of the wires for one entry: products, and a public constant. -/
structure BitRow where
  /-- The wires that are multiplied. -/
  terms : List (Block × Block)
  /-- The constant. -/
  const : Bool

namespace BitRow

/-- The row over other halves of the wires. -/
def map (f : Block → Block) (row : BitRow) : BitRow :=
  ⟨row.terms.map fun t => (f t.1, f t.2), row.const⟩

/-- The plaintext error: the bits of the products and the constant, added up. -/
def err (row : BitRow) : Bool :=
  row.terms.foldl (fun e t => e ^^ (lsb t.1 && lsb t.2)) row.const

/-- The prover's entry. -/
def alice (C : BoolConfig) (row : BitRow) : Block × Block :=
  row.terms.foldl (fun A t => C.accumulateAlice t.1 t.2 A) (0, 0)

/-- The verifier's entry. -/
def bob (C : BoolConfig) (row : BitRow) : Block :=
  row.terms.foldl (fun B t => C.accumulateBob t.1 t.2 B) 0 ^^^ C.bobConstantTerm row.const

end BitRow

/-- The first `len` wires of two arrays, in pairs. -/
def pairUp (x y : ℕ → Block) (len : ℕ) : List (Block × Block) :=
  (List.range len).map fun i => (x i, y i)

/-- **What a statement says**, entry by entry. -/
def PolyStmt.rows : PolyStmt Block → List BitRow
  | .polyDeg2 x y coeff len =>
    [⟨((List.range len).filter fun i => coeff (i + 1)).map fun i => (x i, y i), coeff 0⟩]
  | .innerPrdt x y constant len => [⟨pairUp x y len, constant⟩]
  | .innerPrdtEq x y r s len len2 => [⟨pairUp x y len ++ pairUp r s len2, false⟩]
  | .innerPrdtEqPair x y r s rr ss len len2 =>
    [⟨pairUp x y len ++ pairUp r s len2 ++ [(rr, ss)], false⟩]
  | .innerPrdtMulti x y r s len inWidth =>
    (List.range inWidth).map fun w => ⟨pairUp (fun i => x i w) y len ++ [(r w, s)], false⟩

theorem PolyStmt.rows_map (f : Block → Block) (st : PolyStmt Block) :
    (st.map f).rows = st.rows.map (BitRow.map f) := by
  cases st <;>
    simp [PolyStmt.map, PolyStmt.rows, BitRow.map, pairUp, Function.comp_def]

namespace PolyConfig

variable {P : PolyConfig}

/-- **Workers do not show**: a loop whose iterations are exclusive ors is the serial one. -/
theorem parAccum_eq {f : ℕ → Block × Block → Block × Block}
    (hf : ∀ i (A A' : Block × Block),
      f i (A.1 ^^^ A'.1, A.2 ^^^ A'.2) = (A.1 ^^^ (f i A').1, A.2 ^^^ (f i A').2))
    (threads n : ℕ) (out : Block × Block) :
    P.parAccum threads n f out = (List.range n).foldl (fun acc i => f i acc) out := by
  rw [parAccum]
  split
  · rfl
  · exact Workers.foldl_split (fun A => Prod.ext BitVec.xor_zero BitVec.xor_zero) hf threads n out

theorem accumulateAlice_xor (a b : Block) (A A' : Block × Block) :
    P.bool.accumulateAlice a b (A.1 ^^^ A'.1, A.2 ^^^ A'.2)
      = (A.1 ^^^ (P.bool.accumulateAlice a b A').1, A.2 ^^^ (P.bool.accumulateAlice a b A').2) := by
  simp only [BoolConfig.accumulateAlice, BitVec.xor_assoc]

@[simp] theorem bobLane_fst (a b : Block) (A : Block × Block) :
    (P.bobLane a b A).1 = P.bool.accumulateBob a b A.1 := rfl

theorem bobLane_xor (a b : Block) (A A' : Block × Block) :
    P.bobLane a b (A.1 ^^^ A'.1, A.2 ^^^ A'.2)
      = (A.1 ^^^ (P.bobLane a b A').1, A.2 ^^^ (P.bobLane a b A').2) := by
  simp only [bobLane, BoolConfig.accumulateBob, BitVec.xor_assoc]

section Loops

variable {acc : Block → Block → Block × Block → Block × Block}
  (hacc : ∀ a b (A A' : Block × Block),
    acc a b (A.1 ^^^ A'.1, A.2 ^^^ A'.2) = (A.1 ^^^ (acc a b A').1, A.2 ^^^ (acc a b A').2))
include hacc

theorem prdtLoop_eq (threads : ℕ) (x y : ℕ → Block) (len : ℕ) (out : Block × Block) :
    P.prdtLoop threads acc x y len out
      = (pairUp x y len).foldl (fun A t => acc t.1 t.2 A) out := by
  rw [prdtLoop, parAccum_eq (fun i A A' => hacc _ _ A A'), pairUp, List.foldl_map]

theorem deg2Loop_eq (threads : ℕ) (x y : ℕ → Block) (coeff : ℕ → Bool) (len : ℕ) :
    P.deg2Loop threads acc x y coeff len
      = (((List.range len).filter fun i => coeff (i + 1)).map fun i => (x i, y i)).foldl
          (fun A t => acc t.1 t.2 A) (0, 0) := by
  rw [deg2Loop, parAccum_eq, List.foldl_map, List.foldl_filter]
  intro i A A'
  split
  · exact hacc _ _ A A'
  · rfl

end Loops

theorem multiLoop_eq (acc : Block → Block → Block × Block → Block × Block) (x : ℕ → ℕ → Block)
    (y r : ℕ → Block) (s : Block) (len w : ℕ) :
    multiLoop acc x y r s len w
      = (pairUp (fun i => x i w) y len ++ [(r w, s)]).foldl (fun A t => acc t.1 t.2 A) (0, 0) := by
  rw [multiLoop, List.foldl_append, pairUp, List.foldl_map]
  rfl

/-- **The prover's entries**, whatever its number of workers. -/
theorem entriesAlice_eq (st : PolyStmt Block) :
    P.entriesAlice st = st.rows.map (BitRow.alice P.bool) := by
  have hacc := accumulateAlice_xor (P := P)
  cases st <;>
    simp only [entriesAlice, PolyStmt.rows, List.map_cons, List.map_nil, List.map_map,
      Function.comp_def, BitRow.alice, multiLoop_eq, deg2Loop_eq hacc, prdtLoop_eq hacc,
      List.foldl_append, List.foldl_cons, List.foldl_nil]

/-- The first lane of the verifier's loops. -/
theorem foldl_bobLane (ts : List (Block × Block)) (A : Block × Block) :
    (ts.foldl (fun A t => P.bobLane t.1 t.2 A) A).1
      = ts.foldl (fun B t => P.bool.accumulateBob t.1 t.2 B) A.1 := by
  induction ts generalizing A with
  | nil => rfl
  | cons t ts ih => exact ih _

/-- **The verifier's entries**, whatever its number of workers. -/
theorem entriesBob_eq (st : PolyStmt Block) :
    P.entriesBob st = st.rows.map (BitRow.bob P.bool) := by
  have hacc := bobLane_xor (P := P)
  have hfalse : ∀ B : Block, B ^^^ P.bool.bobConstantTerm false = B := fun B => BitVec.xor_zero
  cases st <;>
    simp only [entriesBob, PolyStmt.rows, List.map_cons, List.map_nil, List.map_map,
      Function.comp_def, BitRow.bob, multiLoop_eq, deg2Loop_eq hacc, prdtLoop_eq hacc,
      foldl_bobLane, bobLane_fst, List.foldl_append, List.foldl_cons, List.foldl_nil, hfalse]

end PolyConfig

/-! ## Rows in the ring -/

/-- The verifier's half of a wire under the key `δ`. -/
def keyedBlock (δ M : Block) : Block := xorDeltaIf δ M (lsb M)

/-- The row that says nothing. -/
def BitRow.empty : BitRow := ⟨[], false⟩

section Ring

variable {R : Type*} [CommRing R] {C : BoolConfig} {φ : Block → R}

/-- A wire as a share: the prover reads the bit off its block. -/
def bitShare (φ : Block → R) (M : Block) : Share R := ⟨if lsb M then 1 else 0, φ M⟩

/-- The coefficients of a row. -/
def BitRow.term (φ : Block → R) (row : BitRow) : Term R :=
  row.terms.foldl (fun t p => t.mulAdd 1 (bitShare φ p.1) (bitShare φ p.2))
    (.constant (if row.const then 1 else 0))

variable (hG : C.G.Lawful φ)
include hG

/-- **The prover's entry** holds the coefficients of `Δ ^ 0` and `Δ ^ 1`. -/
theorem BitRow.map_alice (row : BitRow) :
    φ (row.alice C).1 = (row.term φ).const ∧ φ (row.alice C).2 = (row.term φ).lin := by
  have hfold : ∀ (ts : List (Block × Block)) (A : Block × Block) (t : Term R),
      φ A.1 = t.const → φ A.2 = t.lin →
      φ (ts.foldl (fun A t => C.accumulateAlice t.1 t.2 A) A).1
        = (ts.foldl (fun t p => t.mulAdd 1 (bitShare φ p.1) (bitShare φ p.2)) t).const ∧
      φ (ts.foldl (fun A t => C.accumulateAlice t.1 t.2 A) A).2
        = (ts.foldl (fun t p => t.mulAdd 1 (bitShare φ p.1) (bitShare φ p.2)) t).lin := by
    intro ts
    induction ts with
    | nil => exact fun A t h0 h1 => ⟨h0, h1⟩
    | cons w ts ih =>
      intro A t h0 h1
      refine ih _ _ ?_ ?_
      · show φ (A.1 ^^^ C.G.gfmul w.1 w.2) = t.const + 1 * (φ w.1 * φ w.2)
        rw [hG.xor, hG.gfmul, h0, one_mul]
      · show φ (A.2 ^^^ (if lsb w.2 then w.1 else 0) ^^^ (if lsb w.1 then w.2 else 0))
          = t.lin + 1 * (φ w.1 * (if lsb w.2 then 1 else 0) + φ w.2 * (if lsb w.1 then 1 else 0))
        rw [hG.xor, hG.xor, ZKBool.map_ite hG, ZKBool.map_ite hG, h1]
        ring
  exact hfold row.terms (0, 0) _ (Gf2k.map_zero hG.xor) (Gf2k.map_zero hG.xor)

/-- **The verifier's entry** is the value at `Δ`. -/
theorem BitRow.map_bob (δ : Block) (row : BitRow) :
    φ ((row.map (keyedBlock δ)).bob (C.withKey δ)) = (row.term φ).atKey (φ δ) := by
  have hfold : ∀ (ts : List (Block × Block)) (B : Block) (t : Term R) (x : R),
      φ B + x = t.atKey (φ δ) →
      φ ((ts.map fun t => (keyedBlock δ t.1, keyedBlock δ t.2)).foldl
          (fun B t => (C.withKey δ).accumulateBob t.1 t.2 B) B) + x
        = (ts.foldl (fun t p => t.mulAdd 1 (bitShare φ p.1) (bitShare φ p.2)) t).atKey (φ δ) := by
    intro ts
    induction ts with
    | nil => exact fun B t x h => h
    | cons w ts ih =>
      intro B t x h
      refine ih _ _ x ?_
      show φ (B ^^^ C.G.gfmul (keyedBlock δ w.1) (keyedBlock δ w.2)) + x = _
      rw [hG.xor, hG.gfmul, keyedBlock, keyedBlock, map_xorDeltaIf hG, map_xorDeltaIf hG,
        Term.mulAdd_atKey, ← h, bitShare, bitShare]
      ring
  have hconst : φ ((C.withKey δ).bobConstantTerm row.const)
      = (Term.constant (if row.const then 1 else 0 : R)).atKey (φ δ) := by
    show φ (if row.const then C.G.gfmul δ δ else 0) = _
    rw [ZKBool.map_ite hG, hG.gfmul, Term.constant_atKey, pow_two]
  rw [BitRow.bob, hG.xor]
  refine hfold row.terms 0 _ _ ?_
  rw [Gf2k.map_zero hG.xor, zero_add, ← hconst]
  rfl

/-- The plaintext error is the coefficient of `Δ ^ 2`. -/
theorem BitRow.err_eq (row : BitRow) : (if row.err then 1 else 0 : R) = (row.term φ).err := by
  have hxor : ∀ a b : Bool, (if a ^^ b then 1 else 0 : R)
      = (if a then 1 else 0) + if b then 1 else 0 := fun a b => by
    cases a <;> cases b <;> simp [hG.add_self]
  have hfold : ∀ (ts : List (Block × Block)) (e : Bool) (t : Term R),
      (if e then 1 else 0 : R) = t.err →
      (if ts.foldl (fun e t => e ^^ (lsb t.1 && lsb t.2)) e then 1 else 0 : R)
        = (ts.foldl (fun t p => t.mulAdd 1 (bitShare φ p.1) (bitShare φ p.2)) t).err := by
    intro ts
    induction ts with
    | nil => exact fun e t h => h
    | cons w ts ih =>
      intro e t h
      refine ih _ _ ?_
      show (if e ^^ (lsb w.1 && lsb w.2) then 1 else 0 : R)
        = t.err + 1 * ((if lsb w.1 then 1 else 0) * if lsb w.2 then 1 else 0)
      rw [hxor, h]
      cases lsb w.1 <;> cases lsb w.2 <;> simp
  exact hfold row.terms row.const _ rfl

end Ring

namespace PolyConfig

variable {P : PolyConfig}

/-- The parties' set-up under the key `δ`. -/
def withKey (P : PolyConfig) (δ : Block) : PolyConfig := { P with bool := P.bool.withKey δ }

/-- The verifier's buffer for rows of the prover. -/
def bobBuffer (P : PolyConfig) (δ : Block) (rows : List BitRow) : List Block :=
  rows.map fun row => (row.map (keyedBlock δ)).bob (P.bool.withKey δ)

/-- The prover's buffer. -/
def aliceBuffer (P : PolyConfig) (rows : List BitRow) : List (Block × Block) :=
  rows.map (BitRow.alice P.bool)

/-- By how much the statements of a batch are off, combined: the errors of the rows, weighed with
the coefficients of the check. -/
def batchError (P : PolyConfig) (seed : Block) (rows : List BitRow) : Block :=
  Gf2k.xorSum rows.length fun j =>
    if (rows.getD j .empty).err then P.chi seed rows.length j else 0

section Ring

variable {R : Type*} [CommRing R] {φ : Block → R}

/-- The coefficients of a batch. -/
def batchTerm (P : PolyConfig) (φ : Block → R) (seed : Block) (rows : List BitRow) : Term R :=
  .sum rows.length (fun j => φ (P.chi seed rows.length j)) fun j => (rows.getD j .empty).term φ

variable (hG : P.bool.G.Lawful φ)
include hG

/-- The sums of the workers. -/
theorem map_parInnPrdt (threads n : ℕ) (chi buf : ℕ → Block) :
    φ (P.parInnPrdt threads n chi buf) = ∑ k ∈ range n, φ (chi k) * φ (buf k) := by
  rw [parInnPrdt]
  split
  · rw [BoolConfig.vectorInnPrdtSumRed, hG.reduce_innPrdtSumNoRed]
  · rw [ZKBool.map_foldl_xor hG, Gf2k.map_zero hG.xor, zero_add, List.map_map,
      ← Workers.sum_split (fun k => φ (chi k) * φ (buf k)) threads]
    refine congrArg List.sum (List.map_congr_left fun r _ => ?_)
    rw [Function.comp, BoolConfig.vectorInnPrdtSumRed, hG.reduce_innPrdtSumNoRed]

theorem map_batchError (seed : Block) (rows : List BitRow) :
    φ (P.batchError seed rows) = (P.batchTerm φ seed rows).err := by
  rw [batchError, Gf2k.map_xorSum hG.xor]
  refine sum_congr rfl fun j _ => ?_
  rw [ZKBool.map_ite hG, BitRow.err_eq hG, mul_comm]

/-- The blocks of an honest prover. -/
theorem map_batchCheckSend (e : ZKBool) (rows : List BitRow) (seed : Block) :
    let A := (P.batchCheckSend e (P.aliceBuffer rows) seed).2
    φ A.1 = (P.batchTerm φ seed rows).const + (P.bool.maskShare φ e.drawn).mac ∧
      φ A.2 = (P.batchTerm φ seed rows).lin + (P.bool.maskShare φ e.drawn).val := by
  have hget : ∀ k, (P.aliceBuffer rows).getD k 0 = (rows.getD k .empty).alice P.bool :=
    fun _ => List.getD_map rows BitRow.empty (BitRow.alice P.bool)
  have hlen : (P.aliceBuffer rows).length = rows.length := List.length_map _
  simp only [batchCheckSend, hG.xor, map_parInnPrdt hG, hget, hlen, (BitRow.map_alice hG _).1,
    (BitRow.map_alice hG _).2]
  exact ⟨rfl, rfl⟩

/-- **The comparison of the verifier**, on any blocks. -/
theorem batchCheckRecv_isSome (δ : Block) (v : ZKBool) (rows : List BitRow) (seed : Block)
    (A : Block × Block) :
    ((P.withKey δ).batchCheckRecv v (P.bobBuffer δ rows) seed A).isSome ↔
      Accepts (P.batchTerm φ seed rows) (P.bool.maskShare φ v.drawn) (φ δ) (φ A.1, φ A.2) := by
  have hempty : ((BitRow.empty.map (keyedBlock δ)).bob (P.bool.withKey δ)) = 0 := BitVec.xor_self
  have hget : ∀ k, (P.bobBuffer δ rows).getD k 0
      = ((rows.getD k .empty).map (keyedBlock δ)).bob (P.bool.withKey δ) := fun k => by
    rw [← hempty]
    exact List.getD_map rows BitRow.empty fun row : BitRow =>
      (row.map (keyedBlock δ)).bob (P.bool.withKey δ)
  have hlen : (P.bobBuffer δ rows).length = rows.length := List.length_map _
  have hsum : φ ((P.withKey δ).parInnPrdt (P.withKey δ).bool.threadsVer (P.bobBuffer δ rows).length
        ((P.withKey δ).chi seed (P.bobBuffer δ rows).length)
        fun k => (P.bobBuffer δ rows).getD k 0)
      = (P.batchTerm φ seed rows).atKey (φ δ) := by
    have hG' : (P.withKey δ).bool.G.Lawful φ := hG
    simp only [map_parInnPrdt hG', hget, hlen, BitRow.map_bob hG]
    exact (Term.sum_atKey _ _ _ _).symm
  have hcompare : ((P.withKey δ).batchCheckRecv v (P.bobBuffer δ rows) seed A).isSome ↔
      A.1 = ((P.withKey δ).parInnPrdt (P.withKey δ).bool.threadsVer (P.bobBuffer δ rows).length
        ((P.withKey δ).chi seed (P.bobBuffer δ rows).length)
        (fun k => (P.bobBuffer δ rows).getD k 0)
          ^^^ P.bool.G.packing fun i => (P.bool.withKey δ).cotVer (v.drawn + i))
        ^^^ P.bool.G.gfmul A.2 δ := Option.isSome_ite
  rw [hcompare, ← hG.injective.eq_iff, hG.xor, hG.xor, hG.gfmul, hsum,
    BoolConfig.map_packing_withKey hG, Accepts]

end Ring

end PolyConfig

/-! ## Runs -/

namespace PolySession

variable {P : PolyConfig} {δ : Block}

/-- Before the first statement. -/
def init (p v : ZKBool) : PolySession := ⟨p, v, [], [], []⟩

/-- A wire of the prover, as the two parties hold it under the key `δ`. -/
def labelAt (δ M : Block) : BitLabel := ⟨M, keyedBlock δ M⟩

/-- The session with the given rows in the buffers. -/
def fill (P : PolyConfig) (δ : Block) (x : PolySession × List BitRow) : PolySession :=
  { x.1 with alice := P.aliceBuffer x.2, bob := P.bobBuffer δ x.2 }

/-- The check of the given rows. -/
def checkRows (P : PolyConfig) (δ : Block) (s : PolySession) (rows : List BitRow) :
    Option PolySession :=
  batchCheck (P.withKey δ) (fill P δ (s, rows))

/-- A check empties the buffers. -/
theorem batchCheck_empty {s s' : PolySession} (h : batchCheck P s = some s') :
    s'.alice = [] ∧ s'.bob = [] := by
  rw [batchCheck] at h
  split at h
  · rename_i hempty
    exact Option.some.inj h ▸ hempty
  · split at h
    · exact nomatch h
    · obtain ⟨v, -, rfl⟩ := Option.map_eq_some_iff.mp h
      exact ⟨rfl, rfl⟩

theorem fill_nil {s : PolySession} (h : s.alice = [] ∧ s.bob = []) : fill P δ (s, []) = s := by
  obtain ⟨ha, hb⟩ := h
  cases s
  subst ha hb
  rfl

theorem fill_store (s : PolySession) (rows : List BitRow) (row : BitRow) :
    { fill P δ (s, rows) with
      alice := (fill P δ (s, rows)).alice ++ [row.alice P.bool]
      bob := (fill P δ (s, rows)).bob ++ [(row.map (keyedBlock δ)).bob (P.bool.withKey δ)] }
      = fill P δ (s, rows ++ [row]) := by
  simp only [fill, PolyConfig.aliceBuffer, PolyConfig.bobBuffer, List.map_append, List.map_cons,
    List.map_nil]

/-- **Storing an entry** is storing its row. -/
theorem store_fill (x : PolySession × List BitRow) (row : BitRow) :
    store (P.withKey δ) (fill P δ x) (row.alice P.bool,
        (row.map (keyedBlock δ)).bob (P.bool.withKey δ))
      = (Batches.push P.bufferSz (checkRows P δ) x row).map (fill P δ) := by
  obtain ⟨s, rows⟩ := x
  have halice : (fill P δ (s, rows)).alice.length = rows.length := List.length_map _
  have hbob : (fill P δ (s, rows)).bob.length = rows.length := List.length_map _
  rw [store, room, Batches.push, halice, hbob]
  simp only [and_self, or_self]
  show (if P.bufferSz ≤ rows.length then _ else if P.bufferSz ≤ rows.length then _ else _ :
    Option PolySession).map _ = _
  split
  · show (checkRows P δ s rows).map _ = _
    cases hcheck : checkRows P δ s rows with
    | none => rfl
    | some t =>
      have ht := fill_nil (P := P) (δ := δ) (batchCheck_empty hcheck)
      refine congrArg some ?_
      rw [← fill_store, ht]
  · exact congrArg some (fill_store s rows row)

/-- **A statement** is the storing of its rows, whatever the numbers of workers. -/
theorem step_fill (x : PolySession × List BitRow) (st : PolyStmt Block) :
    step (P.withKey δ) (fill P δ x) (st.map (labelAt δ))
      = (Runs.run (Batches.push P.bufferSz (checkRows P δ)) x st.rows).map (fill P δ) := by
  have hentries : ((P.withKey δ).entriesAlice ((st.map (labelAt δ)).map BitLabel.prover)).zip
      ((P.withKey δ).entriesBob ((st.map (labelAt δ)).map BitLabel.verifier))
        = st.rows.map fun row => (row.alice P.bool,
            (row.map (keyedBlock δ)).bob (P.bool.withKey δ)) := by
    rw [PolyStmt.map_map, PolyStmt.map_map, PolyConfig.entriesAlice_eq, PolyConfig.entriesBob_eq]
    show ((st.map fun M => M).rows.map _).zip ((st.map (keyedBlock δ)).rows.map _) = _
    rw [PolyStmt.map_id, PolyStmt.rows_map, List.map_map, List.zip_map']
    rfl
  rw [step, hentries]
  exact Runs.run_map store_fill x st.rows

/-- The destructor is the last check. -/
theorem finish_fill (x : PolySession × List BitRow) :
    finish (P.withKey δ) (fill P δ x)
      = (Batches.close (checkRows P δ) x).map fun s => fill P δ (s, []) := by
  obtain ⟨s, rows⟩ := x
  rw [Batches.close]
  split
  · rename_i hnil
    obtain rfl : rows = [] := hnil
    rw [finish, batchCheck, if_pos ⟨rfl, rfl⟩, Option.map_some]
  · show checkRows P δ s rows = _
    cases hcheck : checkRows P δ s rows with
    | none => rfl
    | some t => rw [Option.map_some, fill_nil (batchCheck_empty hcheck)]

/-- **A run is the checks of its batches**, one after the other. -/
theorem run_eq_checks (s : PolySession) (stmts : List (PolyStmt Block)) :
    (Runs.run (step (P.withKey δ)) (fill P δ (s, [])) (stmts.map (PolyStmt.map (labelAt δ)))).bind
        (finish (P.withKey δ))
      = (Runs.run (checkRows P δ) s
          (Batches.cut P.bufferSz [] (stmts.flatMap PolyStmt.rows))).map
            fun s => fill P δ (s, []) := by
  rw [Runs.run_flatMap step_fill, ← Batches.run_close]
  cases Runs.run (Batches.push P.bufferSz (checkRows P δ)) (s, [])
    (stmts.flatMap PolyStmt.rows) with
  | none => rfl
  | some x => exact finish_fill x

/-! ## What passes -/

section Sound

variable {R : Type*} [CommRing R] {φ : Block → R} (hG : P.bool.G.Lawful φ)

/-- What a batch has to meet: `Δ ^ 2` times its error is 0. -/
def Passes (P : PolyConfig) (δ : Block) (k : ℕ) (rows : List BitRow) : Prop :=
  P.bool.G.gfmul (P.bool.G.gfmul δ δ) (P.batchError (P.seed k) rows) = 0

include hG

/-- **One check**: it passes if the batch does, and the engines stay in step. -/
theorem checkRows_iff {s : PolySession} (hdrawn : s.prover.drawn = s.verifier.drawn)
    {rows : List BitRow} (hne : rows ≠ []) :
    ((checkRows P δ s rows).isSome ↔ Passes P δ s.checked.length rows) ∧
      ∀ s', checkRows P δ s rows = some s' → s'.prover.drawn = s'.verifier.drawn ∧
        s'.checked = s.checked ++ [(P.aliceBuffer rows, P.bobBuffer δ rows)] := by
  have halice : P.aliceBuffer rows ≠ [] := fun h => hne (List.map_eq_nil_iff.mp h)
  have hbob : P.bobBuffer δ rows ≠ [] := fun h => hne (List.map_eq_nil_iff.mp h)
  have hcheck : checkRows P δ s rows =
      ((P.withKey δ).batchCheckRecv s.verifier (P.bobBuffer δ rows) (P.seed s.checked.length)
        (P.batchCheckSend s.prover (P.aliceBuffer rows) (P.seed s.checked.length)).2).map fun v =>
        { prover := (P.batchCheckSend s.prover (P.aliceBuffer rows) (P.seed s.checked.length)).1
          verifier := v, alice := [], bob := [],
          checked := s.checked ++ [(P.aliceBuffer rows, P.bobBuffer δ rows)] } := by
    rw [checkRows, batchCheck, if_neg fun h => halice h.1, if_neg fun h => h.elim halice hbob]
    rfl
  obtain ⟨h0, h1⟩ := PolyConfig.map_batchCheckSend hG s.prover rows (P.seed s.checked.length)
  constructor
  · rw [hcheck, Option.isSome_map, PolyConfig.batchCheckRecv_isSome hG, h0, h1, hdrawn, Passes]
    exact BoolConfig.accepts_honest_iff hG (PolyConfig.map_batchError hG _ _) _ δ
  · intro s' hs'
    rw [hcheck, Option.map_eq_some_iff] at hs'
    obtain ⟨v, hv, rfl⟩ := hs'
    refine ⟨?_, rfl⟩
    simp only [PolyConfig.batchCheckRecv, Option.ite_none_right_eq_some, Option.some.injEq] at hv
    obtain ⟨-, rfl⟩ := hv
    exact congrArg (· + 128) hdrawn

/-- **All checks of a run.** -/
theorem run_checkRows {batches : List (List BitRow)} :
    ∀ {s : PolySession}, s.prover.drawn = s.verifier.drawn → (∀ b ∈ batches, b ≠ []) →
      ((Runs.run (checkRows P δ) s batches).isSome
        ↔ ∀ k b, batches[k]? = some b → Passes P δ (s.checked.length + k) b) ∧
      ∀ s', Runs.run (checkRows P δ) s batches = some s' →
        s'.checked = s.checked ++ batches.map fun b => (P.aliceBuffer b, P.bobBuffer δ b) := by
  induction batches with
  | nil =>
    intro s _ _
    refine ⟨iff_of_true rfl fun k b h => absurd h.symm (Option.some_ne_none b), fun s' hs' => ?_⟩
    rw [← Option.some.inj hs', List.map_nil, List.append_nil]
  | cons rows batches ih =>
    intro s hdrawn hne
    rw [List.forall_mem_cons] at hne
    obtain ⟨hone, hnext⟩ := checkRows_iff (δ := δ) hG hdrawn hne.1
    rw [Runs.run]
    cases hcheck : checkRows P δ s rows with
    | none =>
      refine ⟨iff_of_false Bool.false_ne_true fun hall => ?_, fun s' hs' =>
        absurd hs'.symm (Option.some_ne_none s')⟩
      have hpass := hone.mpr (hall 0 rows rfl)
      rw [hcheck] at hpass
      exact Bool.false_ne_true hpass
    | some t =>
      obtain ⟨hdrawn', hchecked⟩ := hnext t hcheck
      obtain ⟨hrest, htrace⟩ := ih hdrawn' hne.2
      have hlen : t.checked.length = s.checked.length + 1 := by
        rw [hchecked, List.length_append, List.length_singleton]
      refine ⟨hrest.trans ⟨fun h k b hk => ?_, fun h k b hk => ?_⟩, fun s' hs' => ?_⟩
      · cases k with
        | zero =>
          rw [← Option.some.inj hk]
          exact hone.mp (by rw [hcheck]; rfl)
        | succ k =>
          have hpass := h k b hk
          rwa [hlen, Nat.add_assoc, Nat.add_comm 1] at hpass
      · rw [hlen, Nat.add_assoc, Nat.add_comm 1]
        exact h (k + 1) b hk
      · rw [htrace s' hs', hchecked, List.append_assoc, List.map_cons, List.singleton_append]

/-- **What the proofs of polynomials let through.**

A run of statements by honest parties, with wires that the prover holds as blocks and the verifier
as their keys under `Δ`, checks the rows of the statements in batches: every row once and in order,
all batches but the last full.  It goes through exactly if, for every batch, `Δ ^ 2` times the sum
of the errors, weighed with the coefficients of the check, is 0.

Whatever blocks are sent to the verifier instead, for a batch and a mask, at most two keys let an
error through. -/
theorem poly_proof_sound [IsDomain R] (hcap : 0 < P.bufferSz) :
    (∀ (δ : Block) (p v : ZKBool) (stmts : List (PolyStmt Block)), p.drawn = v.drawn →
      let rows := stmts.flatMap PolyStmt.rows
      let batches := Batches.cut P.bufferSz [] rows
      let out := (Runs.run (step (P.withKey δ)) (init p v)
        (stmts.map (PolyStmt.map (labelAt δ)))).bind (finish (P.withKey δ))
      (batches.flatten = rows ∧ (∀ b ∈ batches, b ≠ [] ∧ b.length ≤ P.bufferSz) ∧
        ∀ b ∈ batches.dropLast, b.length = P.bufferSz) ∧
      (∀ s, out = some s →
        s.checked = batches.map fun b => (P.aliceBuffer b, P.bobBuffer δ b)) ∧
      (out.isSome ↔ ∀ k b, batches[k]? = some b →
        P.bool.G.gfmul (P.bool.G.gfmul δ δ) (P.batchError (P.seed k) b) = 0)) ∧
    ∀ (v : ZKBool) (rows : List BitRow) (seed : Block) (A : Block × Block),
      P.batchError seed rows ≠ 0 → ∀ S : Finset Block,
        (∀ δ ∈ S, ((P.withKey δ).batchCheckRecv v (P.bobBuffer δ rows) seed A).isSome) →
        S.card ≤ 2 := by
  constructor
  · intro δ p v stmts hdrawn rows batches out
    have hnil : ([] : List BitRow).length ≤ P.bufferSz := Nat.zero_le _
    obtain ⟨hsizes, hfull⟩ := Batches.cut_spec P.bufferSz hcap hnil rows
    have hout : out = (Runs.run (checkRows P δ) (init p v) batches).map
        fun s => fill P δ (s, []) := run_eq_checks (init p v) stmts
    obtain ⟨hpass, htrace⟩ := run_checkRows (δ := δ) hG (s := init p v) hdrawn fun b hb =>
      (hsizes b hb).1
    refine ⟨⟨Batches.cut_flatten _ _ _, hsizes, hfull⟩, fun s hs => ?_, ?_⟩
    · rw [hout, Option.map_eq_some_iff] at hs
      obtain ⟨t, ht, rfl⟩ := hs
      exact htrace t ht
    · rw [hout, Option.isSome_map, hpass]
      simp only [init, List.length_nil, Nat.zero_add, Passes, rows, batches]
  · intro v rows seed A hne S hS
    exact BoolConfig.accepts_card_le_two hG (PolyConfig.map_batchError hG seed rows) hne
      fun δ hδ => (PolyConfig.batchCheckRecv_isSome hG δ v rows seed A).mp (hS δ hδ)

end Sound

/-- Batches of four entries, and coefficients that count up. -/
def small : PolyConfig where
  bool := BoolSession.smallConfig
  bufferSz := 4
  kParMin := 2
  uniHashCoeffGen _ _ i := BitVec.ofNat 128 (i + 1)
  seed _ := 7

/-- Right statements of all five forms, over wires of value 1 and 0. -/
def rightStmts : List (PolyStmt Block) :=
  [.polyDeg2 (fun _ => 5) (fun _ => 5) (fun i => i = 0 ∨ i = 2) 2,
    .innerPrdt (fun _ => 5) (fun _ => 5) false 2,
    .innerPrdtEq (fun _ => 5) (fun _ => 5) (fun _ => 5) (fun _ => 5) 1 3,
    .innerPrdtEqPair (fun _ => 5) (fun _ => 5) (fun _ => 5) (fun _ => 4) 5 5 1 2,
    .innerPrdtMulti (fun _ w => if w = 0 then 5 else 4) (fun _ => 5)
      (fun w => if w = 0 then 5 else 4) 5 1 2]

/-- They go through in two batches, of four entries and of two; a wrong product of two wires does
under two keys at most. -/
theorem poly_proof_sound_forms :
    ((Runs.run (step (small.withKey 3)) (init .init .init)
      (rightStmts.map (PolyStmt.map (labelAt 3)))).bind (finish (small.withKey 3))).isSome ∧
    ∀ (A : Block × Block) (S : Finset Block),
      (∀ δ ∈ S, ((small.withKey δ).batchCheckRecv .init (small.bobBuffer δ [⟨[(5, 5)], false⟩])
        7 A).isSome) → S.card ≤ 2 := by
  obtain ⟨hrun, hany⟩ := poly_proof_sound (P := small) GfOps.std_lawful (by decide)
  refine ⟨?_, fun A S => hany .init _ 7 A (by decide +kernel) S⟩
  refine (hrun 3 .init .init rightStmts rfl).2.2.mpr fun k b hb => ?_
  rcases k with _ | _ | k
  · rw [← Option.some.inj hb]
    decide +kernel
  · rw [← Option.some.inj hb]
    decide +kernel
  · exact nomatch hb

end PolySession

end VoleZk
