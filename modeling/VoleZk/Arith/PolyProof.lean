import VoleZk.Arith.CheckSound
import VoleZk.Lib.Batches
import VoleZk.Lib.Workers
import Mathlib.Data.List.GetD

/-!
# Proofs of polynomials over residues

`FpPolyProof` proves relations of degree 2 between wires of the arithmetic engine.  A statement is
folded into an entry of a buffer: two coefficients on the prover's side, the value at `Δ` on the
verifier's.  A public constant is no wire, so the verifier alone adds it, times `Δ ^ 2`.  Full
buffers are checked with coefficients from a seed of the verifier, under a mask that is the next
correlation of the engine.

Products are checked by the engine itself, in batches of their own and with masks from the same
stream.  So a program makes products and statements in any order, and the two kinds of check meet
only in the number of correlations drawn.  `threads_` is the engine's: the check of products wants
the same on both sides, the loops here do not, and have numbers of their own.

## What is here

* `FpPolyConfig.parSum` — the loops with workers;
* `FpPolyStmt`, `FpPolyConfig.entryAlice`, `FpPolyConfig.entryBob` — the two forms of statements,
  and what the parties store for them;
* `FpPolySession.step`, `FpPolySession.finish` — **the two parties running a program**;
* `FpPolyPlain.step` — what the program computes, and what its statements are off by;
* `FpPolyConfig.check_iff` — the comparison of the verifier, on any words;
* `FpPolySession.Inv`, `FpPolySession.step_rel` — one operation, by both parties and in plain;
* `FpPolySession.fp_poly_proof_sound` — **what passes**, in any program, and whatever the prover
  sends.
-/

set_option autoImplicit false

open Finset KeyCheck

namespace VoleZk

/-! ## Statements -/

/-- A statement over wires, the pairs `(polyx[i], polyy[i])`. -/
inductive FpPolyStmt (W : Type) where
  /-- `zkp_poly_deg2`. -/
  | polyDeg2 (xy : List (W × W)) (coeff : ℕ → ℕ)
  /-- `zkp_inner_prdt`. -/
  | innerPrdt (xy : List (W × W)) (constant : ℕ)

namespace FpPolyStmt

variable {W W' W'' : Type}

/-- The wires. -/
def pairs : FpPolyStmt W → List (W × W)
  | .polyDeg2 xy _ => xy
  | .innerPrdt xy _ => xy

/-- The statement over other wires. -/
def withPairs (xy : List (W' × W')) : FpPolyStmt W → FpPolyStmt W'
  | .polyDeg2 _ coeff => .polyDeg2 xy coeff
  | .innerPrdt _ constant => .innerPrdt xy constant

/-- The statement over the images of the wires. -/
def map (f : W → W') (st : FpPolyStmt W) : FpPolyStmt W' :=
  st.withPairs (st.pairs.map (Prod.map f f))

/-- The coefficients and constants are words. -/
def Words : FpPolyStmt W → Prop
  | .polyDeg2 _ coeff => ∀ i, coeff i < 2 ^ 64
  | .innerPrdt _ constant => constant < 2 ^ 64

/-- The plaintext value of the polynomial. -/
def value : FpPolyStmt ℕ → ℕ
  | .polyDeg2 xy coeff =>
    coeff 0 + ∑ i ∈ range xy.length, coeff (i + 1) * ((xy.getD i (0, 0)).1 * (xy.getD i (0, 0)).2)
  | .innerPrdt xy constant =>
    constant + ∑ i ∈ range xy.length, (xy.getD i (0, 0)).1 * (xy.getD i (0, 0)).2

/-- The statement over the wires at given positions. -/
def lookup (get : List ℕ → Option (List W)) (st : FpPolyStmt ℕ) : Option (FpPolyStmt W) :=
  (get (st.pairs.map Prod.fst)).bind fun xs =>
    (get (st.pairs.map Prod.snd)).map fun ys => st.withPairs (xs.zip ys)

end FpPolyStmt

/-! ## One party -/

/-- What the two parties set up, beyond the arithmetic engine. -/
structure FpPolyConfig where
  /-- The arithmetic engine. -/
  fp : FpConfig
  /-- `buffer_sz`. -/
  bufferSz : ℕ
  /-- `kParMin`. -/
  kParMin : ℕ
  /-- `threads_` of the prover. -/
  threadsPrv : ℕ
  /-- `threads_` of the verifier. -/
  threadsVer : ℕ
  /-- `vector_inn_prdt_sum_red(a, b, sz)`. -/
  vectorInnPrdtSumRed : (ℕ → ℕ) → (ℕ → ℕ) → ℕ → ℕ
  /-- The words that the verifier draws as seeds, check after check. -/
  seed : ℕ → ℕ

/-- The engine is set up, inner products are reduced, and a buffer has room. -/
structure FpPolyConfig.Valid (P : FpPolyConfig) : Prop where
  /-- The engine. -/
  fp : P.fp.Valid
  /-- `vector_inn_prdt_sum_red` returns the canonical residue, on residues. -/
  innPrdt : ∀ a b n, (∀ i < n, a i < PR) → (∀ i < n, b i < PR) →
    P.vectorInnPrdtSumRed a b n = (∑ i ∈ range n, a i * b i) % PR
  /-- `mult_mod` reduces also where the first factor is a word. -/
  multMod_word : ∀ a b, a < 2 ^ 64 → b < PR → P.fp.F.multMod a b = a * b % PR
  /-- The buffer has room for an entry. -/
  bufferSz_pos : 0 < P.bufferSz

namespace FpPolyConfig

variable (P : FpPolyConfig)

/-- `par_sum_`. -/
def parSum (threads n : ℕ) (f : ℕ → ℕ) : ℕ :=
  if threads ≤ 1 ∨ n < P.kParMin then
    (List.range n).foldl (fun s i => P.fp.F.addMod s (f i)) 0
  else
    ((Workers.split threads n).map fun r =>
      (List.range r.2).foldl (fun acc k => P.fp.F.addMod acc (f (r.1 + k))) 0).foldl
        (fun r part => P.fp.F.addMod r part) 0

/-- The wires `polyx[i]` and `polyy[i]`. -/
def wire (xy : List (AuthVal × AuthVal)) (i : ℕ) : AuthVal × AuthVal :=
  xy.getD i (⟨0, 0⟩, ⟨0, 0⟩)

/-- `m0·m1`, on the keys for the verifier. -/
def macProduct (xy : List (AuthVal × AuthVal)) (i : ℕ) : ℕ :=
  P.fp.F.multMod (wire xy i).1.mac (wire xy i).2.mac

/-- `m0·w1 + m1·w0`. -/
def crossTerm (xy : List (AuthVal × AuthVal)) (i : ℕ) : ℕ :=
  P.fp.F.addMod (P.fp.F.multMod (wire xy i).1.mac (wire xy i).2.val)
    (P.fp.F.multMod (wire xy i).2.mac (wire xy i).1.val)

/-- What the prover stores, in `buffer` and `buffer1`. -/
def entryAlice : FpPolyStmt AuthVal → ℕ × ℕ
  | .polyDeg2 xy coeff =>
    (P.parSum P.threadsPrv xy.length fun i => P.fp.F.multMod (coeff (i + 1)) (P.macProduct xy i),
      P.parSum P.threadsPrv xy.length fun i => P.fp.F.multMod (coeff (i + 1)) (P.crossTerm xy i))
  | .innerPrdt xy _ =>
    (P.parSum P.threadsPrv xy.length fun i => P.macProduct xy i,
      P.parSum P.threadsPrv xy.length fun i => P.crossTerm xy i)

/-- What the verifier stores. -/
def entryBob : FpPolyStmt AuthVal → ℕ
  | .polyDeg2 xy coeff =>
    let B := P.parSum P.threadsVer xy.length fun i =>
      P.fp.F.multMod (coeff (i + 1)) (P.macProduct xy i)
    let tmp := P.fp.F.multMod (coeff 0) (P.fp.F.multMod P.fp.delta P.fp.delta)
    P.fp.F.addMod B tmp
  | .innerPrdt xy constant =>
    let B := P.parSum P.threadsVer xy.length fun i => P.macProduct xy i
    let tmp := P.fp.F.multMod constant (P.fp.F.multMod P.fp.delta P.fp.delta)
    P.fp.F.addMod B tmp

/-- The coefficients of a check. -/
def chi (seed : ℕ) : ℕ → ℕ := FpOSTriple.prgCoeffGenZk P.fp seed

/-- `batch_check` of the prover, on the seed received: the two words it sends. -/
def batchCheckSend (e : FpOSTriple) (buffer : List (ℕ × ℕ)) (seed : ℕ) : FpOSTriple × ℕ × ℕ :=
  let num := buffer.length
  let sum0 := P.vectorInnPrdtSumRed (P.chi seed) (fun k => (buffer.getD k (0, 0)).1) num
  let sum1 := P.vectorInnPrdtSumRed (P.chi seed) (fun k => (buffer.getD k (0, 0)).2) num
  let opeData := P.fp.volePrv e.drawn
  ({ e with drawn := e.drawn + 1 }, P.fp.F.addMod sum0 opeData.mac,
    P.fp.F.addMod sum1 opeData.val)

/-- `batch_check` of the verifier, on the words received. -/
def batchCheckRecv (e : FpOSTriple) (buffer : List ℕ) (seed : ℕ) (checkSum : ℕ × ℕ) :
    Option FpOSTriple :=
  let num := buffer.length
  let B := P.vectorInnPrdtSumRed (P.chi seed) (fun k => buffer.getD k 0) num
  let opeData := P.fp.voleVer e.drawn
  let B := P.fp.F.addMod B opeData.mac
  let tmp := P.fp.F.multMod checkSum.2 P.fp.delta
  let tmp := P.fp.F.addMod B tmp
  if tmp = checkSum.1 then some { e with drawn := e.drawn + 1 } else none

end FpPolyConfig

/-! ## Both parties -/

/-- An operation of a program. -/
inductive FpPolyOp where
  /-- An operation of the engine. -/
  | fp (op : FpOp)
  /-- A statement, over the wires at the given positions. -/
  | poly (st : FpPolyStmt ℕ)

/-- Inputs and public constants of the engine are below `PR`; those of statements are words. -/
def FpPolyOp.Canonical : FpPolyOp → Prop
  | .fp op => op.Canonical
  | .poly st => st.Words

/-- The operations of the engine. -/
def FpPolyOp.fp? : FpPolyOp → Option FpOp
  | .fp op => some op
  | .poly _ => none

/-- The two parties in the middle of a program. -/
structure FpPolySession where
  /-- The engines and the wires. -/
  fp : FpSession
  /-- The first `num` entries of the prover's buffers. -/
  alice : List (ℕ × ℕ)
  /-- The first `num` entries of the verifier's buffer. -/
  bob : List ℕ
  /-- The checks so far. -/
  checks : ℕ

namespace FpPolySession

variable (P : FpPolyConfig)

/-- Before the first statement. -/
def init (s : FpSession) : FpPolySession := ⟨s, [], [], 0⟩

/-- `batch_check`, both parties.  If one had nothing to check, the other would wait for it. -/
def batchCheck (s : FpPolySession) : Option FpPolySession :=
  if s.alice = [] ∧ s.bob = [] then some s
  else if s.alice = [] ∨ s.bob = [] then none
  else
    let seed := P.fp.F.mod (P.seed s.checks)
    let (p, A) := P.batchCheckSend s.fp.prover s.alice seed
    (P.batchCheckRecv s.fp.verifier s.bob seed A).map fun v =>
      { fp := { s.fp with prover := p, verifier := v }, alice := [], bob := [],
        checks := s.checks + 1 }

/-- The head of a statement: a full buffer is checked. -/
def room (s : FpPolySession) : Option FpPolySession :=
  if P.bufferSz ≤ s.alice.length ∧ P.bufferSz ≤ s.bob.length then batchCheck P s
  else if P.bufferSz ≤ s.alice.length ∨ P.bufferSz ≤ s.bob.length then none
  else some s

/-- A statement, by both parties. -/
def state (s : FpPolySession) (st : FpPolyStmt Label) : Option FpPolySession :=
  (room P s).map fun s =>
    { s with
      alice := s.alice ++ [P.entryAlice (st.map Label.prover)]
      bob := s.bob ++ [P.entryBob (st.map Label.verifier)] }

/-- An operation, by both parties. -/
def step (s : FpPolySession) : FpPolyOp → Option FpPolySession
  | .fp op => (FpSession.step P.fp s.fp op).map fun fp => { s with fp }
  | .poly st => (st.lookup s.fp.labels).bind fun st => state P s st

/-- The destructors: the last statements are checked, and then the last products. -/
def finish (s : FpPolySession) : Option FpPolySession :=
  (batchCheck P s).bind fun s => (FpSession.finish P.fp s.fp).map fun fp => { s with fp }

end FpPolySession

/-! ## What a program computes -/

namespace FpPolyPlain

/-- One operation on plain values, and the value of the polynomial if it is a statement. -/
def step (p : FpPlain) : FpPolyOp → Option (FpPlain × List ℕ)
  | .fp op => (p.step op).map fun p => (p, [])
  | .poly st => (st.lookup p.values).map fun st => (p, [st.value])

end FpPolyPlain

/-! ## The loops -/

/-- A residue with the given class. -/
def Cast (x : ℕ) (X : ZMod PR) : Prop := x < PR ∧ (x : ZMod PR) = X

theorem Cast.addMod {F : FpOps} (hF : F.Canonical) {x y : ℕ} {X Y : ZMod PR} (hx : Cast x X)
    (hy : Cast y Y) : Cast (F.addMod x y) (X + Y) := by
  obtain ⟨hx, rfl⟩ := hx
  obtain ⟨hy, rfl⟩ := hy
  exact ⟨hF.addMod_lt hx.le hy.le (by omega), hF.addMod_cast hx.le hy.le (by omega)⟩

theorem Cast.multMod {F : FpOps} (hF : F.Canonical) {x y : ℕ} {X Y : ZMod PR} (hx : Cast x X)
    (hy : Cast y Y) : Cast (F.multMod x y) (X * Y) := by
  obtain ⟨hx, rfl⟩ := hx
  obtain ⟨hy, rfl⟩ := hy
  exact ⟨hF.multMod_lt hx hy, hF.multMod_cast hx hy⟩

theorem cast_self {x : ℕ} (hx : x < PR) : Cast x (x : ZMod PR) := ⟨hx, rfl⟩

namespace FpPolyConfig

variable {P : FpPolyConfig}

/-- A factor that is a word. -/
theorem Valid.word_multMod (hP : P.Valid) {c y : ℕ} {Y : ZMod PR} (hc : c < 2 ^ 64)
    (hy : Cast y Y) : Cast (P.fp.F.multMod c y) (c * Y) := by
  obtain ⟨hy, rfl⟩ := hy
  rw [hP.multMod_word c y hc hy]
  exact ⟨Nat.mod_lt _ PR_pos, by rw [ZMod.natCast_mod, Nat.cast_mul]⟩

/-- A serial loop. -/
theorem foldl_addMod_range (hP : P.Valid) {n : ℕ} {f : ℕ → ℕ} {g : ℕ → ZMod PR}
    (hf : ∀ i < n, Cast (f i) (g i)) :
    Cast ((List.range n).foldl (fun s i => P.fp.F.addMod s (f i)) 0) (∑ i ∈ range n, g i) := by
  induction n with
  | zero => exact ⟨PR_pos, Nat.cast_zero⟩
  | succ n ih =>
    rw [List.range_succ, List.foldl_append, sum_range_succ]
    exact (ih fun i hi => hf i (by omega)).addMod hP.fp.canonical (hf n n.lt_succ_self)

/-- **Workers do not show**: the loop is a sum. -/
theorem parSum_cast (hP : P.Valid) (threads : ℕ) {n : ℕ} {f : ℕ → ℕ} {g : ℕ → ZMod PR}
    (hf : ∀ i < n, Cast (f i) (g i)) : Cast (P.parSum threads n f) (∑ i ∈ range n, g i) := by
  rw [parSum]
  split
  · exact foldl_addMod_range hP hf
  · have hslice : ∀ r ∈ Workers.split threads n,
        Cast ((List.range r.2).foldl (fun acc k => P.fp.F.addMod acc (f (r.1 + k))) 0)
          (∑ k ∈ range r.2, g (r.1 + k)) := fun r hr =>
      foldl_addMod_range hP fun k hk => hf _ (Workers.add_lt_of_mem_split hr hk)
    obtain ⟨hlt, hcast⟩ := FpOSTriple.foldl_addMod_cast hP.fp
      (List.forall_mem_map.mpr fun r hr => (hslice r hr).1) PR_pos
    refine ⟨hlt, hcast.trans ?_⟩
    rw [Nat.cast_zero, zero_add, List.map_map, ← Workers.sum_split g threads]
    exact congrArg List.sum (List.map_congr_left fun r hr => (hslice r hr).2)

end FpPolyConfig

/-! ## Statements in the field -/

/-- Value and MAC are residues. -/
def AuthVal.Residues (M : AuthVal) : Prop := M.val < PR ∧ M.mac < PR

/-- The verifier's half of a wire under the key `delta`. -/
def keyed (delta : ℕ) (M : AuthVal) : AuthVal := ⟨0, keyOf delta M.val M.mac⟩

/-- A half as a share. -/
def AuthVal.share (M : AuthVal) : Share (ZMod PR) := ⟨M.val, M.mac⟩

namespace FpPolyStmt

/-- A statement of the prover: words and residues. -/
structure Ok (st : FpPolyStmt AuthVal) : Prop where
  /-- The coefficients. -/
  words : st.Words
  /-- The wires. -/
  residues : ∀ t ∈ st.pairs, t.1.Residues ∧ t.2.Residues

/-- The coefficient of product `i`. -/
def coeffAt {W : Type} : FpPolyStmt W → ℕ → ℕ
  | .polyDeg2 _ coeff, i => coeff (i + 1)
  | .innerPrdt _ _, _ => 1

/-- The constant. -/
def constant {W : Type} : FpPolyStmt W → ℕ
  | .polyDeg2 _ coeff => coeff 0
  | .innerPrdt _ constant => constant

/-- The coefficients in the key. -/
def term (st : FpPolyStmt AuthVal) : Term (ZMod PR) :=
  .inner st.pairs.length (fun i => st.coeffAt i)
    (fun i => (FpPolyConfig.wire st.pairs i).1.share)
    (fun i => (FpPolyConfig.wire st.pairs i).2.share) st.constant

/-- The statement that says nothing. -/
def empty : FpPolyStmt AuthVal := .innerPrdt [] 0

/-- The plaintext value is the coefficient of `Δ ^ 2`. -/
theorem term_err (st : FpPolyStmt AuthVal) :
    st.term.err = ((st.map AuthVal.val).value : ZMod PR) := by
  have hwire : ∀ (xy : List (AuthVal × AuthVal)) (i : ℕ),
      (xy.map (Prod.map AuthVal.val AuthVal.val)).getD i (0, 0)
        = ((FpPolyConfig.wire xy i).1.val, (FpPolyConfig.wire xy i).2.val) := fun xy i =>
    List.getD_map xy ((⟨0, 0⟩, ⟨0, 0⟩) : AuthVal × AuthVal) (Prod.map AuthVal.val AuthVal.val)
  cases st <;>
    simp only [term, Term.inner, map, withPairs, pairs, value, coeffAt, constant, hwire,
      AuthVal.share, List.length_map, Nat.cast_add, Nat.cast_sum, Nat.cast_mul, Nat.cast_one,
      one_mul]

end FpPolyStmt

namespace FpPolyConfig

variable {P : FpPolyConfig}

theorem wire_residues {xy : List (AuthVal × AuthVal)}
    (hxy : ∀ t ∈ xy, t.1.Residues ∧ t.2.Residues) (i : ℕ) :
    (wire xy i).1.Residues ∧ (wire xy i).2.Residues := by
  rw [wire, List.getD_eq_getElem?_getD]
  cases hi : xy[i]? with
  | none => exact ⟨⟨PR_pos, PR_pos⟩, PR_pos, PR_pos⟩
  | some t => exact hxy t (List.mem_of_getElem? hi)

theorem keyed_zero (delta : ℕ) : keyed delta ⟨0, 0⟩ = ⟨0, 0⟩ := by
  simp [keyed, keyOf]

theorem wire_map_keyed (delta : ℕ) (xy : List (AuthVal × AuthVal)) (i : ℕ) :
    wire (xy.map (Prod.map (keyed delta) (keyed delta))) i
      = (keyed delta (wire xy i).1, keyed delta (wire xy i).2) := by
  have hget := List.getD_map (n := i) xy ((⟨0, 0⟩, ⟨0, 0⟩) : AuthVal × AuthVal)
    (Prod.map (keyed delta) (keyed delta))
  rwa [Prod.map, keyed_zero] at hget

section Entries

variable {xy : List (AuthVal × AuthVal)} (hxy : ∀ t ∈ xy, t.1.Residues ∧ t.2.Residues)

include hxy

theorem macProduct_cast (hP : P.Valid) (i : ℕ) :
    Cast (P.macProduct xy i) ((wire xy i).1.share.mac * (wire xy i).2.share.mac) :=
  have ⟨hx, hy⟩ := wire_residues hxy i
  (cast_self hx.2).multMod hP.fp.canonical (cast_self hy.2)

theorem crossTerm_cast (hP : P.Valid) (i : ℕ) :
    Cast (P.crossTerm xy i) ((wire xy i).1.share.mac * (wire xy i).2.share.val
      + (wire xy i).2.share.mac * (wire xy i).1.share.val) := by
  obtain ⟨⟨hvx, hmx⟩, hvy, hmy⟩ := wire_residues hxy i
  exact ((cast_self hmx).multMod hP.fp.canonical (cast_self hvy)).addMod hP.fp.canonical
    ((cast_self hmy).multMod hP.fp.canonical (cast_self hvx))

end Entries

/-- **The prover's entry** holds the coefficients of `Δ ^ 0` and `Δ ^ 1`. -/
theorem entryAlice_cast (hP : P.Valid) {st : FpPolyStmt AuthVal} (hst : st.Ok) :
    Cast (P.entryAlice st).1 st.term.const ∧ Cast (P.entryAlice st).2 st.term.lin := by
  cases st with
  | polyDeg2 xy coeff =>
    exact ⟨parSum_cast hP _ fun i _ =>
        hP.word_multMod (hst.words _) (macProduct_cast hst.residues hP i),
      parSum_cast hP _ fun i _ =>
        hP.word_multMod (hst.words _) (crossTerm_cast hst.residues hP i)⟩
  | innerPrdt xy constant =>
    have hone : ∀ x : ZMod PR, ((1 : ℕ) : ZMod PR) * x = x := by simp
    simp only [FpPolyStmt.term, Term.inner, FpPolyStmt.coeffAt, hone]
    exact ⟨parSum_cast hP _ fun i _ => macProduct_cast hst.residues hP i,
      parSum_cast hP _ fun i _ => crossTerm_cast hst.residues hP i⟩

theorem keyed_residues (delta : ℕ) (M : AuthVal) : (keyed delta M).Residues :=
  ⟨PR_pos, keyOf_lt _ _ _⟩

theorem keyed_share_mac (delta : ℕ) (M : AuthVal) :
    (keyed delta M).share.mac = M.share.key (delta : ZMod PR) := keyOf_cast _ _ _

/-- **The verifier's entry** is the value at `Δ`. -/
theorem entryBob_cast (hP : P.Valid) {st : FpPolyStmt AuthVal} (hst : st.Ok) :
    Cast (P.entryBob (st.map (keyed P.fp.delta))) (st.term.atKey (P.fp.delta : ZMod PR)) := by
  have hΔ := cast_self hP.fp.delta_lt
  have hsq : Cast (P.fp.F.multMod P.fp.delta P.fp.delta) ((P.fp.delta : ZMod PR) ^ 2) := by
    rw [pow_two]
    exact hΔ.multMod hP.fp.canonical hΔ
  have hkeys : ∀ (xy : List (AuthVal × AuthVal)) (i : ℕ),
      Cast (P.macProduct (xy.map (Prod.map (keyed P.fp.delta) (keyed P.fp.delta))) i)
        ((wire xy i).1.share.key (P.fp.delta : ZMod PR)
          * (wire xy i).2.share.key (P.fp.delta : ZMod PR)) := by
    intro xy i
    rw [← keyed_share_mac, ← keyed_share_mac]
    have hres : ∀ t ∈ xy.map (Prod.map (keyed P.fp.delta) (keyed P.fp.delta)),
        t.1.Residues ∧ t.2.Residues := List.forall_mem_map.mpr fun t _ =>
      ⟨keyed_residues _ _, keyed_residues _ _⟩
    have hprod := macProduct_cast hres hP i
    rwa [wire_map_keyed] at hprod
  rw [FpPolyStmt.term, Term.inner_atKey]
  cases st with
  | polyDeg2 xy coeff =>
    simp only [entryBob, FpPolyStmt.map, FpPolyStmt.withPairs, FpPolyStmt.pairs, List.length_map]
    exact (parSum_cast hP _ fun i _ => hP.word_multMod (hst.words _) (hkeys xy i)).addMod
      hP.fp.canonical (hP.word_multMod (hst.words 0) hsq)
  | innerPrdt xy constant =>
    have hone : ∀ x : ZMod PR, ((1 : ℕ) : ZMod PR) * x = x := by simp
    simp only [entryBob, FpPolyStmt.map, FpPolyStmt.withPairs, FpPolyStmt.pairs, List.length_map,
      FpPolyStmt.coeffAt, hone]
    exact (parSum_cast hP _ fun i _ => hkeys xy i).addMod hP.fp.canonical
      (hP.word_multMod hst.words hsq)

/-! ## The comparison -/

/-- The prover's buffer. -/
def aliceBuffer (P : FpPolyConfig) (stmts : List (FpPolyStmt AuthVal)) : List (ℕ × ℕ) :=
  stmts.map P.entryAlice

/-- The verifier's buffer for statements of the prover. -/
def bobBuffer (P : FpPolyConfig) (stmts : List (FpPolyStmt AuthVal)) : List ℕ :=
  stmts.map fun st => P.entryBob (st.map (keyed P.fp.delta))

/-- The plaintext values of statements. -/
def values (stmts : List (FpPolyStmt AuthVal)) : List ℕ :=
  stmts.map fun st => (st.map AuthVal.val).value

/-- By how much the statements of a batch are off, combined: their values, weighed with the
coefficients of the check. -/
def batchError (P : FpPolyConfig) (seed : ℕ) (es : List ℕ) : ZMod PR :=
  ∑ j ∈ range es.length, (P.chi seed j : ZMod PR) * (es.getD j 0 : ℕ)

/-- The coefficients of a batch. -/
def batchTerm (P : FpPolyConfig) (seed : ℕ) (stmts : List (FpPolyStmt AuthVal)) :
    Term (ZMod PR) :=
  .sum stmts.length (fun j => (P.chi seed j : ZMod PR)) fun j => (stmts.getD j .empty).term

theorem batchTerm_err (seed : ℕ) (stmts : List (FpPolyStmt AuthVal)) :
    (P.batchTerm seed stmts).err = P.batchError seed (values stmts) := by
  have hget : ∀ j, (values stmts).getD j 0 = ((stmts.getD j .empty).map AuthVal.val).value :=
    fun _ => List.getD_map stmts FpPolyStmt.empty fun st => (st.map AuthVal.val).value
  have hlen : (values stmts).length = stmts.length := List.length_map _
  simp only [batchError, hget, hlen, batchTerm, Term.sum, FpPolyStmt.term_err]

theorem chi_lt (hP : P.Valid) (seed k : ℕ) : P.chi seed k < PR := by
  rw [chi, FpOSTriple.prgCoeffGenZk, hP.fp.canonical.mod_eq _ (hP.fp.prg_lt _ _)]
  exact Nat.mod_lt _ PR_pos

/-- The inner product of a buffer with the coefficients. -/
theorem innPrdt_cast (hP : P.Valid) (seed : ℕ) {n : ℕ} {b : ℕ → ℕ} {g : ℕ → ZMod PR}
    (hb : ∀ i < n, Cast (b i) (g i)) :
    Cast (P.vectorInnPrdtSumRed (P.chi seed) b n)
      (∑ i ∈ range n, (P.chi seed i : ZMod PR) * g i) := by
  rw [hP.innPrdt _ _ _ (fun i _ => chi_lt hP seed i) fun i hi => (hb i hi).1]
  refine ⟨Nat.mod_lt _ PR_pos, ?_⟩
  rw [ZMod.natCast_mod, Nat.cast_sum]
  refine sum_congr rfl fun i hi => ?_
  rw [Nat.cast_mul, (hb i (mem_range.mp hi)).2]

section Batch

variable {stmts : List (FpPolyStmt AuthVal)} (hstmts : ∀ st ∈ stmts, st.Ok)

include hstmts

theorem getD_ok {j : ℕ} (hj : j < stmts.length) : (stmts.getD j .empty).Ok := by
  rw [List.getD_eq_getElem _ _ hj]
  exact hstmts _ (List.getElem_mem hj)

/-- **The words of an honest prover.** -/
theorem batchCheckSend_cast (hP : P.Valid) (e : FpOSTriple) (seed : ℕ) :
    let A := (P.batchCheckSend e (P.aliceBuffer stmts) seed).2
    let mask := FpOSTriple.maskShare P.fp e.drawn
    Cast A.1 ((P.batchTerm seed stmts).const + mask.mac) ∧
      Cast A.2 ((P.batchTerm seed stmts).lin + mask.val) := by
  have hget : ∀ {j}, j < stmts.length →
      (P.aliceBuffer stmts).getD j (0, 0) = P.entryAlice (stmts.getD j .empty) := fun {j} hj => by
    rw [List.getD_eq_getElem _ _ hj, aliceBuffer, List.getD_eq_getElem _ _ (by simpa using hj),
      List.getElem_map]
  have hlen : (P.aliceBuffer stmts).length = stmts.length := List.length_map _
  have hentry := fun j (hj : j < stmts.length) => entryAlice_cast hP (getD_ok hstmts hj)
  obtain ⟨hval, hmac⟩ := hP.fp.volePrv_lt e.drawn
  simp only [batchCheckSend, hlen]
  exact ⟨(innPrdt_cast hP seed fun j hj => by rw [hget hj]; exact (hentry j hj).1).addMod
      hP.fp.canonical (cast_self hmac),
    (innPrdt_cast hP seed fun j hj => by rw [hget hj]; exact (hentry j hj).2).addMod
      hP.fp.canonical (cast_self hval)⟩

/-- **The comparison of the verifier**, on any words: the one of the field, and the first word is a
residue. -/
theorem check_iff (hP : P.Valid) (v : FpOSTriple) (seed : ℕ) {A : ℕ × ℕ} (hA : A.2 < 2 ^ 64) :
    (P.batchCheckRecv v (P.bobBuffer stmts) seed A).isSome ↔
      A.1 < PR ∧ Accepts (P.batchTerm seed stmts) (FpOSTriple.maskShare P.fp v.drawn)
        (P.fp.delta : ZMod PR) ((A.1 : ZMod PR), (A.2 : ZMod PR)) := by
  have hF := hP.fp.canonical
  have hget : ∀ {j}, j < stmts.length → (P.bobBuffer stmts).getD j 0
      = P.entryBob ((stmts.getD j .empty).map (keyed P.fp.delta)) := fun {j} hj => by
    rw [List.getD_eq_getElem _ _ hj, bobBuffer, List.getD_eq_getElem _ _ (by simpa using hj),
      List.getElem_map]
  have hlen : (P.bobBuffer stmts).length = stmts.length := List.length_map _
  have hmask : Cast (P.fp.voleVer v.drawn).mac
      ((FpOSTriple.maskShare P.fp v.drawn).key (P.fp.delta : ZMod PR)) := by
    obtain ⟨u, hu⟩ := hP.fp.vole v.drawn
    refine ⟨hu.key_lt, ?_⟩
    rw [FpOSTriple.maskShare, Share.key, hu.mac_cast, hu.val_eq]
    ring
  have hsum : Cast (P.vectorInnPrdtSumRed (P.chi seed) (fun k => (P.bobBuffer stmts).getD k 0)
      stmts.length) ((P.batchTerm seed stmts).atKey (P.fp.delta : ZMod PR)) := by
    rw [batchTerm, Term.sum_atKey]
    exact innPrdt_cast hP seed fun j hj => by
      rw [hget hj]
      exact entryBob_cast hP (getD_ok hstmts hj)
  have htmp := (hsum.addMod hF hmask).addMod hF
    (hP.word_multMod hA (cast_self hP.fp.delta_lt))
  have hcompare : (P.batchCheckRecv v (P.bobBuffer stmts) seed A).isSome ↔
      P.fp.F.addMod (P.fp.F.addMod (P.vectorInnPrdtSumRed (P.chi seed)
        (fun k => (P.bobBuffer stmts).getD k 0) stmts.length) (P.fp.voleVer v.drawn).mac)
        (P.fp.F.multMod A.2 P.fp.delta) = A.1 := by
    rw [batchCheckRecv, ← hlen]
    exact Option.isSome_ite
  rw [hcompare, Accepts, ← htmp.2]
  constructor
  · intro heq
    exact ⟨heq ▸ htmp.1, by rw [heq]⟩
  · rintro ⟨hlt, heq⟩
    exact eq_of_cast_eq htmp.1 hlt heq.symm

/-- **The check of an honest prover.** -/
theorem check_honest_iff (hP : P.Valid) {p v : FpOSTriple} (hdrawn : p.drawn = v.drawn)
    (seed : ℕ) :
    (P.batchCheckRecv v (P.bobBuffer stmts) seed
        (P.batchCheckSend p (P.aliceBuffer stmts) seed).2).isSome ↔
      (P.fp.delta : ZMod PR) ^ 2 * P.batchError seed (values stmts) = 0 := by
  obtain ⟨⟨hU, hUcast⟩, hV, hVcast⟩ := batchCheckSend_cast hstmts hP p seed
  have hword : PR < 2 ^ 64 := by decide
  rw [check_iff hstmts hP v seed (hV.trans hword), hUcast, hVcast, and_iff_right hU, hdrawn,
    accepts_honest_iff, batchTerm_err]

end Batch

end FpPolyConfig

/-! ## The two parties and the plain program -/

namespace FpPolySession

open FpPolyConfig

variable {P : FpPolyConfig} {s : FpPolySession} {p : FpPlain} {k : ℕ} {es : List ℕ}

/-- What a batch has to meet: `Δ ^ 2` times its error is 0. -/
def Passes (P : FpPolyConfig) (k : ℕ) (es : List ℕ) : Prop :=
  (P.fp.delta : ZMod PR) ^ 2 * P.batchError (P.fp.F.mod (P.seed k)) es = 0

instance (k : ℕ) (es : List ℕ) : Decidable (Passes P k es) := inferInstanceAs (Decidable (_ = _))

/-- A check, of the values of its statements. -/
def checkPlain (P : FpPolyConfig) (k : ℕ) (es : List ℕ) : Option ℕ :=
  if Passes P k es then some (k + 1) else none

/-- A program in plain: the values of its statements go through the batches. -/
def stepPlain (P : FpPolyConfig) :
    FpPlain × ℕ × List ℕ → FpPolyOp → Option (FpPlain × ℕ × List ℕ) :=
  Runs.feed FpPolyPlain.step (Batches.push P.bufferSz (checkPlain P))

/-- The invariant of a run: the engines keep theirs, and the buffers hold the statements. -/
structure Inv (P : FpPolyConfig) (s : FpPolySession) (x : FpPlain × ℕ × List ℕ) : Prop where
  /-- The engines. -/
  fp : FpSession.Inv P.fp s.fp x.1
  /-- The checks so far. -/
  checks : s.checks = x.2.1
  /-- The buffers. -/
  stmts : ∃ stmts : List (FpPolyStmt AuthVal), (∀ st ∈ stmts, st.Ok) ∧
    s.alice = P.aliceBuffer stmts ∧ s.bob = P.bobBuffer stmts ∧ values stmts = x.2.2

theorem Inv.init {s : FpSession} (h : FpSession.Inv P.fp s p) : Inv P (init s) (p, 0, []) :=
  ⟨h, rfl, [], by simp [FpPolySession.init, aliceBuffer, bobBuffer, values]⟩

/-- Both buffers are as long as the list of statements. -/
theorem Inv.lengths (h : Inv P s (p, k, es)) :
    s.alice.length = es.length ∧ s.bob.length = es.length := by
  obtain ⟨stmts, -, halice, hbob, rfl : values stmts = es⟩ := h.stmts
  rw [halice, hbob]
  simp [aliceBuffer, bobBuffer, values]

/-- **A draw leaves the engines alone**: it takes a correlation from both. -/
theorem draw {s : FpSession} (h : FpSession.Inv P.fp s p) :
    FpSession.Inv P.fp { s with
      prover := { s.prover with drawn := s.prover.drawn + 1 }
      verifier := { s.verifier with drawn := s.verifier.drawn + 1 } } p :=
  { h with
    drawn := congrArg (· + 1) h.drawn
    slots := ⟨h.slots.done, h.slots.fresh⟩ }

/-- **A check**, by both parties and in plain. -/
theorem Inv.batchCheck (hP : P.Valid) (h : Inv P s (p, k, es)) (hes : es ≠ []) :
    Option.Rel (Inv P) (batchCheck P s) ((checkPlain P k es).map fun k => (p, k, [])) := by
  obtain ⟨stmts, hok, halice, hbob, hvalues⟩ := h.stmts
  obtain ⟨hlenA, hlenB⟩ := h.lengths
  have hnil : ∀ {α : Type} {l : List α}, l.length = es.length → l ≠ [] := by
    rintro α l hl rfl
    exact hes (List.length_eq_zero_iff.mp hl.symm)
  obtain rfl : s.checks = k := h.checks
  obtain ⟨seed, hseed⟩ : ∃ seed, seed = P.fp.F.mod (P.seed s.checks) := ⟨_, rfl⟩
  have hcheck : (P.batchCheckRecv s.fp.verifier (P.bobBuffer stmts) seed
      (P.batchCheckSend s.fp.prover (P.aliceBuffer stmts) seed).2).isSome
        ↔ Passes P s.checks es := by
    rw [check_honest_iff hok hP h.fp.drawn, hvalues, hseed]
    rfl
  have hrun : FpPolySession.batchCheck P s =
      (P.batchCheckRecv s.fp.verifier (P.bobBuffer stmts) seed
        (P.batchCheckSend s.fp.prover (P.aliceBuffer stmts) seed).2).map fun v =>
        { fp := { s.fp with
            prover := { s.fp.prover with drawn := s.fp.prover.drawn + 1 }, verifier := v }
          alice := [], bob := [], checks := s.checks + 1 } := by
    rw [FpPolySession.batchCheck, if_neg fun hboth => hnil hlenA hboth.1,
      if_neg fun hone => hone.elim (hnil hlenA) (hnil hlenB), halice, hbob, hseed]
    rfl
  rw [hrun, checkPlain]
  by_cases hpass : Passes P s.checks es
  · obtain ⟨v, hv⟩ := Option.isSome_iff_exists.mp (hcheck.mpr hpass)
    rw [if_pos hpass, hv]
    simp only [batchCheckRecv, Option.ite_none_right_eq_some, Option.some.injEq] at hv
    rw [← hv.2]
    exact Option.Rel.some ⟨draw h.fp, rfl, [], by simp [aliceBuffer, bobBuffer, values]⟩
  · rw [if_neg hpass, Option.not_isSome_iff_eq_none.mp fun hsome => hpass (hcheck.mp hsome)]
    exact Option.Rel.none

/-- The head of a statement. -/
theorem Inv.room (hP : P.Valid) (h : Inv P s (p, k, es)) :
    Option.Rel (Inv P) (room P s) ((if P.bufferSz ≤ es.length then
      (checkPlain P k es).map fun k => (k, []) else some (k, es)).map fun x => (p, x)) := by
  obtain ⟨hlenA, hlenB⟩ := h.lengths
  rw [FpPolySession.room, hlenA, hlenB]
  by_cases hfull : P.bufferSz ≤ es.length
  · have hes : es ≠ [] := List.ne_nil_of_length_pos (hP.bufferSz_pos.trans_le hfull)
    rw [if_pos ⟨hfull, hfull⟩, if_pos hfull, Option.map_map]
    exact h.batchCheck hP hes
  · rw [if_neg (by tauto), if_neg (by tauto), if_neg hfull]
    exact Option.Rel.some h

/-- A statement over labels: words, and wires of the values that the plain program has. -/
structure StmtOf (delta : ℕ) (st : FpPolyStmt Label) (e : FpPolyStmt ℕ) : Prop where
  /-- The prover's halves. -/
  ok : (st.map Label.prover).Ok
  /-- The verifier's halves are their keys. -/
  verifier : st.map Label.verifier = (st.map Label.prover).map (keyed delta)
  /-- The values. -/
  value : (st.map Label.prover).map AuthVal.val = e

/-- Pairs of labels, as the two parties hold them. -/
theorem pairs_of {delta : ℕ} {l : List (Label × Label)} {xy : List (ℕ × ℕ)}
    (h : List.Forall₂ (fun t x => t.1.Of delta x.1 ∧ t.2.Of delta x.2) l xy) :
    (∀ t ∈ l.map (Prod.map Label.prover Label.prover), t.1.Residues ∧ t.2.Residues) ∧
      l.map (Prod.map Label.verifier Label.verifier)
        = (l.map (Prod.map Label.prover Label.prover)).map
            (Prod.map (keyed delta) (keyed delta)) ∧
      (l.map (Prod.map Label.prover Label.prover)).map (Prod.map AuthVal.val AuthVal.val)
        = xy := by
  have hhalf : ∀ {l : Label} {v : ℕ}, l.Of delta v →
      l.prover.Residues ∧ l.verifier = keyed delta l.prover ∧ l.prover.val = v := fun {l v} hl =>
    ⟨⟨hl.val_eq ▸ hl.val_lt, hl.mac_lt⟩, by rw [keyed, hl.val_eq]; exact hl.key_eq, hl.val_eq⟩
  induction h with
  | nil => simp
  | cons ht _ ih =>
    obtain ⟨hx, hkx, hvx⟩ := hhalf ht.1
    obtain ⟨hy, hky, hvy⟩ := hhalf ht.2
    obtain ⟨hres, hkeys, hvals⟩ := ih
    simp only [List.map_cons, List.forall_mem_cons]
    exact ⟨⟨⟨hx, hy⟩, hres⟩, List.cons_eq_cons.mpr ⟨Prod.ext hkx hky, hkeys⟩,
      List.cons_eq_cons.mpr ⟨Prod.ext hvx hvy, hvals⟩⟩

/-- A statement over looked-up wires. -/
theorem lookup_rel {labels : List ℕ → Option (List Label)} {values : List ℕ → Option (List ℕ)}
    {delta : ℕ} (h : ∀ is, Option.Rel (List.Forall₂ (Label.Of delta)) (labels is) (values is))
    {st : FpPolyStmt ℕ} (hst : st.Words) :
    Option.Rel (StmtOf delta) (st.lookup labels) (st.lookup values) := by
  refine Runs.rel_bind (h _) fun xs us hxs => Runs.rel_map (h _) fun ys vs hys => ?_
  obtain ⟨hres, hkeys, hvals⟩ := pairs_of (Runs.zip_rel hxs hys)
  cases st with
  | polyDeg2 _ coeff =>
    exact ⟨⟨hst, hres⟩, congrArg (FpPolyStmt.polyDeg2 · coeff) hkeys,
      congrArg (FpPolyStmt.polyDeg2 · coeff) hvals⟩
  | innerPrdt _ constant =>
    exact ⟨⟨hst, hres⟩, congrArg (FpPolyStmt.innerPrdt · constant) hkeys,
      congrArg (FpPolyStmt.innerPrdt · constant) hvals⟩

/-- **A statement**, by both parties and in plain. -/
theorem Inv.state (hP : P.Valid) (h : Inv P s (p, k, es)) {st : FpPolyStmt Label}
    {e : FpPolyStmt ℕ} (hst : StmtOf P.fp.delta st e) :
    Option.Rel (Inv P) (state P s st)
      ((Batches.push P.bufferSz (checkPlain P) (k, es) e.value).map fun x => (p, x)) := by
  have hroom := h.room hP
  rw [Batches.push, FpPolySession.state]
  generalize FpPolySession.room P s = out at hroom ⊢
  generalize (if P.bufferSz ≤ es.length then _ else _ : Option (ℕ × List ℕ)) = next at hroom ⊢
  cases next with
  | none =>
    cases hroom
    exact Option.Rel.none
  | some x =>
    rw [Option.map_some] at hroom
    cases hroom with
    | some h' =>
      obtain ⟨stmts, hok, halice, hbob, hvalues⟩ := h'.stmts
      refine Option.Rel.some ⟨h'.fp, h'.checks, stmts ++ [st.map Label.prover], ?_, ?_, ?_, ?_⟩
      · exact List.forall_mem_append.mpr ⟨hok, List.forall_mem_singleton.mpr hst.ok⟩
      · simp [halice, aliceBuffer]
      · simp [hbob, hst.verifier, bobBuffer]
      · rw [values, List.map_append]
        exact congrArg₂ (· ++ ·) hvalues (by simp [hst.value])

/-- **One operation**: the two parties fail exactly when the plain program does or a check does not
pass, and keep the invariant otherwise. -/
theorem step_rel (hP : P.Valid) (op : FpPolyOp) (hop : op.Canonical)
    {x : FpPlain × ℕ × List ℕ} (h : Inv P s x) :
    Option.Rel (Inv P) (step P s op) (stepPlain P x op) := by
  obtain ⟨p, k, es⟩ := x
  cases op with
  | fp op =>
    have hplain : stepPlain P (p, k, es) (.fp op) = (p.step op).map fun p => (p, k, es) := by
      simp [stepPlain, Runs.feed, FpPolyPlain.step, Option.map_eq_bind, Option.bind_assoc]
    rw [hplain]
    exact Runs.rel_map (FpSession.step_rel hP.fp op hop h.fp) fun _ _ h' =>
      ⟨h', h.checks, h.stmts⟩
  | poly st =>
    have hplain : stepPlain P (p, k, es) (.poly st) = (st.lookup p.values).bind fun st =>
        (Batches.push P.bufferSz (checkPlain P) (k, es) st.value).map fun x => (p, x) := by
      simp [stepPlain, Runs.feed, FpPolyPlain.step, Option.map_eq_bind, Option.bind_assoc, Runs.run]
    rw [hplain]
    exact Runs.rel_bind (lookup_rel h.fp.labels hop) fun _ _ hst => h.state hP hst

/-- **The destructors**: the last products pass, and the last statements if their check does. -/
theorem Inv.finish (hP : P.Valid) (h : Inv P s (p, k, es)) :
    (finish P s).isSome ↔ (Batches.close (checkPlain P) (k, es)).isSome := by
  have hbatch : Option.Rel (Inv P) (FpPolySession.batchCheck P s)
      ((Batches.close (checkPlain P) (k, es)).map fun k => (p, k, [])) := by
    rw [Batches.close]
    by_cases hes : es = []
    · subst hes
      obtain ⟨halice, hbob⟩ := h.lengths
      rw [FpPolySession.batchCheck, if_pos ⟨List.length_eq_zero_iff.mp halice,
        List.length_eq_zero_iff.mp hbob⟩, if_pos rfl]
      exact Option.Rel.some h
    · rw [if_neg hes]
      exact h.batchCheck hP hes
  rw [FpPolySession.finish]
  generalize FpPolySession.batchCheck P s = out at hbatch ⊢
  cases hclose : Batches.close (checkPlain P) (k, es) with
  | none =>
    rw [hclose] at hbatch
    cases hbatch
    rfl
  | some k' =>
    rw [hclose, Option.map_some] at hbatch
    cases hbatch with
    | some h' =>
      obtain ⟨s', hs', -⟩ := h'.fp.finish hP.fp
      rw [Option.bind_some, hs']
      rfl

/-- The engine's part of a program in plain. -/
theorem collect_fp {ops : List FpPolyOp} :
    ∀ {p p' : FpPlain} {out es : List ℕ},
      Runs.run (Runs.collect FpPolyPlain.step) (p, out) ops = some (p', es) →
      Runs.run FpPlain.step p (ops.filterMap FpPolyOp.fp?) = some p' := by
  induction ops with
  | nil =>
    intro p p' out es h
    exact congrArg (Option.map Prod.fst) h
  | cons op ops ih =>
    intro p p' out es h
    obtain ⟨x, hx, hrun⟩ := Runs.run_cons_eq_some.mp h
    obtain ⟨y, hy, rfl⟩ := Option.map_eq_some_iff.mp hx
    cases op with
    | fp op =>
      obtain ⟨q, hq, rfl⟩ := Option.map_eq_some_iff.mp hy
      exact (Runs.run_cons_of_step hq _).trans (ih hrun)
    | poly st =>
      obtain ⟨_, _, rfl⟩ := Option.map_eq_some_iff.mp hy
      exact ih hrun

end FpPolySession

namespace FpPolyConfig

/-- The parties' set-up under the key `delta`. -/
def withKey (P : FpPolyConfig) (delta : ℕ) : FpPolyConfig := { P with fp := P.fp.withKey delta }

theorem Valid.withKey {P : FpPolyConfig} (hP : P.Valid) {delta : ℕ} (hdelta : delta < PR) :
    (P.withKey delta).Valid where
  fp := hP.fp.withKey hdelta
  innPrdt := hP.innPrdt
  multMod_word := hP.multMod_word
  bufferSz_pos := hP.bufferSz_pos

end FpPolyConfig

namespace FpPolySession

open FpPolyConfig

variable {P : FpPolyConfig}

/-- What the destructors make of a run. -/
theorem isSome_finish_iff (hP : P.Valid) {res : Option FpPolySession}
    {out : Option (FpPlain × ℕ × List ℕ)} (h : Option.Rel (Inv P) res out) :
    (res.bind (finish P)).isSome ↔ (out.bind fun x => Batches.close (checkPlain P) x.2).isSome := by
  cases h with
  | none => rfl
  | some h' => exact h'.finish hP

/-- **A wrong batch passes under two keys at most**, whatever is sent for it. -/
theorem wrong_batch_card_le_two (hP : P.Valid) (v : FpOSTriple) {stmts : List (FpPolyStmt AuthVal)}
    (hok : ∀ st ∈ stmts, st.Ok) {seed : ℕ} {A : ℕ × ℕ} (hA : A.2 < 2 ^ 64)
    (hne : P.batchError seed (values stmts) ≠ 0) {S : Finset ℕ} (hS : ∀ Δ ∈ S, Δ < PR ∧
      ((P.withKey Δ).batchCheckRecv v ((P.withKey Δ).bobBuffer stmts) seed A).isSome) :
    S.card ≤ 2 := by
  have hacc : ∀ Δ ∈ S, Accepts (P.batchTerm seed stmts) (FpOSTriple.maskShare P.fp v.drawn)
      (Δ : ZMod PR) ((A.1 : ZMod PR), (A.2 : ZMod PR)) := fun Δ hΔ =>
    ((check_iff hok (hP.withKey (hS Δ hΔ).1) v seed hA).mp (hS Δ hΔ).2).2
  have herr : (P.batchTerm seed stmts).err ≠ 0 := by rwa [batchTerm_err]
  exact card_le_two herr (fun Δ hΔ Δ' hΔ' heq =>
    eq_of_cast_eq (hS Δ hΔ).1 (hS Δ' hΔ').1 heq) hacc

/-- **What the proofs of polynomials let through.**

The two parties run a program of products and statements, from any state that keeps the invariant of
the engines: every wire is a label of its value.  Either has any number of workers for its sums.  If
the plain program fails, so do they.  Otherwise it has put out the values of the statements, and
these are checked in batches: every value once and in order, all batches but the last full.  The
parties go through exactly if, for every batch, `Δ ^ 2` times the sum of the values, weighed with
the coefficients of the check, is 0.  Whatever the statements, the checks of products pass, and
wires, reveals and hashes are those of the program without them.

Whatever words are sent to the verifier instead, for a batch and a mask, at most two keys let an
error through. -/
theorem fp_poly_proof_sound (hP : P.Valid) :
    (∀ (s : FpSession) (p : FpPlain), FpSession.Inv P.fp s p →
      ∀ ops : List FpPolyOp, (∀ op ∈ ops, op.Canonical) →
      let run := Runs.run (step P) (init s) ops
      match Runs.run (Runs.collect FpPolyPlain.step) (p, []) ops with
      | none => run = none
      | some (p', es) =>
        let batches := Batches.cut P.bufferSz [] es
        (batches.flatten = es ∧ (∀ b ∈ batches, b ≠ [] ∧ b.length ≤ P.bufferSz) ∧
          ∀ b ∈ batches.dropLast, b.length = P.bufferSz) ∧
        ((run.bind (finish P)).isSome ↔ ∀ k b, batches[k]? = some b →
          (P.fp.delta : ZMod PR) ^ 2 * P.batchError (P.fp.F.mod (P.seed k)) b = 0) ∧
        Runs.run FpPlain.step p (ops.filterMap FpPolyOp.fp?) = some p' ∧
        ∀ s', run = some s' → (FpSession.finish P.fp s'.fp).isSome ∧
          List.Forall₂ (Label.Of P.fp.delta) s'.fp.wires p'.vals ∧
          s'.fp.outPrv = p'.outs ∧ s'.fp.outVer = p'.outs ∧
          (s'.fp.prover.hashed = s'.fp.verifier.hashed
            ↔ (∀ z ∈ p'.zeros, z = 0) ∨ P.fp.delta = 0)) ∧
    ∀ (v : FpOSTriple) (stmts : List (FpPolyStmt AuthVal)), (∀ st ∈ stmts, st.Ok) →
      ∀ (seed : ℕ) (A : ℕ × ℕ), A.2 < 2 ^ 64 → P.batchError seed (values stmts) ≠ 0 →
      ∀ S : Finset ℕ, (∀ Δ ∈ S, Δ < PR ∧
        ((P.withKey Δ).batchCheckRecv v ((P.withKey Δ).bobBuffer stmts) seed A).isSome) →
      S.card ≤ 2 := by
  constructor
  · intro s p h ops hops run
    have hrel : Option.Rel (Inv P) run (Runs.run (stepPlain P) (p, 0, []) ops) :=
      Runs.run_rel (fun s x op hop h => step_rel hP op hop h) hops (Inv.init h)
    rw [stepPlain, Runs.run_feed] at hrel
    cases hplain : Runs.run (Runs.collect FpPolyPlain.step) (p, []) ops with
    | none =>
      rw [hplain, Option.bind_none] at hrel
      cases hrun : run with
      | none => rfl
      | some s' => rw [hrun] at hrel; cases hrel
    | some x =>
      obtain ⟨p', es⟩ := x
      rw [hplain, Option.bind_some] at hrel
      have hnil : ([] : List ℕ).length ≤ P.bufferSz := Nat.zero_le _
      obtain ⟨hsizes, hfull⟩ :=
        Batches.cut_spec P.bufferSz hP.bufferSz_pos hnil es
      refine ⟨⟨Batches.cut_flatten _ _ _, hsizes, hfull⟩, ?_, collect_fp hplain, fun s' hs' => ?_⟩
      · have hchecks : (Runs.run (Batches.push P.bufferSz (checkPlain P)) (0, []) es).bind
            (Batches.close (checkPlain P))
              = Runs.run (checkPlain P) 0 (Batches.cut P.bufferSz [] es) :=
          Batches.run_close 0 [] es
        rw [isSome_finish_iff hP hrel, Option.bind_map]
        refine (iff_of_eq (congrArg (fun o : Option ℕ => o.isSome = true) hchecks)).trans
          ((Runs.run_counted 0 _).trans ?_)
        simp only [Nat.zero_add, Passes]
      · rw [hs'] at hrel
        generalize Runs.run (Batches.push P.bufferSz (checkPlain P)) (0, []) es = out at hrel
        cases out with
        | none => cases hrel
        | some x => cases hrel with
          | some h' =>
            obtain ⟨s'', hs'', -⟩ := h'.fp.finish hP.fp
            exact ⟨by rw [hs'']; rfl, h'.fp.wires, h'.fp.outPrv, h'.fp.outVer, h'.fp.flush⟩
  · exact fun v stmts hok seed A hA hne S hS => wrong_batch_card_le_two hP v hok hA hne hS

/-- Buffers of two entries, two workers against three. -/
def small : FpPolyConfig where
  fp := FpSession.small
  bufferSz := 2
  kParMin := 2
  threadsPrv := 2
  threadsVer := 3
  vectorInnPrdtSumRed a b n := (∑ i ∈ range n, a i * b i) % PR
  seed k := k

theorem small_valid : small.Valid where
  fp := FpSession.small_valid
  innPrdt _ _ _ _ _ := rfl
  multMod_word _ _ _ _ := rfl
  bufferSz_pos := by decide

/-- Right statements of both forms, between products. -/
def rightOps : List FpPolyOp :=
  [.fp (.feed [3, 4]), .poly (.innerPrdt [(0, 1), (1, 1)] (PR - 28)), .fp (.mul 0 1),
    .poly (.polyDeg2 [(0, 1)] fun i => if i = 0 then PR - 24 else 2),
    .fp (.mulVec [(2, 2), (2, 0)]), .poly (.innerPrdt [(0, 1)] (PR - 12))]

/-- They go through in two batches; a wrong product of two wires does under two keys at most. -/
theorem fp_poly_proof_sound_mixed :
    ((Runs.run (step small) (init (FpSession.init FpSession.small)) rightOps).bind
      (finish small)).isSome ∧
    ∀ A : ℕ × ℕ, A.2 < 2 ^ 64 → ∀ S : Finset ℕ,
      (∀ Δ ∈ S, Δ < PR ∧ ((small.withKey Δ).batchCheckRecv FpOSTriple.offByOne
        ((small.withKey Δ).bobBuffer [.innerPrdt [(⟨3, 7⟩, ⟨4, 8⟩)] 0]) 7 A).isSome) →
      S.card ≤ 2 := by
  obtain ⟨hrun, hany⟩ := fp_poly_proof_sound small_valid
  constructor
  · have hops : ∀ op ∈ rightOps, op.Canonical := by
      simp only [rightOps, List.forall_mem_cons, FpPolyOp.Canonical, FpOp.Canonical,
        FpPolyStmt.Words, List.not_mem_nil, false_implies, implies_true, and_true, true_and]
      refine ⟨by decide +kernel, by decide +kernel, fun i => ?_, by decide +kernel⟩
      split <;> decide +kernel
    obtain ⟨p', es, hplain, hes⟩ : ∃ p' es, Runs.run (Runs.collect FpPolyPlain.step)
        (FpPlain.init, []) rightOps = some (p', es) ∧ ∀ e ∈ es, e % PR = 0 :=
      ⟨_, _, rfl, by decide +kernel⟩
    have h := hrun _ _ (FpSession.Inv.init FpSession.small_valid) rightOps hops
    rw [hplain] at h
    refine h.2.1.mpr fun k b hb => ?_
    have hzero : ∀ j, ((b.getD j 0 : ℕ) : ZMod PR) = 0 := fun j => by
      rw [List.getD_eq_getElem?_getD]
      cases hj : b[j]? with
      | none => exact Nat.cast_zero
      | some e =>
        have hmem : e ∈ (Batches.cut small.bufferSz [] es).flatten :=
          List.mem_flatten.mpr ⟨b, List.mem_of_getElem? hb, List.mem_of_getElem? hj⟩
        rw [h.1.1] at hmem
        exact (ZMod.natCast_eq_zero_iff e PR).mpr (Nat.dvd_of_mod_eq_zero (hes e hmem))
    rw [batchError, sum_eq_zero fun j _ => by rw [hzero, mul_zero], mul_zero]
  · have hok : ∀ st ∈ [FpPolyStmt.innerPrdt [((⟨3, 7⟩ : AuthVal), (⟨4, 8⟩ : AuthVal))] 0],
        st.Ok := by
      have hlt : ∀ n, n < 9 → n < PR := fun n hn => hn.trans (by decide +kernel)
      refine List.forall_mem_singleton.mpr ⟨(by decide : 0 < 2 ^ 64), ?_⟩
      exact List.forall_mem_singleton.mpr
        ⟨⟨hlt 3 (by decide), hlt 7 (by decide)⟩, hlt 4 (by decide), hlt 8 (by decide)⟩
    refine fun A hA S => hany FpOSTriple.offByOne _ hok 7 A hA ?_ S
    rw [batchError, values, List.length_map, List.length_singleton, sum_range_one, ← Nat.cast_mul,
      ne_eq, ZMod.natCast_eq_zero_iff]
    decide +kernel

end FpPolySession

end VoleZk
