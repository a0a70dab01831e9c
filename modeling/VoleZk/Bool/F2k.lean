import VoleZk.Bool.Complete
import VoleZk.Lib.Gf2kField

/-!
# Authenticated field elements

A wire may carry a whole element of the field of `2 ^ 128` elements: the prover holds the value and
a MAC, the verifier a key, and the MAC is the key plus the value times `Δ`.  Linear operations are
local.  A product takes a correlation of the field VOLE, or, for many factors at once, a MAC packed
from 128 authenticated bits and a row of coefficients: the product of the keys is a polynomial in
`Δ`, whose coefficients the prover knows.  Rows are checked in batches.  Products by `f2k_mul` have
a batch check of their own, which belongs to the engine and is not part of this file.

## What is here

* `F2kLabel.Holds` — the two halves of a wire, and the linear operations;
* `F2kSession.f2kMul`, `F2kSession.f2kPackV` — a product, and a MAC for a value;
* `RamPolyPrdt.polyPrdtN`, `RamPolyPrdt.Row.Ok` — a row, and **the coefficients of a product**;
* `F2kSession.batchCheck_ok` — honest rows pass;
* `F2kSession.mulPoly` — a product of many factors.
-/

set_option autoImplicit false

open Finset

namespace VoleZk

/-! ## The field -/

/-- The inverse of `X ^ (2 ^ 64) - X`. -/
def gfInv : Block := 0x9e4af928ddbc838a41a8cafd2c95b018

/-- `X ^ (2 ^ 64)`. -/
def gfHalf : Block := 0x61651fea6b5832b944e598a795a299f6

/-- **The modulus is irreducible.** -/
theorem gf_irreducible : Irreducible (Gf2k.modulus gfLow) := by
  have hhalf : Gf2k.sqIter gfLow 64 (BitVec.twoPow 128 1) = gfHalf := by decide +kernel
  have hback : Gf2k.sqIter gfLow 64 gfHalf = BitVec.twoPow 128 1 := by decide +kernel
  have hround : Gf2k.sqIter gfLow (64 + 64) (BitVec.twoPow 128 1) = BitVec.twoPow 128 1 := by
    rw [Gf2k.sqIter_add, hhalf, hback]
  have hinv : Gf2k.horner gfLow gfInv (gfHalf ^^^ BitVec.twoPow 128 1) 128 0
      = BitVec.twoPow 128 0 := by decide +kernel
  rw [← hhalf] at hinv
  exact Gf2k.irreducible_of_sqIter (k := 6) rfl hround hinv

instance : Fact (Irreducible (Gf2k.modulus gfLow)) := ⟨gf_irreducible⟩

instance : IsDomain (AdjoinRoot (Gf2k.modulus gfLow)) := inferInstance

/-! ## Wires -/

/-- `AuthValueF2k`, one party's half of a wire. -/
structure AuthValueF2k where
  /-- The value on the prover's side; 0 on the verifier's. -/
  val : Block
  /-- The MAC on the prover's side, the key on the verifier's. -/
  mac : Block
  deriving DecidableEq

/-- A wire as the two parties hold it. -/
structure F2kLabel where
  /-- The prover's half. -/
  prover : AuthValueF2k
  /-- The verifier's half. -/
  verifier : AuthValueF2k

/-- A wire of value `x`. -/
structure F2kLabel.Holds (C : BoolConfig) (w : F2kLabel) (x : Block) : Prop where
  /-- The prover holds the value. -/
  val_eq : w.prover.val = x
  /-- The verifier's value lane is empty. -/
  key_val : w.verifier.val = 0
  /-- The MAC relation. -/
  mac_eq : w.prover.mac = w.verifier.mac ^^^ C.G.gfmul x C.delta

namespace BoolConfig

variable (C : BoolConfig)

/-- `f2k_wire`, both parties. -/
def f2kWire (valPrv macPrv macVer : Block) : F2kLabel := ⟨⟨valPrv, macPrv⟩, ⟨0, macVer⟩⟩

/-- `f2k_mul_const`, on one half. -/
def scaleHalf (a : AuthValueF2k) (c : Block) : AuthValueF2k :=
  ⟨C.G.gfmul c a.val, C.G.gfmul c a.mac⟩

/-- `f2k_mul_const`, both parties. -/
def f2kMulConst (a : F2kLabel) (c : Block) : F2kLabel :=
  ⟨C.scaleHalf a.prover c, C.scaleHalf a.verifier c⟩

/-- `f2k_add`, both parties. -/
def f2kAdd (a b : F2kLabel) : F2kLabel where
  prover := ⟨a.prover.val ^^^ b.prover.val, a.prover.mac ^^^ b.prover.mac⟩
  verifier := ⟨a.verifier.val ^^^ b.verifier.val, a.verifier.mac ^^^ b.verifier.mac⟩

/-- `f2k_add_const`: the prover adds to the value, the verifier `Δ` times as much to the key. -/
def f2kAddConst (a : F2kLabel) (c : Block) : F2kLabel where
  prover := ⟨a.prover.val ^^^ c, a.prover.mac⟩
  verifier := ⟨0, a.verifier.mac ^^^ C.G.gfmul C.delta c⟩

end BoolConfig

section Linear

variable {R : Type*} [CommRing R] {C : BoolConfig} {φ : Block → R} (hG : C.G.Lawful φ)
include hG

theorem GfOps.Lawful.add_self (x : R) : x + x = 0 := by
  rw [← two_mul, hG.two_eq_zero, zero_mul]

theorem F2kLabel.Holds.map_mac {w : F2kLabel} {x : Block} (h : w.Holds C x) :
    φ w.prover.mac = φ w.verifier.mac + φ x * φ C.delta := by
  rw [h.mac_eq, hG.xor, hG.gfmul]

/-- A wire, from the MAC relation in the ring. -/
theorem F2kLabel.Holds.of_map {w : F2kLabel} {x : Block} (hval : w.prover.val = x)
    (hkey : w.verifier.val = 0)
    (h : φ w.prover.mac = φ w.verifier.mac + φ x * φ C.delta) : w.Holds C x where
  val_eq := hval
  key_val := hkey
  mac_eq := hG.injective (by rw [h, hG.xor, hG.gfmul])

theorem F2kLabel.Holds.f2kMulConst {w : F2kLabel} {x : Block} (h : w.Holds C x) (c : Block) :
    (C.f2kMulConst w c).Holds C (C.G.gfmul c x) := by
  refine .of_map hG (congrArg _ h.val_eq) ?_ ?_
  · refine hG.injective ?_
    show φ (C.G.gfmul c w.verifier.val) = φ 0
    rw [h.key_val, hG.gfmul, Gf2k.map_zero hG.xor, mul_zero]
  · rw [BoolConfig.f2kMulConst, BoolConfig.scaleHalf, BoolConfig.scaleHalf, hG.gfmul, hG.gfmul,
      hG.gfmul, h.map_mac hG]
    ring

theorem F2kLabel.Holds.f2kAdd {w w' : F2kLabel} {x x' : Block} (h : w.Holds C x)
    (h' : w'.Holds C x') : (BoolConfig.f2kAdd w w').Holds C (x ^^^ x') := by
  refine .of_map hG ?_ ?_ ?_
  · rw [BoolConfig.f2kAdd, h.val_eq, h'.val_eq]
  · show w.verifier.val ^^^ w'.verifier.val = 0
    rw [h.key_val, h'.key_val]
    exact BitVec.xor_self
  · rw [BoolConfig.f2kAdd, hG.xor, hG.xor, hG.xor, h.map_mac hG, h'.map_mac hG]
    ring

theorem F2kLabel.Holds.f2kAddConst {w : F2kLabel} {x : Block} (h : w.Holds C x) (c : Block) :
    (C.f2kAddConst w c).Holds C (x ^^^ c) := by
  refine .of_map hG ?_ rfl ?_
  · rw [BoolConfig.f2kAddConst, h.val_eq]
  · rw [BoolConfig.f2kAddConst, hG.xor, hG.xor, hG.gfmul, h.map_mac hG]
    linear_combination -(hG.add_self (φ C.delta * φ c))

end Linear

/-! ## The engine -/

/-- What the two parties set up, beyond the Boolean engine. -/
structure F2kConfig where
  /-- The Boolean engine. -/
  bool : BoolConfig
  /-- The correlations of the field VOLE, in the order they are drawn. -/
  vole : ℕ → F2kLabel
  /-- `buffer_sz`, the rows checked together. -/
  bufferSz : ℕ
  /-- The coefficients of `uni_hash_coeff_gen` in each batch check. -/
  chi : ℕ → ℕ → Block

/-- The correlations are correlated. -/
structure F2kConfig.Valid (C : F2kConfig) : Prop where
  /-- Those of the Boolean engine. -/
  bool : C.bool.Valid
  /-- Those of the field VOLE. -/
  vole : ∀ k, (C.vole k).prover.mac
    = (C.vole k).verifier.mac ^^^ C.bool.G.gfmul (C.vole k).prover.val C.bool.delta

/-- An entry of the buffers of `RamPolyPrdt`. -/
structure PolyRow where
  /-- The prover's coefficients of `Δ ^ 0` to `Δ ^ 4`. -/
  coeff : ℕ → Block
  /-- The verifier's value of the polynomial. -/
  atDelta : Block

/-- The two parties' engines and the buffers of the product proof. -/
structure F2kSession where
  /-- The prover's Boolean engine. -/
  prover : ZKBool
  /-- The verifier's Boolean engine. -/
  verifier : ZKBool
  /-- The correlations of the field VOLE drawn so far. -/
  voles : ℕ
  /-- The rows that wait for a batch check. -/
  rows : List PolyRow
  /-- The batch checks so far. -/
  checks : ℕ

namespace BoolConfig

variable (C : BoolConfig)

/-- `f2k_mul_v` of the prover: the product of the values. -/
def f2kMulV : List Block → Block
  | [] => 0
  | v :: vs => vs.foldl (fun v x => C.G.gfmul x v) v

/-- `delta[k]`, the power `k + 1` of the key. -/
def deltaPow : ℕ → Block
  | 0 => C.delta
  | k + 1 => C.G.gfmul (deltaPow k) C.delta

/-- The product of the first two factors. -/
def polyInit (a b : AuthValueF2k) : ℕ → Block
  | 0 => C.G.gfmul a.mac b.mac
  | 1 => C.G.gfmul a.mac b.val ^^^ C.G.gfmul a.val b.mac
  | 2 => C.G.gfmul a.val b.val
  | _ => 0

/-- One factor more: factor `i`, up to coefficient `top`. -/
def polyStep (top i : ℕ) (poly : ℕ → Block) (a : AuthValueF2k) (j : ℕ) : Block :=
  if j ≤ top then
    (if j ≤ i then C.G.gfmul (poly j) a.mac else 0)
      ^^^ (if 1 ≤ j then C.G.gfmul (poly (j - 1)) a.val else 0)
  else poly j

/-- The factors from `i` on, of `n`.  The last one leaves the top coefficient out. -/
def polyLoop (n : ℕ) : ℕ → (ℕ → Block) → List AuthValueF2k → ℕ → Block
  | _, poly, [] => poly
  | i, poly, a :: as =>
    polyLoop n (i + 1) (C.polyStep (if i = n - 1 then n - 1 else i + 1) i poly a) as

/-- `polyPrdtN`: the row of a product of two factors and more, whose MAC is `mLast`. -/
def polyPrdtN (a b : F2kLabel) (rest : List F2kLabel) (mLast : Block × Block) : PolyRow :=
  let n := rest.length + 2
  let poly := C.polyLoop n 2 (C.polyInit a.prover b.prover) (rest.map F2kLabel.prover)
  { coeff := fun j => if j < n - 1 then poly j else if j = n - 1 then poly j ^^^ mLast.1 else 0
    atDelta := (rest.map F2kLabel.verifier).foldl (fun prod k => C.G.gfmul prod k.mac)
        (C.G.gfmul a.verifier.mac b.verifier.mac)
      ^^^ C.G.gfmul mLast.2 (C.deltaPow (n - 2)) }

/-- `vector_inn_prdt_sum_red`. -/
def vectorInnPrdtSumRed (n : ℕ) (chi term : ℕ → Block) : Block :=
  let p := C.G.innPrdtSumNoRed n chi term
  C.G.reduce p.1 p.2

end BoolConfig

namespace F2kSession

variable (C : F2kConfig)

/-- `f2k_mul`, without the recording of the triple and the check of a full buffer, which
`F2kExec` models: an honest product is checked there, and the labels do not depend on it. -/
def f2kMul (s : F2kSession) (a b : F2kLabel) : F2kSession × F2kLabel :=
  let r := C.vole s.voles
  let valc := C.bool.G.gfmul a.prover.val b.prover.val
  let d := valc ^^^ r.prover.val
  ({ s with voles := s.voles + 1 },
    ⟨⟨valc, r.prover.mac⟩, ⟨0, r.verifier.mac ^^^ C.bool.G.gfmul d C.bool.delta⟩⟩)

/-- `authenticated_input_bits_zero_extend`, 65 bits of a word of 64. -/
def inputZeroExtend (s : F2kSession) (value : ℕ → Bool) : F2kSession × List Block × List Block :=
  let bits := (List.range 65).map fun i => if i < 64 then value i else false
  let (p, Ms, mask) := ZKBool.authenticatedBitsInputSend C.bool s.prover bits
  let (v, Ks) := ZKBool.authenticatedBitsInputRecv C.bool s.verifier mask
  ({ s with prover := p, verifier := v }, Ms, Ks)

/-- `packbuf`: 64 blocks of each limb. -/
def packbuf (low high : List Block) (i : ℕ) : Block :=
  if i < 64 then low.getD i 0 else high.getD (i - 64) 0

/-- `f2k_pack_v`: a MAC and a key for the value `v` of the prover. -/
def f2kPackV (s : F2kSession) (v : Block) : F2kSession × Block × Block :=
  let (s, lowMs, lowKs) := s.inputZeroExtend C v.getLsbD
  let (s, highMs, highKs) := s.inputZeroExtend C fun i => v.getLsbD (64 + i)
  (s, C.bool.G.packing (packbuf lowMs highMs), C.bool.G.packing (packbuf lowKs highKs))

/-- The entries of a column of the rows. -/
def column (rows : List PolyRow) (f : PolyRow → Block) (k : ℕ) : Block := (rows.map f).getD k 0

/-- `batch_check`: the rows are combined, and the prover's polynomial is compared at `Δ`. -/
def batchCheck (s : F2kSession) : Option F2kSession :=
  if s.rows = [] then some s
  else
    let chi := C.chi s.checks
    let sum := fun f => C.bool.vectorInnPrdtSumRed s.rows.length chi (column s.rows f)
    let checkSum := fun i => sum fun row => row.coeff i
    let t := fun i => C.bool.G.gfmul (checkSum (i + 1)) (C.bool.deltaPow i)
    if sum PolyRow.atDelta = checkSum 0 ^^^ (t 0 ^^^ t 1 ^^^ t 2 ^^^ t 3) then
      some { s with rows := [], checks := s.checks + 1 }
    else none

/-- `mul_poly_`: the product of many factors.  A full buffer is checked first. -/
def mulPoly (s : F2kSession) (a b : F2kLabel) (rest : List F2kLabel) :
    Option (F2kSession × F2kLabel) :=
  let v := C.bool.f2kMulV ((a :: b :: rest).map fun w => w.prover.val)
  let (s, m) := s.f2kPackV C v
  (if C.bufferSz ≤ s.rows.length then s.batchCheck C else some s).map fun s =>
    ({ s with rows := s.rows ++ [C.bool.polyPrdtN a b rest m] }, ⟨⟨v, m.1⟩, ⟨0, m.2⟩⟩)

end F2kSession

/-! ## The polynomial of a product -/

section Poly

variable {R : Type*} [CommRing R] {C : BoolConfig} {φ : Block → R} (hG : C.G.Lawful φ)
include hG

theorem map_f2kMulV (x : Block) (xs : List Block) :
    φ (C.f2kMulV (x :: xs)) = φ x * (xs.map φ).prod := by
  rw [BoolConfig.f2kMulV]
  induction xs generalizing x with
  | nil => rw [List.foldl_nil, List.map_nil, List.prod_nil, mul_one]
  | cons y xs ih =>
    rw [List.foldl_cons, ih, hG.gfmul, List.map_cons, List.prod_cons]
    ring

theorem map_deltaPow (k : ℕ) : φ (C.deltaPow k) = φ C.delta ^ (k + 1) := by
  induction k with
  | zero => rw [BoolConfig.deltaPow, zero_add, pow_one]
  | succ k ih => rw [BoolConfig.deltaPow, hG.gfmul, ih, ← pow_succ]

/-- The value at `Δ` of one party's half: MAC and value make up the key. -/
theorem F2kLabel.Holds.map_key {w : F2kLabel} {x : Block} (h : w.Holds C x) :
    φ w.prover.mac + φ w.prover.val * φ C.delta = φ w.verifier.mac := by
  rw [h.map_mac hG, h.val_eq, add_assoc, hG.add_self, add_zero]

theorem sum_polyInit (a b : AuthValueF2k) (D : R) :
    ∑ j ∈ range 3, φ (C.polyInit a b j) * D ^ j
      = (φ a.mac + φ a.val * D) * (φ b.mac + φ b.val * D) := by
  simp only [sum_range_succ, sum_range_zero, BoolConfig.polyInit, hG.xor, hG.gfmul]
  ring

/-- **One factor more.**  The coefficients up to `i + 1` are those of the product. -/
theorem sum_polyStep (i : ℕ) (poly : ℕ → Block) (a : AuthValueF2k) (D : R) :
    ∑ j ∈ range (i + 2), φ (C.polyStep (i + 1) i poly a j) * D ^ j
      = (φ a.mac + φ a.val * D) * ∑ j ∈ range (i + 1), φ (poly j) * D ^ j := by
  have hterm : ∀ j ∈ range (i + 2), φ (C.polyStep (i + 1) i poly a j) * D ^ j
      = (if j ≤ i then φ (poly j) * φ a.mac * D ^ j else 0)
        + (if 1 ≤ j then φ (poly (j - 1)) * φ a.val * D ^ j else 0) := by
    intro j hj
    rw [BoolConfig.polyStep, if_pos (Nat.lt_succ_iff.mp (mem_range.mp hj)), hG.xor, add_mul]
    congr 1
    · split
      · rw [hG.gfmul]
      · rw [Gf2k.map_zero hG.xor, zero_mul]
    · split
      · rw [hG.gfmul]
      · rw [Gf2k.map_zero hG.xor, zero_mul]
  have hlow : ∀ j ∈ range (i + 1), (if j ≤ i then φ (poly j) * φ a.mac * D ^ j else 0)
      = φ a.mac * (φ (poly j) * D ^ j) := by
    intro j hj
    rw [if_pos (Nat.lt_succ_iff.mp (mem_range.mp hj))]
    ring
  have hhigh : ∀ j ∈ range (i + 1), (if 1 ≤ j + 1 then φ (poly (j + 1 - 1)) * φ a.val * D ^ (j + 1)
      else 0) = φ a.val * D * (φ (poly j) * D ^ j) := by
    intro j _
    rw [if_pos (Nat.le_add_left 1 j), Nat.add_sub_cancel]
    ring
  rw [sum_congr rfl hterm, sum_add_distrib, sum_range_succ, sum_congr rfl hlow,
    if_neg (Nat.not_succ_le_self i), sum_range_succ' (fun j => if 1 ≤ j then _ else _),
    sum_congr rfl hhigh, if_neg (by decide), ← mul_sum, ← mul_sum]
  ring

theorem polyStep_top (i : ℕ) (poly : ℕ → Block) (a : AuthValueF2k) :
    φ (C.polyStep (i + 1) i poly a (i + 1)) = φ (poly i) * φ a.val := by
  rw [BoolConfig.polyStep, if_pos le_rfl, if_neg (Nat.not_succ_le_self i),
    if_pos (Nat.le_add_left 1 i), hG.xor, Gf2k.map_zero hG.xor, zero_add, hG.gfmul,
    Nat.add_sub_cancel]

/-- The last factor, whose top coefficient is left out. -/
theorem sum_polyStep_last (i : ℕ) (poly : ℕ → Block) (a : AuthValueF2k) (D : R) :
    ∑ j ∈ range (i + 1), φ (C.polyStep i i poly a j) * D ^ j + φ (poly i) * φ a.val * D ^ (i + 1)
      = (φ a.mac + φ a.val * D) * ∑ j ∈ range (i + 1), φ (poly j) * D ^ j := by
  have hsame : ∀ j ∈ range (i + 1), φ (C.polyStep i i poly a j) * D ^ j
      = φ (C.polyStep (i + 1) i poly a j) * D ^ j := by
    intro j hj
    have hji := Nat.lt_succ_iff.mp (mem_range.mp hj)
    rw [BoolConfig.polyStep, BoolConfig.polyStep, if_pos hji, if_pos (Nat.le_succ_of_le hji)]
  rw [← sum_polyStep hG, sum_range_succ _ (i + 1), polyStep_top hG, sum_congr rfl hsame]

/-- **The coefficients of the product**: all of them but the top one, which is the product of the
values. -/
theorem sum_polyLoop {n : ℕ} (D : R) : ∀ {as : List AuthValueF2k} {i : ℕ} (poly : ℕ → Block),
    as ≠ [] → i + as.length = n →
      ∑ j ∈ range n, φ (C.polyLoop n i poly as j) * D ^ j
          + φ (poly i) * (as.map fun a => φ a.val).prod * D ^ n
        = (∑ j ∈ range (i + 1), φ (poly j) * D ^ j)
          * (as.map fun a => φ a.mac + φ a.val * D).prod
  | [], _, _, h, _ => absurd rfl h
  | [a], i, poly, _, hn => by
    obtain rfl : i + 1 = n := hn
    rw [BoolConfig.polyLoop, BoolConfig.polyLoop, if_pos (Nat.add_sub_cancel i 1).symm,
      Nat.add_sub_cancel]
    simp only [List.map_cons, List.map_nil, List.prod_cons, List.prod_nil, mul_one]
    rw [sum_polyStep_last hG, mul_comm]
  | a :: b :: as, i, poly, _, hn => by
    have hlen : i + 1 + (b :: as).length = n := by
      rw [← hn, List.length_cons, List.length_cons, List.length_cons]
      omega
    have hne : i ≠ n - 1 := by
      rw [List.length_cons] at hlen
      omega
    have ih := sum_polyLoop D (i := i + 1) (C.polyStep (i + 1) i poly a) (List.cons_ne_nil b as)
      hlen
    rw [BoolConfig.polyLoop, if_neg hne]
    rw [sum_polyStep hG, polyStep_top hG] at ih
    simp only [List.map_cons, List.prod_cons] at ih ⊢
    linear_combination ih

/-- A row whose coefficients are those of its polynomial. -/
def PolyRow.Ok (C : BoolConfig) (φ : Block → R) (row : PolyRow) : Prop :=
  ∑ j ∈ range 5, φ (row.coeff j) * φ C.delta ^ j = φ row.atDelta

theorem map_foldl_key (ws : List F2kLabel) (k : Block) :
    φ ((ws.map F2kLabel.verifier).foldl (fun prod k => C.G.gfmul prod k.mac) k)
      = φ k * (ws.map fun w => φ w.verifier.mac).prod := by
  induction ws generalizing k with
  | nil => simp
  | cons w ws ih =>
    rw [List.map_cons, List.foldl_cons, ih, hG.gfmul, List.map_cons, List.prod_cons, mul_assoc]

/-- What the factors contribute: their values, and their keys. -/
theorem F2kLabel.Holds.prod_map {ws : List F2kLabel} {xs : List Block}
    (h : List.Forall₂ (F2kLabel.Holds C) ws xs) :
    ((ws.map F2kLabel.prover).map fun a => φ a.val).prod = (xs.map φ).prod ∧
      ((ws.map F2kLabel.prover).map fun a => φ a.mac + φ a.val * φ C.delta).prod
        = (ws.map fun w => φ w.verifier.mac).prod := by
  induction h with
  | nil => exact ⟨rfl, rfl⟩
  | cons hw _ ih =>
    obtain ⟨hval, hkey⟩ := ih
    simp only [List.map_cons, List.prod_cons]
    rw [hval, hkey, hw.map_key hG, hw.val_eq]
    exact ⟨rfl, rfl⟩

/-- The coefficients as they are stored: the MAC goes on top of the last one, and the rest of the
buffers is zero. -/
theorem sum_coeff {n : ℕ} (hn : 1 ≤ n) (hn5 : n ≤ 5) (poly : ℕ → Block) (m : Block) (D : R) :
    ∑ j ∈ range 5, φ (if j < n - 1 then poly j else if j = n - 1 then poly j ^^^ m else 0) * D ^ j
      = ∑ j ∈ range n, φ (poly j) * D ^ j + φ m * D ^ (n - 1) := by
  have hzero : ∀ j ∈ range 5, j ∉ range n →
      φ (if j < n - 1 then poly j else if j = n - 1 then poly j ^^^ m else 0) * D ^ j = 0 := by
    intro j _ hj
    have hj' : n ≤ j := not_lt.mp fun h => hj (mem_range.mpr h)
    rw [if_neg (by omega), if_neg (by omega), Gf2k.map_zero hG.xor, zero_mul]
  obtain ⟨k, rfl⟩ : ∃ k, n = k + 1 := ⟨n - 1, by omega⟩
  have hlow : ∀ j ∈ range k,
      φ (if j < k + 1 - 1 then poly j else if j = k + 1 - 1 then poly j ^^^ m else 0) * D ^ j
        = φ (poly j) * D ^ j := by
    intro j hj
    rw [Nat.add_sub_cancel, if_pos (mem_range.mp hj)]
  rw [← sum_subset (range_subset_range.mpr hn5) hzero, sum_range_succ, sum_congr rfl hlow,
    Nat.add_sub_cancel, if_neg (lt_irrefl k), if_pos rfl, hG.xor, sum_range_succ]
  ring

/-- **The row of a product**: the prover's coefficients are those of the verifier's polynomial, if
the MAC is one of the product. -/
theorem polyPrdtN_ok {a b : F2kLabel} {rest : List F2kLabel} {x y : Block} {xs : List Block}
    (ha : a.Holds C x) (hb : b.Holds C y) (hrest : List.Forall₂ (F2kLabel.Holds C) rest xs)
    (hne : rest ≠ []) (hle : rest.length ≤ 3) {m : Block × Block}
    (hm : φ m.1 = φ m.2 + φ x * φ y * (xs.map φ).prod * φ C.delta) :
    (C.polyPrdtN a b rest m).Ok C φ := by
  have hne' : rest.map F2kLabel.prover ≠ [] := fun h => hne (List.map_eq_nil_iff.mp h)
  have hlen : 2 + (rest.map F2kLabel.prover).length = rest.length + 2 := by
    rw [List.length_map, Nat.add_comm]
  have hpoly := sum_polyLoop hG (φ C.delta) (C.polyInit a.prover b.prover) hne' hlen
  obtain ⟨hval, hkey⟩ := F2kLabel.Holds.prod_map hG hrest
  rw [sum_polyInit hG, hval, hkey, ha.map_key hG, hb.map_key hG, BoolConfig.polyInit, hG.gfmul,
    ha.val_eq, hb.val_eq] at hpoly
  have hpow : φ C.delta ^ (rest.length + 2 - 2 + 1) = φ C.delta ^ (rest.length + 2 - 1) := rfl
  rw [PolyRow.Ok, BoolConfig.polyPrdtN]
  simp only []
  rw [sum_coeff hG (Nat.le_add_left 1 _) (Nat.add_le_add_right hle 2), hG.xor, map_foldl_key hG,
    hG.gfmul, hG.gfmul, map_deltaPow hG, hpow, hm]
  have hsplit : φ C.delta ^ (rest.length + 2) = φ C.delta * φ C.delta ^ (rest.length + 2 - 1) :=
    pow_succ' _ _
  rw [hsplit] at hpoly
  linear_combination hpoly

end Poly

/-! ## Honest runs -/

namespace F2kSession

variable {R : Type*} [CommRing R] {C : F2kConfig} {φ : Block → R}

/-- What holds between two operations. -/
structure Ok (C : F2kConfig) (φ : Block → R) (s : F2kSession) : Prop where
  /-- The COTs are drawn in lockstep. -/
  drawn : s.prover.drawn = s.verifier.drawn
  /-- The rows that wait are honest. -/
  rows : ∀ row ∈ s.rows, row.Ok C.bool φ

/-- The halves at a position, off the list of wires. -/
theorem bitAuth_getD {delta : Block} {Ms Ks : List Block} {bits : List Bool}
    (h : List.Forall₂ (BitLabel.Of delta) (List.zipWith BitLabel.mk Ms Ks) bits) {i : ℕ}
    (hi : i < bits.length) : BitAuth delta (Ms.getD i 0) (Ks.getD i 0) bits[i] := by
  have hlen := List.length_zipWith ▸ h.length_eq
  have hM : i < Ms.length := by omega
  have hK : i < Ks.length := by omega
  have hwire := h.get (by rw [h.length_eq]; exact hi) hi
  rw [List.get_eq_getElem, List.getElem_zipWith] at hwire
  rw [List.getD_eq_getElem _ _ hM, List.getD_eq_getElem _ _ hK]
  exact hwire

/-- The bits of a word, by COTs drawn in lockstep. -/
theorem inputZeroExtend_spec (hC : C.Valid) {s : F2kSession}
    (hdrawn : s.prover.drawn = s.verifier.drawn) (value : ℕ → Bool) :
    (s.inputZeroExtend C value).1.prover.drawn = (s.inputZeroExtend C value).1.verifier.drawn ∧
      (s.inputZeroExtend C value).1.rows = s.rows ∧
      ∀ i < 64, BitAuth C.bool.delta ((s.inputZeroExtend C value).2.1.getD i 0)
        ((s.inputZeroExtend C value).2.2.getD i 0) (value i) := by
  rw [inputZeroExtend]
  generalize hbits : ((List.range 65).map fun i => if i < 64 then value i else false) = bits
  have hauth := ZKBool.authenticatedBitsInput_auth hC.bool hdrawn bits
  refine ⟨?_, rfl, fun i hi => ?_⟩
  · simp only [ZKBool.authenticatedBitsInputSend, ZKBool.authenticatedBitsInputRecv, hdrawn,
      List.length_map, List.length_range]
  · have hlen : i < bits.length := by
      rw [← hbits, List.length_map, List.length_range]
      omega
    have hvalue : bits[i] = value i := by
      simp only [← hbits, List.getElem_map, List.getElem_range, if_pos hi]
    rw [← hvalue]
    exact bitAuth_getD hauth hlen

/-- **`f2k_pack_v`** gives a MAC and a key for the value. -/
theorem f2kPackV_spec (hG : C.bool.G.Lawful φ) (hC : C.Valid) {s : F2kSession} (hs : s.Ok C φ)
    (v : Block) : (s.f2kPackV C v).1.Ok C φ ∧
      φ (s.f2kPackV C v).2.1 = φ (s.f2kPackV C v).2.2 + φ v * φ C.bool.delta := by
  rw [f2kPackV]
  obtain ⟨hdrawn, hrows, hlow⟩ := inputZeroExtend_spec hC hs.drawn v.getLsbD
  generalize s.inputZeroExtend C v.getLsbD = low at hdrawn hrows hlow
  obtain ⟨hdrawn', hrows', hhigh⟩ := inputZeroExtend_spec hC hdrawn fun i => v.getLsbD (64 + i)
  generalize hhi : low.1.inputZeroExtend C (fun i => v.getLsbD (64 + i)) = high
    at hdrawn' hrows' hhigh
  simp only [hhi]
  refine ⟨⟨hdrawn', fun row hrow => hs.rows row ?_⟩, ?_⟩
  · rw [← hrows, ← hrows']
    exact hrow
  · refine ZKBool.map_packing_auth hG fun i hi => ?_
    rw [packbuf, packbuf]
    split
    · rename_i h
      exact hlow i h
    · rename_i h
      have hbit := hhigh (i - 64) (by omega)
      rwa [Nat.add_sub_cancel' (not_lt.mp h)] at hbit

/-- **`f2k_mul`** gives a wire of the product. -/
theorem f2kMul_spec (hG : C.bool.G.Lawful φ) (hC : C.Valid) {s : F2kSession} (hs : s.Ok C φ)
    {a b : F2kLabel} {x y : Block} (ha : a.Holds C.bool x) (hb : b.Holds C.bool y) :
    (s.f2kMul C a b).1.Ok C φ ∧ (s.f2kMul C a b).2.Holds C.bool (C.bool.G.gfmul x y) := by
  refine ⟨⟨hs.drawn, hs.rows⟩, .of_map hG ?_ rfl ?_⟩
  · rw [f2kMul, ha.val_eq, hb.val_eq]
  · rw [f2kMul, hC.vole, hG.xor, hG.xor, hG.gfmul, hG.gfmul, hG.xor, ha.val_eq, hb.val_eq]
    linear_combination -(hG.add_self (φ (C.bool.G.gfmul x y) * φ C.bool.delta))

/-- **Honest rows pass the batch check.** -/
theorem batchCheck_ok (hG : C.bool.G.Lawful φ) {s : F2kSession} (hs : s.Ok C φ) :
    ∃ s', s.batchCheck C = some s' ∧ s'.Ok C φ := by
  rw [batchCheck]
  split
  · exact ⟨s, rfl, hs⟩
  · refine ⟨_, if_pos (hG.injective ?_), hs.drawn, fun row hrow => absurd hrow List.not_mem_nil⟩
    have hcol : ∀ k ∈ range s.rows.length,
        ∑ j ∈ range 5, φ (column s.rows (fun row => row.coeff j) k) * φ C.bool.delta ^ j
          = φ (column s.rows PolyRow.atDelta k) := by
      intro k hk
      have hk' := mem_range.mp hk
      have hrow := hs.rows _ (List.getElem_mem hk')
      have hget : ∀ f : PolyRow → Block, column s.rows f k = f s.rows[k] := fun f => by
        rw [column, List.getD_eq_getElem _ _ (by rwa [List.length_map]), List.getElem_map]
      simp only [hget]
      exact hrow
    simp only [BoolConfig.vectorInnPrdtSumRed, hG.xor, hG.gfmul, hG.reduce_innPrdtSumNoRed,
      map_deltaPow hG]
    rw [sum_congr rfl fun k hk => by rw [← hcol k hk]]
    simp only [sum_range_succ _ 4, sum_range_succ _ 3, sum_range_succ _ 2, sum_range_succ _ 1,
      sum_range_one, mul_add, sum_add_distrib, pow_zero, mul_one, ← mul_assoc, ← sum_mul]
    ring

/-- **A product of three to five factors** goes through and gives a wire of the product, also when
the buffer is full. -/
theorem mulPoly_spec (hG : C.bool.G.Lawful φ) (hC : C.Valid) {s : F2kSession} (hs : s.Ok C φ)
    {a b : F2kLabel} {rest : List F2kLabel} {x y : Block} {xs : List Block}
    (ha : a.Holds C.bool x) (hb : b.Holds C.bool y)
    (hrest : List.Forall₂ (F2kLabel.Holds C.bool) rest xs) (hne : rest ≠ [])
    (hle : rest.length ≤ 3) :
    ∃ s' w, s.mulPoly C a b rest = some (s', w) ∧ s'.Ok C φ ∧
      w.Holds C.bool (C.bool.f2kMulV (x :: y :: xs)) := by
  have hvals : (a :: b :: rest).map (fun w => w.prover.val) = x :: y :: xs := by
    rw [List.map_cons, List.map_cons, ha.val_eq, hb.val_eq]
    refine congrArg (x :: y :: ·) ?_
    rw [← List.forall₂_eq_eq_eq, List.forall₂_map_left_iff]
    exact hrest.imp fun _ _ h => h.val_eq
  obtain ⟨hpack, hmac⟩ := f2kPackV_spec hG hC hs (C.bool.f2kMulV (x :: y :: xs))
  set t := s.f2kPackV C (C.bool.f2kMulV (x :: y :: xs)) with ht
  have hrow : (C.bool.polyPrdtN a b rest t.2).Ok C.bool φ := by
    refine polyPrdtN_ok hG ha hb hrest hne hle ?_
    rw [hmac, map_f2kMulV hG, List.map_cons, List.prod_cons]
    ring
  obtain ⟨s', hs', hok⟩ : ∃ s', (if C.bufferSz ≤ t.1.rows.length then t.1.batchCheck C
      else some t.1) = some s' ∧ s'.Ok C φ := by
    split
    · exact batchCheck_ok hG hpack
    · exact ⟨_, rfl, hpack⟩
  refine ⟨{ s' with rows := s'.rows ++ [C.bool.polyPrdtN a b rest t.2] },
    ⟨⟨C.bool.f2kMulV (x :: y :: xs), t.2.1⟩, ⟨0, t.2.2⟩⟩, ?_, ⟨hok.drawn, fun row hmem => ?_⟩,
    .of_map hG rfl rfl hmac⟩
  · rw [mulPoly, hvals]
    simp only [← ht, hs', Option.map_some]
  · rcases List.mem_append.mp hmem with hold | hnew
    · exact hok.rows row hold
    · rw [List.mem_singleton.mp hnew]
      exact hrow

end F2kSession

end VoleZk
