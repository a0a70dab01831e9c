import VoleZk.Lib.Gf2k
import Mathlib.Data.BitVec

/-!
# Blocks and authenticated bits

The Boolean engine works on 128-bit blocks.  A wire is a block on each side: the prover's carries
the bit in its lowest place and a MAC above it, the verifier's is the key.  The block arithmetic
of emp-tool (`gfmul`, the unreduced inner product, `reduce`, the packing of 128 bits) is the
record `GfOps`; what the engine relies on is that it is arithmetic in one commutative ring of
characteristic 2, `GfOps.Lawful`.

## What is here

* `lsb`, `clearLsb`, `withLsb`, `xorDeltaIf`;
* `BitAuth Δ M K b` — the two halves of a wire of value `b`;
* `BitAuth.correct` — a correlation, corrected to a chosen bit;
* `GfOps`, `GfOps.Lawful`, and `GfOps.std`, multiplication modulo `X^128 + X^7 + X^2 + X + 1`.
-/

set_option autoImplicit false

open Finset

namespace VoleZk

/-- A `block`. -/
abbrev Block : Type := BitVec 128

/-! ## Bits of a block -/

/-- `getLSB`. -/
def lsb (b : Block) : Bool := b.getLsbD 0

/-- `clear_lsb`. -/
def clearLsb (b : Block) : Block := b &&& 0xFFFFFFFFFFFFFFFFFFFFFFFFFFFFFFFE#128

/-- The block 0 or 1. -/
def bitBlock (v : Bool) : Block := if v then 1 else 0

/-- `with_lsb`. -/
def withLsb (b : Block) (v : Bool) : Block := clearLsb b ^^^ bitBlock v

/-- `xor_delta_if`. -/
def xorDeltaIf (delta b : Block) (cond : Bool) : Block :=
  b ^^^ (delta &&& (if cond then BitVec.allOnes 128 else 0))

theorem getLsbD_clearLsb (b : Block) (i : ℕ) :
    (clearLsb b).getLsbD i = (decide (i ≠ 0) && b.getLsbD i) := by
  have hmask : (0xFFFFFFFFFFFFFFFFFFFFFFFFFFFFFFFE#128 : Block) = ~~~1#128 := by decide
  rw [clearLsb, hmask, BitVec.getLsbD_and, BitVec.getLsbD_not, BitVec.getLsbD_one]
  by_cases hi : i < 128
  · by_cases h0 : i = 0
    · simp [h0]
    · simp [hi, h0, Bool.and_comm]
  · rw [BitVec.getLsbD_of_ge b i (not_lt.mp hi), Bool.false_and, Bool.and_false]

theorem getLsbD_bitBlock (v : Bool) (i : ℕ) :
    (bitBlock v).getLsbD i = (decide (i = 0) && v) := by
  cases v
  · simp [bitBlock]
  · rw [bitBlock, if_pos rfl, Bool.and_true]
    exact BitVec.getLsbD_one

@[simp] theorem xorDeltaIf_eq (delta b : Block) (cond : Bool) :
    xorDeltaIf delta b cond = b ^^^ (if cond then delta else 0) := by
  cases cond
  · simp [xorDeltaIf]
  · rw [xorDeltaIf, if_pos rfl, if_pos rfl, BitVec.and_allOnes]

theorem getLsbD_ite (c : Bool) (a : Block) (i : ℕ) :
    (if c then a else 0).getLsbD i = (c && a.getLsbD i) := by
  cases c <;> simp

/-! ## Authenticated bits -/

/-- A wire of value `b`: the prover's half `M` carries the bit in its lowest place, the verifier's
half `K` has it clear, and the halves differ by the key where the bit is set. -/
structure BitAuth (delta M K : Block) (b : Bool) : Prop where
  /-- The MAC relation. -/
  mac_eq : M = K ^^^ (if b then delta else 0)
  /-- The prover reads the bit off its half. -/
  lsb_eq : lsb M = b
  /-- The verifier's half has its lowest place clear. -/
  key_lsb : lsb K = false

variable {delta M K : Block} {b : Bool}

/-- A correlation, corrected to the bit `w` by the masking bit the prover sends. -/
theorem BitAuth.correct (hdelta : lsb delta = true) (h : BitAuth delta M K b) (w : Bool) :
    BitAuth delta (withLsb M w) (clearLsb (xorDeltaIf delta K (w ^^ lsb M))) w := by
  have hbit : ∀ i, M.getLsbD i = (K.getLsbD i ^^ (b && delta.getLsbD i)) := by
    intro i
    rw [h.mac_eq, BitVec.getLsbD_xor, getLsbD_ite]
  refine ⟨BitVec.eq_of_getLsbD_eq fun i _ => ?_, ?_, ?_⟩
  · rw [withLsb, BitVec.getLsbD_xor, BitVec.getLsbD_xor, getLsbD_clearLsb, getLsbD_clearLsb,
      getLsbD_bitBlock, xorDeltaIf_eq, BitVec.getLsbD_xor, getLsbD_ite, getLsbD_ite, hbit, h.lsb_eq]
    by_cases hi : i = 0
    · subst hi
      have : delta.getLsbD 0 = true := hdelta
      simp [this]
    · cases w <;> cases b <;> simp [hi]
  · rw [lsb, withLsb, BitVec.getLsbD_xor, getLsbD_clearLsb, getLsbD_bitBlock]
    simp
  · rw [lsb, getLsbD_clearLsb]
    simp

theorem BitAuth.xor {M' K' : Block} {b' : Bool} (h : BitAuth delta M K b)
    (h' : BitAuth delta M' K' b') : BitAuth delta (M ^^^ M') (K ^^^ K') (b ^^ b') := by
  refine ⟨BitVec.eq_of_getLsbD_eq fun i _ => ?_, ?_, ?_⟩
  · rw [h.mac_eq, h'.mac_eq]
    simp only [BitVec.getLsbD_xor, getLsbD_ite]
    cases b <;> cases b' <;> cases K.getLsbD i <;> cases K'.getLsbD i <;> simp
  · rw [lsb, BitVec.getLsbD_xor]
    exact congrArg₂ Bool.xor h.lsb_eq h'.lsb_eq
  · rw [lsb, BitVec.getLsbD_xor]
    exact congrArg₂ Bool.xor h.key_lsb h'.key_lsb

/-! ## Block arithmetic -/

/-- The block arithmetic of emp-tool.  An array of blocks is a function of the index. -/
structure GfOps where
  /-- `gfmul`. -/
  gfmul : Block → Block → Block
  /-- `vector_inn_prdt_sum_no_red`, on the first entries of two arrays: the two blocks of the
  unreduced inner product. -/
  innPrdtSumNoRed : ℕ → (ℕ → Block) → (ℕ → Block) → Block × Block
  /-- `reduce`. -/
  reduce : Block → Block → Block
  /-- `GaloisFieldPacking::packing`. -/
  packing : (ℕ → Block) → Block

/-- What the engine relies on: blocks embed into a commutative ring of characteristic 2, in which
exclusive or is addition and `gfmul` multiplication; `reduce` is additive and takes an unreduced
inner product to the inner product; packing weighs block `i` with `X ^ i`. -/
structure GfOps.Lawful (G : GfOps) {R : Type*} [CommRing R] (φ : Block → R) : Prop where
  /-- The characteristic is 2. -/
  two_eq_zero : (2 : R) = 0
  /-- Different blocks are different elements. -/
  injective : Function.Injective φ
  /-- Addition. -/
  xor : ∀ a b, φ (a ^^^ b) = φ a + φ b
  /-- Multiplication. -/
  gfmul : ∀ a b, φ (G.gfmul a b) = φ a * φ b
  /-- Reduction is additive. -/
  reduce_xor : ∀ a b c d, G.reduce (a ^^^ c) (b ^^^ d) = G.reduce a b ^^^ G.reduce c d
  /-- Reduction of an inner product. -/
  reduce_innPrdtSumNoRed : ∀ m a b, φ (G.reduce (G.innPrdtSumNoRed m a b).1
    (G.innPrdtSumNoRed m a b).2) = ∑ i ∈ range m, φ (a i) * φ (b i)
  /-- Packing. -/
  packing : ∀ data, φ (G.packing data) = ∑ i ∈ range 128, φ (data i) * φ (BitVec.twoPow 128 i)

/-- The low coefficients of the modulus `X^128 + X^7 + X^2 + X + 1`. -/
def gfLow : Block := 0x87

/-- Arithmetic modulo `X^128 + X^7 + X^2 + X + 1`. -/
def GfOps.std : GfOps where
  gfmul := Gf2k.mul gfLow
  innPrdtSumNoRed m a b := (Gf2k.xorSum m fun i => (Gf2k.clmul (a i) (b i)).1,
    Gf2k.xorSum m fun i => (Gf2k.clmul (a i) (b i)).2)
  reduce lo hi := Gf2k.reduce gfLow (lo, hi)
  packing data := Gf2k.xorSum 128 fun i => Gf2k.mul gfLow (data i) (BitVec.twoPow 128 i)

theorem GfOps.std_lawful : GfOps.std.Lawful (Gf2k.toRing gfLow) where
  two_eq_zero := Gf2k.two_eq_zero gfLow
  injective := Gf2k.toRing_injective gfLow
  xor := Gf2k.toRing_xor gfLow
  gfmul := Gf2k.toRing_mul gfLow
  reduce_xor a b c d := by
    refine Gf2k.toRing_injective gfLow ?_
    simp only [GfOps.std, Gf2k.toRing_xor, Gf2k.toRing_reduce]
    ring
  reduce_innPrdtSumNoRed m a b := by
    simp only [GfOps.std, Gf2k.toRing_reduce, Gf2k.map_xorSum (Gf2k.toRing_xor gfLow), mul_sum,
      ← sum_add_distrib]
    refine sum_congr rfl fun i _ => ?_
    rw [← Gf2k.toRing_reduce_clmul, Gf2k.toRing_reduce]
  packing data := by
    simp only [GfOps.std, Gf2k.map_xorSum (Gf2k.toRing_xor gfLow), Gf2k.toRing_mul]

end VoleZk
