import VoleZk.Lib.Interpolation
import VoleZk.Mvzk.Fp59
import VoleZk.Mvzk.Ntt

/-!
# Packed sharings

The shares of `n` parties are the values of a polynomial at the odd powers of a `2n`-th root of
unity, and the `k` secrets its values at the odd powers of a `2k`-th root.  `Poly` converts one
into the other with two transforms.

`primitiveRoot` raises the generator to an even exponent only: `powers_of_gen[i]` is the generator
to the power `2 ^ (i - 1)`, the lowest bit of the exponent counts for nothing, and the result is
squared.  For `2 ^ d` the exponent is `(p - 1) / 2 ^ d`, even up to `d = 27`.

## What is here

* `primitiveRoot`, `Poly`, `Poly.init`, the conversions;
* `primitiveRoot_two_pow` — **the roots that are right**;
* `Poly.Ok` — what the constructor leaves behind;
* `Poly.nttEvalN2N_eq`, `Poly.nttEvalN2K_eq`, `Poly.nttEvalK2N_eq` — **the conversions evaluate the
  polynomial through their input**;
* `halfTurn`, `Poly.nttEvalN2N_eq_of_two`, `Poly.nttEvalN2K_eq_of_two` — **what the conversions make
  of the values of `X`, whatever the root**.
-/

set_option autoImplicit false

open Finset Polynomial

namespace VoleZk.Mvzk

/-! ## Roots of unity -/

/-- `powers_of_gen`. -/
def powersOfGen : ℕ → ZMod P59
  | 0 => 1
  | 1 => 3
  | i + 2 => powersOfGen (i + 1) * powersOfGen (i + 1)

/-- `primitiveRoot`. -/
def primitiveRoot (degree : ℕ) : Option (ZMod P59) :=
  (modInv (degree : ZMod P59)).map fun inv =>
    let exponent := ((P59 - 1 : ℕ) : ZMod P59) * inv
    let res := (List.range 59).foldl
      (fun res i => if (exponent.val >>> i) &&& 1 = 1 then res * powersOfGen i else res) 1
    res * res

theorem powersOfGen_succ (i : ℕ) : powersOfGen (i + 1) = 3 ^ 2 ^ i := by
  induction i with
  | zero => rw [pow_zero, pow_one]; rfl
  | succ i ih => rw [powersOfGen, ih, ← pow_add, pow_succ, mul_two]

/-- The product over the lowest `cnt` bits of the exponent. -/
theorem foldl_powersOfGen (e cnt : ℕ) :
    (List.range (cnt + 1)).foldl
        (fun res i => if (e >>> i) &&& 1 = 1 then res * powersOfGen i else res) 1
      = 3 ^ (e % 2 ^ (cnt + 1) / 2) := by
  induction cnt with
  | zero =>
    have : e % 2 ^ (0 + 1) / 2 = 0 := by omega
    rw [this, pow_zero]
    simp [powersOfGen]
  | succ cnt ih =>
    have hbit : (e >>> (cnt + 1)) &&& 1 = e / 2 ^ (cnt + 1) % 2 := by
      rw [Nat.and_one_is_mod, Nat.shiftRight_eq_div_pow]
    have hmod : e % 2 ^ (cnt + 1 + 1) / 2
        = e % 2 ^ (cnt + 1) / 2 + e / 2 ^ (cnt + 1) % 2 * 2 ^ cnt := by
      have hdouble : ∀ q, 2 ^ (cnt + 1) * q = 2 * (q * 2 ^ cnt) := fun q => by
        rw [pow_succ]
        ring
      rw [pow_succ 2 (cnt + 1), Nat.mod_mul, hdouble, Nat.add_mul_div_left _ _ (by decide)]
    rw [List.range_succ, List.foldl_append, ih, List.foldl_cons, List.foldl_nil, hbit, hmod]
    rcases Nat.mod_two_eq_zero_or_one (e / 2 ^ (cnt + 1)) with h | h
    · rw [h, if_neg (by decide), Nat.zero_mul]
      rfl
    · rw [h, if_pos rfl, powersOfGen_succ, ← pow_add, Nat.one_mul]

/-- **The exponent is taken without its lowest bit.** -/
theorem primitiveRoot_eq {degree : ℕ} (h : (degree : ZMod P59) ≠ 0) :
    primitiveRoot degree
      = some (3 ^ (2 * ((((P59 - 1 : ℕ) : ZMod P59) * (degree : ZMod P59)⁻¹).val / 2))) := by
  have hlt : ∀ a : ZMod P59, a.val < 2 ^ 59 := fun a =>
    (ZMod.val_lt a).trans (by decide)
  rw [primitiveRoot, modInv, if_neg h, Option.map_some]
  simp only [foldl_powersOfGen _ 58]
  rw [Nat.mod_eq_of_lt (hlt _), ← pow_add, two_mul]

theorem two_ne_zero_P59 : (2 : ZMod P59) ≠ 0 := by
  show (2 : ZMod 576460752034988033) ≠ 0
  decide

theorem cast_two_pow_ne_zero {d : ℕ} : ((2 ^ d : ℕ) : ZMod P59) ≠ 0 := by
  rw [Nat.cast_pow, Nat.cast_ofNat]
  exact pow_ne_zero d two_ne_zero_P59

/-- The root from a number that the field takes for the exponent. -/
theorem primitiveRoot_of_exponent {d e : ℕ} (he : e < P59) (h : 2 ^ d * e % P59 = P59 - 1) :
    primitiveRoot (2 ^ d) = some (3 ^ (2 * (e / 2))) := by
  have hval : ((P59 - 1 : ℕ) : ZMod P59) * ((2 ^ d : ℕ) : ZMod P59)⁻¹ = e := by
    have hcast : ((P59 - 1 : ℕ) : ZMod P59) = (2 ^ d : ℕ) * (e : ZMod P59) := by
      rw [← h, ZMod.natCast_mod, Nat.cast_mul]
    rw [hcast, mul_right_comm, mul_inv_cancel₀ cast_two_pow_ne_zero, one_mul]
  rw [primitiveRoot_eq cast_two_pow_ne_zero, hval, ZMod.val_natCast_of_lt he]

/-- **The roots that are right**: up to `2 ^ 27`, the generator to the power `(p - 1) / 2 ^ d`. -/
theorem primitiveRoot_two_pow {d : ℕ} (hd : d ≤ 27) :
    primitiveRoot (2 ^ d) = some (3 ^ ((2 ^ 31 - 1) * 2 ^ (28 - d))) := by
  have hexp : 2 ^ d * ((2 ^ 31 - 1) * 2 ^ (28 - d)) = P59 - 1 := by
    rw [P59_sub_one, Nat.mul_left_comm, ← pow_add, show d + (28 - d) = 28 by omega, mul_comm]
  have hlt : (2 ^ 31 - 1) * 2 ^ (28 - d) < P59 := by
    have hpos : 0 < P59 := P59_pos
    calc (2 ^ 31 - 1) * 2 ^ (28 - d) ≤ 2 ^ d * ((2 ^ 31 - 1) * 2 ^ (28 - d)) :=
          Nat.le_mul_of_pos_left _ (Nat.two_pow_pos d)
      _ = P59 - 1 := hexp
      _ < P59 := Nat.sub_lt hpos Nat.one_pos
  have heven : 2 * ((2 ^ 31 - 1) * 2 ^ (28 - d) / 2) = (2 ^ 31 - 1) * 2 ^ (28 - d) := by
    rw [show 28 - d = 27 - d + 1 by omega, pow_succ 2 (27 - d), ← mul_assoc]
    omega
  rw [primitiveRoot_of_exponent hlt, heven]
  rw [hexp]
  exact Nat.mod_eq_of_lt (Nat.sub_lt P59_pos Nat.one_pos)

/-- Half-way around, the right roots are at -1. -/
theorem primitiveRoot_half {d : ℕ} (hd : d ≤ 26) {w : ZMod P59}
    (hw : primitiveRoot (2 * 2 ^ d) = some w) : w ^ 2 ^ d = -1 := by
  rw [← pow_succ', primitiveRoot_two_pow (by omega), Option.some_inj] at hw
  have hexp : (2 ^ 31 - 1) * 2 ^ (28 - (d + 1)) * 2 ^ d = (P59 - 1) / 2 := by
    rw [mul_assoc, ← pow_add, show 28 - (d + 1) + d = 27 by omega]
    rfl
  rw [← hw, ← pow_mul, hexp, three_pow_half]

/-- The field has no root of order `2 ^ 29`: the order of what is returned is a multiple of
`2 ^ 31 - 1`. -/
theorem primitiveRoot_wide {w : ZMod P59} (hw : primitiveRoot (2 * 2 ^ 28) = some w) :
    2 ^ 31 - 1 ≤ orderOf w := by
  rw [← pow_succ', primitiveRoot_of_exponent (e := 2 ^ 58 + 2 ^ 30 - 2 ^ 27) (by decide)
    (by decide), Option.some_inj] at hw
  have hodd : orderOf ((3 : ZMod P59) ^ 2 ^ 28) = 2 ^ 31 - 1 :=
    haveI := Fact.mk mersenne_prime
    orderOf_eq_prime (by rw [← pow_mul]; exact generator_pow) generator_pow_odd_part
  have hsq : w ^ 2 = ((3 : ZMod P59) ^ 2 ^ 28) ^ 8 := by
    have hone : ((3 : ZMod P59) ^ 2 ^ 28) ^ (2 ^ 31 - 1) = 1 := hodd ▸ pow_orderOf_eq_one _
    calc w ^ 2 = ((3 : ZMod P59) ^ 2 ^ 28) ^ (2 ^ 31 - 1 + 8) := by
          have hexp : 2 * ((2 ^ 58 + 2 ^ 30 - 2 ^ 27) / 2) * 2 = 2 ^ 28 * (2 ^ 31 - 1 + 8) := rfl
          rw [← hw, ← pow_mul, ← pow_mul, hexp]
      _ = _ := by rw [pow_add, hone, one_mul]
  have horder : orderOf (w ^ 2) = 2 ^ 31 - 1 := by
    rw [hsq, Nat.Coprime.orderOf_pow (by rw [hodd]; decide), hodd]
  have hfin : IsOfFinOrder w := hw ▸ IsOfFinOrder.pow
    (isOfFinOrder_iff_pow_eq_one.mpr ⟨_, by decide, generator_pow⟩)
  calc 2 ^ 31 - 1 = orderOf (w ^ 2) := horder.symm
    _ ≤ orderOf w := Nat.le_of_dvd (orderOf_pos_iff.mpr hfin) (orderOf_pow_dvd 2)

/-- An element that is at -1 after `2 ^ L` steps is back at 1 after twice as many, and not
before. -/
theorem orderOf_of_half {F : Type*} [Field F] {r : F} {L : ℕ} (htwo : (2 : F) ≠ 0)
    (hneg : r ^ 2 ^ L = -1) : orderOf r = 2 ^ (L + 1) := by
  have hone : r ^ 2 ^ L ≠ 1 := fun h => by
    rw [h] at hneg
    exact htwo (by linear_combination hneg)
  exact orderOf_eq_prime_pow hone (by rw [pow_succ, pow_mul, hneg, neg_one_sq])

/-! ## The object -/

/-- `Poly`, with `k = 2 ^ logK` secrets and `n = 2 ^ logN` parties. -/
structure Poly (F : Type*) where
  /-- `logK`. -/
  logK : ℕ
  /-- `logN`. -/
  logN : ℕ
  /-- `unityRoot2K`. -/
  unityRoot2K : F
  /-- `unityRoot2N`. -/
  unityRoot2N : F
  /-- `nttKNaive`. -/
  nttKNaive : Ntt F
  /-- `nttNNaive`. -/
  nttNNaive : Ntt F
  /-- `fpGenPowers`. -/
  fpGenPowers : ℕ → F

namespace Poly

section Model

variable {F : Type*}

/-- `k`. -/
def k (poly : Poly F) : ℕ := 2 ^ poly.logK

/-- `n`. -/
def n (poly : Poly F) : ℕ := 2 ^ poly.logN

theorem k_pos (poly : Poly F) : 0 < poly.k := Nat.two_pow_pos _

theorem n_pos (poly : Poly F) : 0 < poly.n := Nat.two_pow_pos _

theorem k_lt_n {poly : Poly F} (hlt : poly.logK < poly.logN) : poly.k < poly.n :=
  Nat.pow_lt_pow_right (by decide) hlt

/-- `nDivK`. -/
def nDivK (poly : Poly F) : ℕ := 2 ^ (poly.logN - poly.logK)

variable [Field F]

/-- `evalPointsK`. -/
def evalPointsK (poly : Poly F) (i : ℕ) : F :=
  poly.unityRoot2K * (poly.unityRoot2K * poly.unityRoot2K) ^ i

/-- `evalPointsN`. -/
def evalPointsN (poly : Poly F) (i : ℕ) : F :=
  poly.unityRoot2N * (poly.unityRoot2N * poly.unityRoot2N) ^ i

/-- `evalPoints2N`. -/
def evalPoints2N (poly : Poly F) (i : ℕ) : F := poly.unityRoot2N * poly.unityRoot2N ^ i

/-- The constructor, from the two roots on.  `initFpGenPowers` inverts the offset too, if there is
a second power. -/
def ofRoots [DecidableEq F] (logK logN : ℕ) (unityRoot2K unityRoot2N : F) : Option (Poly F) :=
  (Ntt.init logK unityRoot2K).bind fun nttKNaive =>
    (Ntt.init logN unityRoot2N).bind fun nttNNaive =>
      let offset := unityRoot2N * unityRoot2N ^ (2 ^ (logN - logK) - 2)
      let poly : Poly F :=
        { logK, logN, unityRoot2K, unityRoot2N, nttKNaive, nttNNaive
          fpGenPowers := fun i => offset ^ i }
      if 1 < 2 ^ logN then (modInv offset).map fun _ => poly else some poly

/-- The constructor. -/
def init (logK logN : ℕ) : Option (Poly (ZMod P59)) :=
  if logN < logK then none
  else
    (primitiveRoot (2 * 2 ^ logK)).bind fun unityRoot2K =>
      (primitiveRoot (2 * 2 ^ logN)).bind fun unityRoot2N =>
        ofRoots logK logN unityRoot2K unityRoot2N

/-- `nttEvalN2K`. -/
def nttEvalN2K (poly : Poly F) (input : ℕ → F) : ℕ → F :=
  let polyCoeff := fun i => input (reverseBits i poly.logN)
  let polyCoeff := poly.nttNNaive.backwardInplace polyCoeff
  let polyCoeff := fun i => polyCoeff i * poly.fpGenPowers i
  let polyCoeff := poly.nttNNaive.forwardInplace polyCoeff
  fun i => polyCoeff (reverseBits (i * poly.nDivK) poly.logN)

/-- `nttEvalK2N`. -/
def nttEvalK2N (poly : Poly F) (input : ℕ → F) : ℕ → F :=
  let polyCoeff := fun i => input (reverseBits i poly.logK)
  let buf := poly.nttKNaive.backwardInplace polyCoeff
  let polyCoeff := fun i => buf (reverseBits i poly.logK)
  poly.nttNNaive.forwardInplaceFixDegree polyCoeff poly.logK

/-- `nttEvalN2N`. -/
def nttEvalN2N (poly : Poly F) (input : ℕ → F) : ℕ → F :=
  let polyCoeff := fun i => input (reverseBits i poly.logN)
  let polyCoeff := poly.nttNNaive.backwardInplace polyCoeff
  let polyCoeff := fun i => if 1 ≤ i then polyCoeff i * poly.evalPoints2N (i - 1) else polyCoeff i
  let polyCoeff := poly.nttNNaive.forwardInplace polyCoeff
  fun i => polyCoeff (reverseBits i poly.logN)

end Model

/-! ## What the constructor leaves behind -/

variable {F : Type*} [Field F] {poly : Poly F}

/-- The transforms and the offsets belong to the two roots. -/
structure Ok (poly : Poly F) : Prop where
  /-- There are at most as many secrets as parties. -/
  logK_le : poly.logK ≤ poly.logN
  /-- The size of the transform of the secrets. -/
  logDimK : poly.nttKNaive.logDim = poly.logK
  /-- The size of the transform of the shares. -/
  logDimN : poly.nttNNaive.logDim = poly.logN
  /-- The transform of the secrets. -/
  nttK : poly.nttKNaive.Ok poly.unityRoot2K
  /-- The transform of the shares. -/
  nttN : poly.nttNNaive.Ok poly.unityRoot2N
  /-- The powers of the offset. -/
  fpGenPowers : ∀ i,
    poly.fpGenPowers i = (poly.unityRoot2N * poly.unityRoot2N ^ (poly.nDivK - 2)) ^ i

theorem ofRoots_ok [DecidableEq F] {logK logN : ℕ} (hle : logK ≤ logN) {r s : F}
    (htwo : (2 : F) ≠ 0) (hr : r ≠ 0) (hs : s ≠ 0) :
    ∃ poly, ofRoots logK logN r s = some poly ∧ poly.logK = logK ∧ poly.logN = logN ∧
      poly.unityRoot2K = r ∧ poly.unityRoot2N = s ∧ poly.Ok := by
  obtain ⟨nttK, hK, hlogK, hokK⟩ := Ntt.init_ok (pow_ne_zero logK htwo) hr
  obtain ⟨nttN, hN, hlogN, hokN⟩ := Ntt.init_ok (pow_ne_zero logN htwo) hs
  have hoffset : s * s ^ (2 ^ (logN - logK) - 2) ≠ 0 := mul_ne_zero hs (pow_ne_zero _ hs)
  rw [ofRoots, hK, Option.bind_some, hN, Option.bind_some]
  simp only [modInv, if_neg hoffset, Option.map_some, ite_self]
  exact ⟨_, rfl, rfl, rfl, rfl, rfl, hle, hlogK, hlogN, hokK, hokN, fun _ => rfl⟩

theorem primitiveRoot_ne_zero {d : ℕ} : ∃ r, primitiveRoot (2 * 2 ^ d) = some r ∧ r ≠ 0 := by
  have hthree : (3 : ZMod P59) ≠ 0 := by
    show (3 : ZMod 576460752034988033) ≠ 0
    decide
  rw [← pow_succ', primitiveRoot_eq cast_two_pow_ne_zero]
  exact ⟨_, rfl, pow_ne_zero _ hthree⟩

/-- **The constructor succeeds** if there are at most as many secrets as parties. -/
theorem init_ok {logK logN : ℕ} (hle : logK ≤ logN) :
    ∃ poly, init logK logN = some poly ∧ poly.logK = logK ∧ poly.logN = logN ∧
      primitiveRoot (2 * 2 ^ logK) = some poly.unityRoot2K ∧
      primitiveRoot (2 * 2 ^ logN) = some poly.unityRoot2N ∧ poly.Ok := by
  obtain ⟨r, hr, hr0⟩ := primitiveRoot_ne_zero (d := logK)
  obtain ⟨s, hs, hs0⟩ := primitiveRoot_ne_zero (d := logN)
  rw [init, if_neg (not_lt.mpr hle), hr, hs]
  obtain ⟨poly, hpoly, hlogK, hlogN, rfl, rfl, hok⟩ := ofRoots_ok hle two_ne_zero_P59 hr0 hs0
  exact ⟨poly, hpoly, hlogK, hlogN, rfl, rfl, hok⟩

theorem init_eq_some {logK logN : ℕ} {poly : Poly (ZMod P59)} (h : init logK logN = some poly) :
    logK ≤ logN ∧ poly.logK = logK ∧ poly.logN = logN ∧
      primitiveRoot (2 * 2 ^ logK) = some poly.unityRoot2K ∧
      primitiveRoot (2 * 2 ^ logN) = some poly.unityRoot2N ∧ poly.Ok := by
  by_cases hle : logK ≤ logN
  · obtain ⟨poly', hpoly', hrest⟩ := init_ok hle
    rw [h] at hpoly'
    cases hpoly'
    exact ⟨hle, hrest⟩
  · rw [init, if_pos (not_le.mp hle)] at h
    cases h

/-! ## The conversions -/

theorem evalPointsN_eq (poly : Poly F) (i : ℕ) :
    poly.evalPointsN i = poly.unityRoot2N ^ (2 * i + 1) := by
  rw [evalPointsN, ← pow_two, ← pow_mul, ← pow_succ']

theorem evalPointsK_eq (poly : Poly F) (i : ℕ) :
    poly.evalPointsK i = poly.unityRoot2K ^ (2 * i + 1) := by
  rw [evalPointsK, ← pow_two, ← pow_mul, ← pow_succ']

/-- Odd powers below twice the place of -1 are different. -/
theorem injOn_odd_pow {r : F} {L : ℕ} (htwo : (2 : F) ≠ 0) (hneg : r ^ 2 ^ L = -1) :
    Set.InjOn (fun i => r ^ (2 * i + 1)) (range (2 ^ L)) := by
  have horder := orderOf_of_half htwo hneg
  intro i hi j hj heq
  have hi' : i < 2 ^ L := by simpa using hi
  have hj' : j < 2 ^ L := by simpa using hj
  have hlt : ∀ {a}, a < 2 ^ L → 2 * a + 1 < orderOf r := fun ha => by
    rw [horder, pow_succ]
    omega
  have := pow_injOn_Iio_orderOf (hlt hi') (hlt hj') heq
  omega

section Conversions

variable (h : poly.Ok)
include h

/-- The backward transform of values at the points of the parties is the polynomial through
them. -/
theorem backward_eq_coeff (hneg : poly.unityRoot2N ^ poly.n = -1) {f : F[X]}
    (hdeg : f.degree < poly.n) {input : ℕ → F}
    (hinput : ∀ i < poly.n, input i = f.eval (poly.evalPointsN i)) {g : ℕ} (hg : g < poly.n) :
    poly.nttNNaive.backwardInplace (fun i => input (reverseBits i poly.logN)) g = f.coeff g := by
  have hL := h.logDimN
  refine Ntt.backward_forward h.nttN (fun x hx => ?_) (hL ▸ hg)
  rw [hL] at hx
  rw [hinput _ (reverseBits_lt x poly.logN), evalPointsN_eq,
    Interpolation.eval_eq_sum_coeff (Nat.two_pow_pos _) hdeg,
    Ntt.forward_eq_eval h.nttN (hL ▸ hneg) f.coeff (hL ▸ hx), hL]

/-- The values at multiples of the points of the parties, by scaling the coefficients. -/
theorem forward_scaled (hneg : poly.unityRoot2N ^ poly.n = -1) {f : F[X]}
    (hdeg : f.degree < poly.n) (w : F) {c : ℕ → F} (hc : ∀ g < poly.n, c g = f.coeff g * w ^ g)
    {y : ℕ} (hy : y < poly.n) :
    poly.nttNNaive.forwardInplace c (reverseBits y poly.logN)
      = f.eval (w * poly.evalPointsN y) := by
  have hL := h.logDimN
  have hrev : reverseBits y poly.logN < 2 ^ poly.nttNNaive.logDim := hL ▸ reverseBits_lt y poly.logN
  rw [Ntt.forward_eq_eval h.nttN (hL ▸ hneg) c hrev, hL, reverseBits_reverseBits hy,
    Interpolation.eval_eq_sum_coeff (Nat.two_pow_pos _) hdeg]
  refine sum_congr rfl fun g hg => ?_
  rw [hc g (mem_range.mp hg), evalPointsN_eq, mul_pow]
  ring

/-- **`nttEvalN2N` evaluates at the even powers.** -/
theorem nttEvalN2N_eq (hneg : poly.unityRoot2N ^ poly.n = -1) {f : F[X]}
    (hdeg : f.degree < poly.n) {input : ℕ → F}
    (hinput : ∀ i < poly.n, input i = f.eval (poly.evalPointsN i)) {y : ℕ} (hy : y < poly.n) :
    poly.nttEvalN2N input y = f.eval (poly.unityRoot2N * poly.evalPointsN y) := by
  refine forward_scaled h hneg hdeg poly.unityRoot2N (fun g hg => ?_) hy
  rw [backward_eq_coeff h hneg hdeg hinput hg]
  split
  · rename_i hpos
    rw [evalPoints2N, ← pow_succ', Nat.sub_add_cancel hpos]
  · rename_i hzero
    obtain rfl : g = 0 := by omega
    rw [pow_zero, mul_one]

/-- `nttEvalN2K` evaluates at every `nDivK`-th point of the parties, moved by the offset. -/
theorem nttEvalN2K_eq_offset (hneg : poly.unityRoot2N ^ poly.n = -1) {f : F[X]}
    (hdeg : f.degree < poly.n) {input : ℕ → F}
    (hinput : ∀ i < poly.n, input i = f.eval (poly.evalPointsN i)) {i : ℕ} (hi : i < poly.k) :
    poly.nttEvalN2K input i
      = f.eval (poly.unityRoot2N * poly.unityRoot2N ^ (poly.nDivK - 2)
          * poly.evalPointsN (i * poly.nDivK)) := by
  have hsize : poly.k * poly.nDivK = poly.n := by
    rw [k, nDivK, n, ← pow_add, Nat.add_sub_of_le h.logK_le]
  have hy : i * poly.nDivK < poly.n := by
    rw [← hsize]
    exact Nat.mul_lt_mul_of_pos_right hi (Nat.two_pow_pos _)
  exact forward_scaled h hneg hdeg (poly.unityRoot2N * poly.unityRoot2N ^ (poly.nDivK - 2))
    (c := fun g => poly.nttNNaive.backwardInplace (fun i => input (reverseBits i poly.logN)) g
      * poly.fpGenPowers g)
    (fun g hg => by rw [backward_eq_coeff h hneg hdeg hinput hg, h.fpGenPowers]) hy

/-- **`nttEvalN2K` evaluates at the points of the secrets**, if these are powers of the root of the
parties and there are fewer secrets than parties. -/
theorem nttEvalN2K_eq (hneg : poly.unityRoot2N ^ poly.n = -1) (hlt : poly.logK < poly.logN)
    (hroot : poly.unityRoot2K = poly.unityRoot2N ^ poly.nDivK) {f : F[X]}
    (hdeg : f.degree < poly.n) {input : ℕ → F}
    (hinput : ∀ i < poly.n, input i = f.eval (poly.evalPointsN i)) {i : ℕ} (hi : i < poly.k) :
    poly.nttEvalN2K input i = f.eval (poly.evalPointsK i) := by
  have hdiv : 2 ≤ poly.nDivK := Nat.le_self_pow (by omega) 2
  have hpoint : poly.unityRoot2N * poly.unityRoot2N ^ (poly.nDivK - 2)
      * poly.evalPointsN (i * poly.nDivK) = poly.evalPointsK i := by
    rw [evalPointsN_eq, evalPointsK_eq, hroot, ← pow_mul, ← pow_succ', ← pow_add]
    congr 1
    rw [show poly.nDivK - 2 + 1 = poly.nDivK - 1 by omega, Nat.mul_add, Nat.mul_one,
      mul_comm poly.nDivK, mul_assoc]
    omega
  rw [nttEvalN2K_eq_offset h hneg hdeg hinput hi, hpoint]

/-- **`nttEvalK2N` evaluates at the points of the parties** the polynomial through values at the
points of the secrets. -/
theorem nttEvalK2N_eq (hnegK : poly.unityRoot2K ^ poly.k = -1)
    (hnegN : poly.unityRoot2N ^ poly.n = -1) {f : F[X]} (hdeg : f.degree < poly.k)
    {input : ℕ → F} (hinput : ∀ i < poly.k, input i = f.eval (poly.evalPointsK i)) {y : ℕ}
    (hy : y < poly.n) : poly.nttEvalK2N input y = f.eval (poly.evalPointsN y) := by
  have hK := h.logDimK
  have hN := h.logDimN
  have hcoeff : ∀ g < poly.k, poly.nttKNaive.backwardInplace
      (fun i => input (reverseBits i poly.logK)) g = f.coeff g := by
    intro g hg
    refine Ntt.backward_forward h.nttK (fun x hx => ?_) (hK ▸ hg)
    rw [hK] at hx
    rw [hinput _ (reverseBits_lt x poly.logK), evalPointsK_eq,
      Interpolation.eval_eq_sum_coeff (Nat.two_pow_pos _) hdeg,
      Ntt.forward_eq_eval h.nttK (hK ▸ hnegK) f.coeff (hK ▸ hx), hK]
  have hval := Ntt.forwardFixDegree_eq_eval h.nttN (hN ▸ hnegN) (hN ▸ h.logK_le)
    (c := f.coeff) (fun i _ => hcoeff _ (reverseBits_lt i poly.logK)) (x := y) (by rwa [hN])
  rw [evalPointsN_eq, Interpolation.eval_eq_sum_coeff (Nat.two_pow_pos _) hdeg]
  exact hval

end Conversions

end Poly

/-! ## Without a right root

The two transforms still undo each other, but the values of `X` at the second half of the points are
those at the first half with the sign changed. -/

section Wrong

variable {F : Type*} [Field F]

/-- The values of `X` at the `2 * half` points of a transform with root `w`. -/
def halfTurn (w : F) (half i : ℕ) : F :=
  if i < half then w ^ (2 * i + 1) else -w ^ (2 * (i - half) + 1)

theorem Ntt.forward_eq_halfTurn {ntt : Ntt F} {root : F} (h : ntt.Ok root) {L : ℕ}
    (hL : ntt.logDim = L + 1) {c : ℕ → F} (hc : ∀ p, 2 ≤ p → p < 2 ^ ntt.logDim → c p = 0) {i : ℕ}
    (hi : i < 2 ^ (L + 1)) :
    ntt.forwardInplace c (reverseBits i ntt.logDim) = c 0 + c 1 * halfTurn root (2 ^ L) i := by
  rw [halfTurn]
  split
  · rename_i hlow
    exact (forward_eq_of_two h hL hc hlow).1
  · rename_i hhigh
    obtain ⟨y, rfl⟩ := Nat.exists_eq_add_of_le (not_lt.mp hhigh)
    rw [Nat.add_sub_cancel_left, mul_neg, ← sub_eq_add_neg]
    rw [pow_succ] at hi
    exact (forward_eq_of_two h hL hc (show y < 2 ^ L by omega)).2

/-- The shares of zeros are zeros. -/
theorem Poly.nttEvalK2N_eq_zero {poly : Poly F} {input : ℕ → F}
    (hinput : ∀ i < poly.k, input i = 0) : poly.nttEvalK2N input = fun _ => 0 := by
  have hread : (fun i => input (reverseBits i poly.logK)) = fun _ => 0 := funext fun i =>
    hinput _ (reverseBits_lt i poly.logK)
  have hback : poly.nttKNaive.backwardInplace (fun _ => 0) = fun _ => 0 := by
    have hpass := List.foldl_fixed' (f := fun (res : ℕ → F) s =>
      Radix2.blockPass (fun i _ u v => (u + v, (u - v)
        * poly.nttKNaive.invUnityRootPowers (2 ^ (poly.nttKNaive.logDim - 1 - s) + i)))
        (2 ^ (poly.nttKNaive.logDim - 1 - s)) (2 ^ s) res) (a := fun _ => 0)
      (fun s => Radix2.blockPass_const (fun _ _ => by rw [add_zero, sub_zero, zero_mul]) _ _)
      (List.range poly.nttKNaive.logDim)
    rw [Ntt.backwardInplace, Ntt.inttInternalInplace, hpass]
    exact funext fun _ => zero_mul _
  have hforth : ∀ b : F, ((0 : F) + 0 * b, (0 : F) - 0 * b) = (0, 0) := fun b => by
    rw [zero_mul, add_zero, sub_zero]
  rw [nttEvalK2N, hread, hback]
  exact List.foldl_fixed' (fun s => Radix2.blockPass_const (fun _ _ => hforth _) _ _) _

namespace Poly

variable {poly : Poly F} (h : poly.Ok) {L : ℕ} (hL : poly.logN = L + 1) (a b : F) {input : ℕ → F}
  (hinput : ∀ i < poly.n, input i = a + b * halfTurn poly.unityRoot2N (2 ^ L) i)
include h hL hinput

/-- The coefficients of `a + b X`. -/
theorem backward_eq_of_two {g : ℕ} (hg : g < poly.n) :
    poly.nttNNaive.backwardInplace (fun i => input (reverseBits i poly.logN)) g
      = if g = 0 then a else if g = 1 then b else 0 := by
  have hlog := h.logDimN
  refine Ntt.backward_forward h.nttN (c := fun i => if i = 0 then a else if i = 1 then b else 0)
    (fun p hp => ?_) (hlog.symm ▸ hg)
  rw [hlog] at hp
  have hrev := reverseBits_lt p poly.logN
  have hval := Ntt.forward_eq_halfTurn h.nttN (hlog.trans hL)
    (c := fun i => if i = 0 then a else if i = 1 then b else 0)
    (fun p hp _ => by rw [if_neg (by omega), if_neg (by omega)])
    (i := reverseBits p poly.logN) (by rw [← hL]; exact hrev)
  rw [hlog, reverseBits_reverseBits hp] at hval
  rw [hval]
  exact hinput _ hrev

/-- The values of `a + b s X`, from coefficients scaled by powers of `s`. -/
theorem forward_scaled_of_two {c : ℕ → F} (s : F)
    (hc : ∀ g < poly.n, c g = poly.nttNNaive.backwardInplace
      (fun i => input (reverseBits i poly.logN)) g * s ^ g) {y : ℕ} (hy : y < poly.n) :
    poly.nttNNaive.forwardInplace c (reverseBits y poly.logN)
      = a + b * (s * halfTurn poly.unityRoot2N (2 ^ L) y) := by
  have hlog := h.logDimN
  have hsize : 2 ≤ poly.n := Nat.le_self_pow (by omega) 2
  have hcoeff : ∀ g < poly.n, c g = (if g = 0 then a else if g = 1 then b else 0) * s ^ g :=
    fun g hg => by rw [hc g hg, backward_eq_of_two h hL a b hinput hg]
  have hval := Ntt.forward_eq_halfTurn h.nttN (hlog.trans hL) (c := c)
    (fun p hp hlt => by
      rw [hcoeff p (by rwa [n, ← hlog]), if_neg (by omega), if_neg (by omega), zero_mul])
    (by rwa [n, hL] at hy)
  rw [hlog] at hval
  rw [hval, hcoeff 0 (by omega), hcoeff 1 (by omega), if_pos rfl, if_neg (by decide), if_pos rfl,
    pow_zero, pow_one, mul_one, mul_assoc]

/-- **The extension of the values of `a + b X`**, whatever the root. -/
theorem nttEvalN2N_eq_of_two {y : ℕ} (hy : y < poly.n) :
    poly.nttEvalN2N input y
      = a + b * (poly.unityRoot2N * halfTurn poly.unityRoot2N (2 ^ L) y) := by
  refine forward_scaled_of_two h hL a b hinput poly.unityRoot2N (fun g _ => ?_) hy
  split
  · rename_i hpos
    rw [evalPoints2N, ← pow_succ', Nat.sub_add_cancel hpos]
  · rename_i hzero
    obtain rfl : g = 0 := by omega
    rw [pow_zero, mul_one]

/-- **The secrets of the values of `a + b X`**, whatever the roots. -/
theorem nttEvalN2K_eq_of_two {i : ℕ} (hi : i * poly.nDivK < poly.n) :
    poly.nttEvalN2K input i = a + b * (poly.unityRoot2N * poly.unityRoot2N ^ (poly.nDivK - 2)
      * halfTurn poly.unityRoot2N (2 ^ L) (i * poly.nDivK)) :=
  forward_scaled_of_two h hL a b hinput (poly.unityRoot2N * poly.unityRoot2N ^ (poly.nDivK - 2))
    (fun g _ => by rw [h.fpGenPowers]) hi

end Poly

end Wrong

end VoleZk.Mvzk
