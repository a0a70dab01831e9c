import VoleZk.Lib.Radix2
import Mathlib.Algebra.Field.Basic
import Mathlib.Data.Nat.Bitwise

/-!
# The number-theoretic transform of the multi-verifier engine

`Ntt` is a radix-2 transform over a field with `2 ^ logDim` values.  The forward transform leaves
its values in bit-reversed order, the backward transform takes them so.  An array is a function of
the index; nothing outside its length is read.

## What is here

* `reverseBits` and its recursion in both directions;
* `Ntt`, `Ntt.init`, `Ntt.forwardInplace`, `Ntt.backwardInplace`, `Ntt.forwardInplaceFixDegree`;
* `Ntt.backward_forward`, `Ntt.forward_backward` — **the transforms are inverse, whatever the
  root**;
* `Ntt.forward_eq_eval`, `Ntt.forwardFixDegree_eq_eval` — **values at the odd powers of the root**,
  when its power `2 ^ logDim` is -1;
* `Ntt.forward_eq_of_two` — the values of `c₀ + c₁ X`, whatever the root.
-/

set_option autoImplicit false

open Finset

namespace VoleZk.Mvzk

/-! ## Bit reversal -/

/-- `reverse_bits`. -/
def reverseBits (x : ℕ) : ℕ → ℕ
  | 0 => 0
  | i + 1 => ((x &&& 1) <<< i) ||| reverseBits (x >>> 1) i

theorem reverseBits_succ_of_lt {x i : ℕ} (h : reverseBits (x / 2) i < 2 ^ i) :
    reverseBits x (i + 1) = x % 2 * 2 ^ i + reverseBits (x / 2) i := by
  rw [reverseBits, Nat.and_one_is_mod, Nat.shiftRight_eq_div_pow, pow_one,
    ← Nat.shiftLeft_add_eq_or_of_lt h, Nat.shiftLeft_eq]

theorem reverseBits_lt (x i : ℕ) : reverseBits x i < 2 ^ i := by
  induction i generalizing x with
  | zero => exact Nat.zero_lt_one
  | succ i ih =>
    have hbit : x % 2 < 2 := Nat.mod_lt x (by decide)
    have hrest := ih (x / 2)
    rw [reverseBits_succ_of_lt hrest, pow_succ]
    rcases Nat.le_one_iff_eq_zero_or_eq_one.mp (Nat.lt_succ_iff.mp hbit) with h | h
    · rw [h]
      omega
    · rw [h]
      omega

theorem reverseBits_succ (x i : ℕ) :
    reverseBits x (i + 1) = x % 2 * 2 ^ i + reverseBits (x / 2) i :=
  reverseBits_succ_of_lt (reverseBits_lt _ _)

theorem reverseBits_even (x i : ℕ) : reverseBits (2 * x) (i + 1) = reverseBits x i := by
  rw [reverseBits_succ, Nat.mul_mod_right, Nat.zero_mul, Nat.zero_add,
    Nat.mul_div_cancel_left x (by decide)]

theorem reverseBits_odd (x i : ℕ) :
    reverseBits (2 * x + 1) (i + 1) = 2 ^ i + reverseBits x i := by
  rw [reverseBits_succ, show (2 * x + 1) % 2 = 1 by omega, Nat.one_mul,
    show (2 * x + 1) / 2 = x by omega]

/-- The highest place of the argument is the lowest of the result. -/
theorem reverseBits_high {i x : ℕ} (hx : x < 2 ^ i) (b : ℕ) (hb : b < 2) :
    reverseBits (b * 2 ^ i + x) (i + 1) = 2 * reverseBits x i + b := by
  induction i generalizing x with
  | zero =>
    obtain rfl : x = 0 := by omega
    rw [reverseBits_succ, pow_zero, Nat.mul_one, Nat.mul_one, Nat.add_zero, Nat.mod_eq_of_lt hb]
    exact Nat.add_comm b 0
  | succ i ih =>
    rw [pow_succ] at hx
    have hmod : (b * 2 ^ (i + 1) + x) % 2 = x % 2 := by
      rw [pow_succ, ← mul_assoc]
      omega
    have hdiv : (b * 2 ^ (i + 1) + x) / 2 = b * 2 ^ i + x / 2 := by
      rw [pow_succ, ← mul_assoc]
      omega
    rw [reverseBits_succ, hmod, hdiv, ih (by omega), reverseBits_succ x i, pow_succ]
    ring

theorem reverseBits_reverseBits {i x : ℕ} (hx : x < 2 ^ i) :
    reverseBits (reverseBits x i) i = x := by
  induction i generalizing x with
  | zero =>
    rw [pow_zero] at hx
    rw [reverseBits]
    omega
  | succ i ih =>
    rw [pow_succ] at hx
    rw [reverseBits_succ x i, reverseBits_high (reverseBits_lt _ _) _ (Nat.mod_lt x (by decide)),
      ih (by omega)]
    omega

/-- Leading zeros become trailing zeros. -/
theorem reverseBits_wide {i x : ℕ} (hx : x < 2 ^ i) (e : ℕ) :
    reverseBits x (i + e) = 2 ^ e * reverseBits x i := by
  induction e with
  | zero => rw [Nat.add_zero, pow_zero, Nat.one_mul]
  | succ e ih =>
    have hlt : x < 2 ^ (i + e) :=
      hx.trans_le (Nat.pow_le_pow_right (by decide) (Nat.le_add_right _ _))
    have hhigh := reverseBits_high hlt 0 (by decide)
    rw [Nat.zero_mul, Nat.zero_add, Nat.add_zero, ih] at hhigh
    rw [← Nat.add_assoc, hhigh, pow_succ]
    ring

theorem reverseBits_zero (i : ℕ) : reverseBits 0 i = 0 := by
  induction i with
  | zero => rfl
  | succ i ih => rw [reverseBits_succ, Nat.zero_mod, Nat.zero_div, ih, Nat.zero_mul]

/-- The place of factor `i` of a pass in the table of powers. -/
theorem reverseBits_factor {L d i : ℕ} (hd : d < L) (hi : i < 2 ^ d) :
    reverseBits (2 ^ d + i) L = 2 ^ (L - 1 - d) * (2 * reverseBits i d + 1) := by
  have hlt : 2 ^ d + i < 2 ^ (d + 1) := by rw [pow_succ]; omega
  have hhigh := reverseBits_high hi 1 (by decide)
  rw [Nat.one_mul] at hhigh
  rw [show L = d + 1 + (L - 1 - d) by omega, reverseBits_wide hlt, hhigh,
    show d + 1 + (L - 1 - d) - 1 - d = L - 1 - d by omega]

theorem reverseBits_injOn {i x y : ℕ} (hx : x < 2 ^ i) (hy : y < 2 ^ i)
    (h : reverseBits x i = reverseBits y i) : x = y := by
  rw [← reverseBits_reverseBits hx, h, reverseBits_reverseBits hy]

/-! ## The transform -/

section Model

variable {F : Type*} [Field F] [DecidableEq F]

/-- `mod_inv`: zero has no inverse. -/
def modInv (a : F) : Option F := if a = 0 then none else some a⁻¹

/-- `Ntt`, the transform with `2 ^ logDim` values. -/
structure Ntt (F : Type*) where
  /-- `logDim`. -/
  logDim : ℕ
  /-- `invDim`. -/
  invDim : F
  /-- `unity_root_powers`, in bit-reversed order. -/
  unityRootPowers : ℕ → F
  /-- `inv_unity_root_powers`, in bit-reversed order. -/
  invUnityRootPowers : ℕ → F

/-- The loop that fills a table of powers: the first `cnt` entries, and the running power. -/
def rootPowersLoop (logDim : ℕ) (root : F) (cnt : ℕ) : (ℕ → F) × F :=
  (List.range' 1 cnt).foldl (fun (tab, powers) i =>
    let powers := powers * root
    (Function.update tab (reverseBits i logDim) powers, powers))
    (Function.update (fun _ => 0) 0 1, 1)

/-- A table of powers, in bit-reversed order. -/
def rootPowers (logDim : ℕ) (root : F) : ℕ → F := (rootPowersLoop logDim root (2 ^ logDim - 1)).1

/-- The constructor of `Ntt`. -/
def Ntt.init (logDim : ℕ) (unityRoot : F) : Option (Ntt F) :=
  (modInv ((2 ^ logDim : ℕ) : F)).bind fun invDim =>
    (modInv unityRoot).map fun invUnityRoot =>
      { logDim
        invDim
        unityRootPowers := rootPowers logDim unityRoot
        invUnityRootPowers := rootPowers logDim invUnityRoot }

namespace Ntt

/-- `nttInternalInplace`: pass `s` has `m = 2 ^ s` blocks, of two halves of `t` entries. -/
def nttInternalInplace (logDim : ℕ) (res powers : ℕ → F) : ℕ → F :=
  (List.range logDim).foldl (fun res s =>
    Radix2.blockPass (fun i _ u v =>
      let v := v * powers (2 ^ s + i)
      (u + v, u - v)) (2 ^ s) (2 ^ (logDim - 1 - s)) res) res

/-- `inttInternalInplace`: pass `s` has blocks of two halves of `t = 2 ^ s` entries. -/
def inttInternalInplace (logDim : ℕ) (invDim : F) (res powers : ℕ → F) : ℕ → F :=
  let res := (List.range logDim).foldl (fun res s =>
    Radix2.blockPass (fun i _ u v => (u + v, (u - v) * powers (2 ^ (logDim - 1 - s) + i)))
      (2 ^ (logDim - 1 - s)) (2 ^ s) res) res
  fun i => res i * invDim

/-- `nttInternalInplace` of a polynomial with `2 ^ logDimIn` coefficients, in bit-reversed order:
each is given `dup` times, and pass `s` has `m = 2 ^ (logDimIn - 1 - s)` blocks, of two halves of
`t = dup * 2 ^ s` entries. -/
def nttInternalInplaceFixDegree (logDim logDimIn : ℕ) (input powers : ℕ → F) : ℕ → F :=
  let dup := 2 ^ (logDim - logDimIn)
  (List.range logDimIn).foldl (fun res s =>
    let m := 2 ^ (logDimIn - 1 - s)
    Radix2.blockPass (fun _ jj u v =>
      let v := v * powers (reverseBits (m * (2 * jj + 1)) logDim)
      (u + v, u - v)) m (dup * 2 ^ s) res) (fun i => input (i / dup))

/-- `forwardInplace`. -/
def forwardInplace (ntt : Ntt F) (res : ℕ → F) : ℕ → F :=
  nttInternalInplace ntt.logDim res ntt.unityRootPowers

/-- `forwardInplaceFixDegree`. -/
def forwardInplaceFixDegree (ntt : Ntt F) (input : ℕ → F) (logDimIn : ℕ) : ℕ → F :=
  nttInternalInplaceFixDegree ntt.logDim logDimIn input ntt.unityRootPowers

/-- `backwardInplace`. -/
def backwardInplace (ntt : Ntt F) (res : ℕ → F) : ℕ → F :=
  inttInternalInplace ntt.logDim ntt.invDim res ntt.invUnityRootPowers

end Ntt

end Model

/-! ## Tables of powers -/

section Tables

variable {F : Type*} [Field F]

theorem rootPowersLoop_apply (logDim : ℕ) (root : F) {cnt : ℕ} (hcnt : cnt < 2 ^ logDim) :
    (rootPowersLoop logDim root cnt).2 = root ^ cnt ∧
      ∀ j ≤ cnt, (rootPowersLoop logDim root cnt).1 (reverseBits j logDim) = root ^ j := by
  induction cnt with
  | zero =>
    refine ⟨(pow_zero root).symm, fun j hj => ?_⟩
    obtain rfl : j = 0 := by omega
    have hfirst : ∀ tab : ℕ → F, Function.update tab 0 1 0 = 1 := Function.update_self 0 1
    rw [reverseBits_zero, pow_zero]
    exact hfirst fun _ => 0
  | succ cnt ih =>
    obtain ⟨hpow, htab⟩ := ih (by omega)
    have hstep : rootPowersLoop logDim root (cnt + 1)
        = (Function.update (rootPowersLoop logDim root cnt).1 (reverseBits (1 + cnt) logDim)
            ((rootPowersLoop logDim root cnt).2 * root),
          (rootPowersLoop logDim root cnt).2 * root) := by
      rw [rootPowersLoop, List.range'_concat, List.foldl_append, Nat.one_mul]
      rfl
    rw [hstep, hpow, ← pow_succ]
    refine ⟨rfl, fun j hj => ?_⟩
    rcases Nat.lt_or_eq_of_le hj with hlt | rfl
    · -- an entry written earlier is not overwritten, for the indices are reversed differently
      have hne : reverseBits j logDim ≠ reverseBits (1 + cnt) logDim := fun heq => by
        have := reverseBits_injOn (by omega) (by omega) heq
        omega
      exact (Function.update_of_ne hne _ _).trans (htab j (by omega))
    · rw [Nat.add_comm 1 cnt]
      exact Function.update_self _ _ _

theorem rootPowers_apply {logDim : ℕ} (root : F) {x : ℕ} (hx : x < 2 ^ logDim) :
    rootPowers logDim root x = root ^ reverseBits x logDim := by
  have hlt := reverseBits_lt x logDim
  have hcnt : 2 ^ logDim - 1 < 2 ^ logDim := by omega
  have h := (rootPowersLoop_apply logDim root hcnt).2 (reverseBits x logDim) (by omega)
  rwa [reverseBits_reverseBits hx] at h

end Tables

/-! ## What the transforms compute -/

namespace Ntt

variable {F : Type*} [Field F] {ntt : Ntt F} {root : F}

/-- The tables and the scale of a transform are those of `root`. -/
structure Ok (ntt : Ntt F) (root : F) : Prop where
  /-- The number of values is not 0 in the field. -/
  dim_ne : (2 : F) ^ ntt.logDim ≠ 0
  /-- The root is not 0. -/
  root_ne : root ≠ 0
  /-- The scale of the backward transform. -/
  invDim : ntt.invDim = (2 ^ ntt.logDim)⁻¹
  /-- The table of powers. -/
  powers : ∀ x < 2 ^ ntt.logDim, ntt.unityRootPowers x = root ^ reverseBits x ntt.logDim
  /-- The table of inverse powers. -/
  invPowers : ∀ x < 2 ^ ntt.logDim, ntt.invUnityRootPowers x = root⁻¹ ^ reverseBits x ntt.logDim

/-- The constructor fails only where it inverts zero. -/
theorem init_ok [DecidableEq F] {logDim : ℕ} (hdim : (2 : F) ^ logDim ≠ 0) (hroot : root ≠ 0) :
    ∃ ntt, init logDim root = some ntt ∧ ntt.logDim = logDim ∧ ntt.Ok root := by
  have hcast : ((2 ^ logDim : ℕ) : F) = 2 ^ logDim := by rw [Nat.cast_pow, Nat.cast_ofNat]
  rw [init, hcast, modInv, if_neg hdim, modInv, if_neg hroot]
  exact ⟨_, rfl, rfl, hdim, hroot, rfl, fun x hx => rootPowers_apply root hx,
    fun x hx => rootPowers_apply root⁻¹ hx⟩

theorem init_eq_some [DecidableEq F] {logDim : ℕ} (h : init logDim root = some ntt) :
    ntt.logDim = logDim ∧ ntt.Ok root := by
  have hcast : ((2 ^ logDim : ℕ) : F) = 2 ^ logDim := by rw [Nat.cast_pow, Nat.cast_ofNat]
  have hinv : ∀ {a b : F}, modInv a = some b → a ≠ 0 := fun {a b} h ha => by
    rw [modInv, if_pos ha] at h
    cases h
  obtain ⟨invDim, hdim, hrest⟩ := Option.bind_eq_some_iff.mp h
  obtain ⟨invRoot, hroot, -⟩ := Option.map_eq_some_iff.mp hrest
  rw [hcast] at hdim
  obtain ⟨ntt', hinit, hlog, hok⟩ := init_ok (hinv hdim) (hinv hroot)
  rw [h] at hinit
  cases hinit
  exact ⟨hlog, hok⟩

theorem powers_inv (h : ntt.Ok root) :
    ∀ p, 0 < p → p < 2 ^ ntt.logDim → ntt.unityRootPowers p * ntt.invUnityRootPowers p = 1 := by
  intro p _ hp
  rw [h.powers p hp, h.invPowers p hp, ← mul_pow, mul_inv_cancel₀ h.root_ne, one_pow]

/-- **The backward transform undoes the forward transform, whatever the root.** -/
theorem backward_forward (h : ntt.Ok root) {c res : ℕ → F}
    (hres : ∀ p < 2 ^ ntt.logDim, res p = ntt.forwardInplace c p) {p : ℕ}
    (hp : p < 2 ^ ntt.logDim) : ntt.backwardInplace res p = c p := by
  have hnet := Radix2.backward_forward (powers_inv h) c hp
  have hcongr := Radix2.backward_congr ntt.invUnityRootPowers hres le_rfl p hp
  show Radix2.backward ntt.invUnityRootPowers ntt.logDim ntt.logDim res p * ntt.invDim = c p
  rw [hcongr, h.invDim]
  show Radix2.backward _ _ _ (Radix2.forward _ _ _ c) p * _ = _
  rw [hnet, mul_right_comm, mul_inv_cancel₀ h.dim_ne, one_mul]

/-- **The forward transform undoes the backward transform, whatever the root.** -/
theorem forward_backward (h : ntt.Ok root) (c : ℕ → F) {p : ℕ} (hp : p < 2 ^ ntt.logDim) :
    ntt.forwardInplace (ntt.backwardInplace c) p = c p := by
  -- the scale commutes with the passes
  have hscale := Radix2.forward_backward (powers_inv h) (fun i => c i * ntt.invDim) hp
  have hlin : ∀ q < 2 ^ ntt.logDim, ntt.backwardInplace c q
      = Radix2.backward ntt.invUnityRootPowers ntt.logDim ntt.logDim
          (fun i => c i * ntt.invDim) q := fun q hq =>
    (Radix2.backward_mul_right ntt.invUnityRootPowers ntt.invDim c le_rfl q hq).symm
  have hcongr := Radix2.forward_congr ntt.unityRootPowers hlin le_rfl p hp
  show Radix2.forward _ _ _ (ntt.backwardInplace c) p = c p
  rw [hcongr, hscale, h.invDim, mul_left_comm, mul_inv_cancel₀ h.dim_ne, mul_one]

/-- The factors of the forward transform are consistent square roots. -/
theorem consistent (h : ntt.Ok root) (hneg : root ^ 2 ^ ntt.logDim = -1) :
    Radix2.Consistent ntt.unityRootPowers
      (fun d i => root ^ (2 ^ (ntt.logDim - d) * (2 * reverseBits i d + 1))) ntt.logDim := by
  have hfactor : ∀ d < ntt.logDim, ∀ i < 2 ^ d, ntt.unityRootPowers (2 ^ d + i)
      = root ^ (2 ^ (ntt.logDim - 1 - d) * (2 * reverseBits i d + 1)) := fun d hd i hi => by
    have hlt : 2 ^ (d + 1) ≤ 2 ^ ntt.logDim := Nat.pow_le_pow_right (by decide) hd
    rw [pow_succ] at hlt
    rw [h.powers _ (by omega), reverseBits_factor hd hi]
  refine ⟨fun d hd i hi => ?_, fun d hd i hi => ?_, fun d hd i hi => ?_⟩
  · rw [hfactor d hd i hi, ← pow_mul, show ntt.logDim - d = ntt.logDim - 1 - d + 1 by omega]
    congr 1
    ring
  · rw [hfactor d hd i hi, reverseBits_even,
      show ntt.logDim - (d + 1) = ntt.logDim - 1 - d by omega]
  · rw [hfactor d hd i hi, reverseBits_odd, show ntt.logDim - (d + 1) = ntt.logDim - 1 - d by omega]
    have hexp : 2 ^ (ntt.logDim - 1 - d) * (2 * (2 ^ d + reverseBits i d) + 1)
        = 2 ^ ntt.logDim + 2 ^ (ntt.logDim - 1 - d) * (2 * reverseBits i d + 1) := by
      have hsplit : 2 ^ (ntt.logDim - 1 - d) * (2 * 2 ^ d) = 2 ^ ntt.logDim := by
        rw [← pow_succ', ← pow_add]
        congr 1
        omega
      rw [← hsplit]
      ring
    rw [hexp, pow_add, hneg, neg_one_mul]

/-- **The forward transform evaluates at the odd powers of the root**, if its power `2 ^ logDim`
is -1. -/
theorem forward_eq_eval (h : ntt.Ok root) (hneg : root ^ 2 ^ ntt.logDim = -1) (c : ℕ → F) {x : ℕ}
    (hx : x < 2 ^ ntt.logDim) :
    ntt.forwardInplace c x
      = ∑ g ∈ range (2 ^ ntt.logDim), c g * (root ^ (2 * reverseBits x ntt.logDim + 1)) ^ g := by
  have hval := Radix2.forward_eq_eval (consistent h hneg) c hx
  rw [Nat.sub_self, pow_zero, Nat.one_mul] at hval
  exact hval

/-- **Whatever the root**, the values of `c₀ + c₁ X`: at the first half of the points they are
right, at the others the second term has the wrong factor. -/
theorem forward_eq_of_two (h : ntt.Ok root) {L : ℕ} (hL : ntt.logDim = L + 1) {c : ℕ → F}
    (hc : ∀ p, 2 ≤ p → p < 2 ^ ntt.logDim → c p = 0) {y : ℕ} (hy : y < 2 ^ L) :
    ntt.forwardInplace c (reverseBits y ntt.logDim) = c 0 + c 1 * root ^ (2 * y + 1) ∧
      ntt.forwardInplace c (reverseBits (2 ^ L + y) ntt.logDim)
        = c 0 - c 1 * root ^ (2 * y + 1) := by
  have hrev := reverseBits_lt y L
  have hlow : reverseBits y ntt.logDim = 2 * reverseBits y L := by
    rw [hL, reverseBits_wide hy, pow_one]
  have hhigh : reverseBits (2 ^ L + y) ntt.logDim = 2 * reverseBits y L + 1 := by
    have := reverseBits_high hy 1 (by decide)
    rwa [Nat.one_mul, ← hL] at this
  have hpower : ntt.unityRootPowers (2 ^ L + reverseBits y L) = root ^ (2 * y + 1) := by
    rw [h.powers _ (by rw [hL, pow_succ]; omega), reverseBits_factor (by omega) hrev,
      reverseBits_reverseBits hy, show ntt.logDim - 1 - L = 0 by omega, pow_zero, Nat.one_mul]
  have hnet := Radix2.forward_eq_of_two ntt.unityRootPowers (hL ▸ hc) hrev
  rw [← hL, hpower] at hnet
  rw [hlow, hhigh]
  exact hnet

/-- **The values of a polynomial of lower degree**, in natural order. -/
theorem forwardFixDegree_eq_eval (h : ntt.Ok root) (hneg : root ^ 2 ^ ntt.logDim = -1) {K : ℕ}
    (hK : K ≤ ntt.logDim) {c input : ℕ → F} (hinput : ∀ i < 2 ^ K, input i = c (reverseBits i K))
    {x : ℕ} (hx : x < 2 ^ ntt.logDim) :
    ntt.forwardInplaceFixDegree input K x
      = ∑ g ∈ range (2 ^ K), c g * (root ^ (2 * x + 1)) ^ g := by
  obtain ⟨e, he⟩ : ∃ e, ntt.logDim = K + e := ⟨ntt.logDim - K, by omega⟩
  have hdup : 2 ^ (ntt.logDim - K) = 2 ^ e := by rw [he, Nat.add_sub_cancel_left]
  have hsize : 2 ^ e * 2 ^ K = 2 ^ ntt.logDim := by rw [← pow_add, he, Nat.add_comm]
  have hsplit : ∀ d < K, 2 ^ (K - 1 - d) * (2 * 2 ^ d) = 2 ^ K := fun d hd => by
    rw [← pow_succ', ← pow_add]
    congr 1
    omega
  have hfactor : ∀ d < K, ∀ j < 2 ^ e * 2 ^ d,
      ntt.unityRootPowers (reverseBits (2 ^ (K - 1 - d) * (2 * j + 1)) ntt.logDim)
        = root ^ (2 ^ (K - 1 - d) * (2 * j + 1)) := fun d hd j hj => by
    have hlt : 2 ^ (K - 1 - d) * (2 * j + 1) < 2 ^ ntt.logDim := by
      have hwhole : 2 ^ (K - 1 - d) * (2 * (2 ^ e * 2 ^ d)) = 2 ^ ntt.logDim := by
        rw [← hsize, ← hsplit d hd]
        ring
      rw [← hwhole]
      exact Nat.mul_lt_mul_of_pos_left (by omega) (Nat.two_pow_pos _)
    rw [h.powers _ (reverseBits_lt _ _), reverseBits_reverseBits hlt]
  have hpoints : Radix2.Points
      (fun d j => ntt.unityRootPowers (reverseBits (2 ^ (K - 1 - d) * (2 * j + 1)) ntt.logDim))
      (fun d j => root ^ (2 ^ (K - d) * (2 * j + 1))) (2 ^ e) K := by
    refine ⟨fun d hd j hj => ?_, fun d hd j hj => ?_, fun d hd j hj => ?_⟩
    · simp only [hfactor d hd j hj, ← pow_mul]
      rw [show K - d = K - 1 - d + 1 by omega]
      congr 1
      ring
    · simp only [hfactor d hd j hj]
      rw [show K - (d + 1) = K - 1 - d by omega]
    · simp only [hfactor d hd j hj]
      have hexp : 2 ^ (K - (d + 1)) * (2 * (j + 2 ^ e * 2 ^ d) + 1)
          = 2 ^ ntt.logDim + 2 ^ (K - 1 - d) * (2 * j + 1) := by
        rw [← hsize, ← hsplit d hd, show K - (d + 1) = K - 1 - d by omega]
        ring
      rw [hexp, pow_add, hneg, neg_one_mul]
  have hnum : Radix2.Numbering fun e i => reverseBits i e :=
    ⟨fun e i => reverseBits_even i e, fun e i => reverseBits_odd i e⟩
  obtain ⟨res, hres⟩ : ∃ res : ℕ → F, res = fun p => input (p / 2 ^ e) := ⟨_, rfl⟩
  have hstart : ∀ i < 2 ^ K, ∀ j < 2 ^ e, res (2 ^ e * i + j) = c (reverseBits i K) := by
    intro i hi j hj
    have hdiv : (2 ^ e * i + j) / 2 ^ e = i := by
      rw [Nat.mul_add_div (Nat.two_pow_pos e), Nat.div_eq_of_lt hj, Nat.add_zero]
    rw [hres, ← hinput i hi]
    exact congrArg input hdiv
  have hval := Radix2.grow_eq_eval hpoints hnum rfl hstart (hsize ▸ hx)
  rw [Nat.sub_self, pow_zero, Nat.one_mul] at hval
  rw [forwardInplaceFixDegree, nttInternalInplaceFixDegree, hdup, ← hres]
  exact hval

end Ntt

end VoleZk.Mvzk
