import VoleZk.Lib.Euclid
import VoleZk.Mvzk.Fp59

/-!
# `FP59`: inverses and lazy sums

`mod_inv` runs Euclid's algorithm on signed 64-bit integers, where an overflow has no meaning at
all: here every signed operation is checked, and a computation that overflows has no result.  The
loop itself needs no bound on the number of its turns, since a remainder gets smaller whatever the
cofactors do.

## What is here

* `FP59.Residue` — a word is the canonical one of a field element;
* `FP59.modInvBody`, `FP59.modInvLoop`, `FP59.modInv`;
* `FP59.modInv_spec` — **the inverse of every nonzero canonical word, with no overflow**;
* `FP59.addRaw`, `FP59.reduce`, and `FP59.reduce_foldl_addRaw` — **up to `lazy_adds` raw additions
  and one reduction give the sum**.
-/

set_option autoImplicit false

namespace VoleZk

namespace FP59

/-! ## Canonical words -/

/-- The word is the canonical one of the field element. -/
def Residue (x : ℕ) (z : ZMod P59) : Prop := x < P59 ∧ (x : ZMod P59) = z

theorem residue_mod (x : ℕ) : Residue (x % P59) x := ⟨Nat.mod_lt _ P59_pos, ZMod.natCast_mod x P59⟩

theorem residue_self {x : ℕ} (hx : x < P59) : Residue x x := ⟨hx, rfl⟩

/-- There is one canonical word. -/
theorem Residue.unique {x y : ℕ} {z : ZMod P59} (hx : Residue x z) (hy : Residue y z) : x = y :=
  eq_of_cast_eq hx.1 hy.1 (hx.2.trans hy.2.symm)

theorem residue_iff {x : ℕ} (n : ℕ) : Residue x n ↔ x = n % P59 :=
  ⟨fun h => h.unique (residue_mod n), fun h => h ▸ residue_mod n⟩

/-! ## The inverse -/

/-- The signed reading of a word. -/
def toInt64 (x : ℕ) : ℤ := if x < 2 ^ 63 then x else x - 2 ^ 64

/-- A signed operation has a result if it does not overflow. -/
def int64 (x : ℤ) : Option ℤ := if -2 ^ 63 ≤ x ∧ x < 2 ^ 63 then some x else none

theorem int64_eq_some {x : ℤ} (h : |x| ≤ P59) : int64 x = some x := by
  have hP : (P59 : ℤ) = 576460752034988033 := rfl
  obtain ⟨hl, hu⟩ := abs_le.mp h
  exact if_pos ⟨by omega, by omega⟩

theorem eq_of_int64 {x y : ℤ} (h : int64 x = some y) : x = y := by
  rw [int64] at h
  split at h
  · exact Option.some_inj.mp h
  · exact absurd h.symm (Option.some_ne_none _)

/-- The body of the loop of `mod_inv`. -/
def modInvBody (s : Euclid.State) : Option Euclid.State := do
  let q ← int64 (s.r.tdiv s.newR)
  let qk ← int64 (q * s.newK)
  let newK ← int64 (s.k - qk)
  let qr ← int64 (q * s.newR)
  let newR ← int64 (s.r - qr)
  return ⟨s.newK, newK, s.newR, newR⟩

theorem modInvBody_newR {s s' : Euclid.State} (h : modInvBody s = some s') :
    s'.newR = s.r.tmod s.newR := by
  simp only [modInvBody, Option.bind_eq_bind, Option.bind_eq_some_iff, Option.pure_def,
    Option.some_inj] at h
  obtain ⟨q, hq, qk, -, k, -, qr, hqr, r, hr, rfl⟩ := h
  rw [← eq_of_int64 hr, ← eq_of_int64 hqr, ← eq_of_int64 hq, Int.tmod_def, mul_comm]

/-- The loop of `mod_inv`. -/
def modInvLoop (s : Euclid.State) : Option Euclid.State :=
  if s.newR = 0 then some s
  else
    match _h : modInvBody s with
    | none => none
    | some s' => modInvLoop s'
termination_by s.newR.natAbs
decreasing_by
  -- a remainder is smaller than the divisor, whatever the signs
  rw [modInvBody_newR _h, Int.natAbs_tmod]
  exact Nat.mod_lt _ (by omega)

/-- `mod_inv`: `none` if the program stops on 0, or if a signed operation overflows. -/
def modInv (a : ℕ) : Option ℕ :=
  if a = 0 then none
  else do
    let s ← modInvLoop (Euclid.start (toInt64 P59) (toInt64 a))
    let k ← (if s.k < 0 then int64 (s.k + toInt64 P59) else some s.k : Option ℤ)
    return (k % 2 ^ 64).toNat

theorem modInvBody_eq {a : ℤ} {s : Euclid.State} (h : Euclid.Inv P59 a s) (h0 : s.newR ≠ 0) :
    modInvBody s = some s.next := by
  have hdiv : s.r.tdiv s.newR = s.r / s.newR := Int.tdiv_eq_ediv_of_nonneg h.r_pos.le
  have hq : |s.r / s.newR| ≤ P59 := by
    rw [abs_of_nonneg h.quotient_nonneg]
    exact h.quotient_le
  have hr : 0 ≤ s.r - s.r / s.newR * s.newR := (h.next h0).newR_nonneg
  have hqr : 0 ≤ s.r / s.newR * s.newR := mul_nonneg h.quotient_nonneg h.newR_nonneg
  have hle := h.r_le
  have hk : |s.k - s.r / s.newR * s.newK| ≤ P59 := (h.next h0).abs_newK_le
  simp only [modInvBody, hdiv, int64_eq_some hq, Option.bind_eq_bind, Option.bind_some,
    int64_eq_some (h.quotient_mul_le h0), int64_eq_some hk,
    int64_eq_some (x := s.r / s.newR * s.newR) (by rw [abs_of_nonneg hqr]; omega),
    int64_eq_some (x := s.r - s.r / s.newR * s.newR) (by rw [abs_of_nonneg hr]; omega)]
  rfl

/-- **The loop ends with the inverse**, from every state of the algorithm. -/
theorem modInvLoop_spec {a : ℤ} {s : Euclid.State} (h : Euclid.Inv P59 a s) :
    ∃ s', modInvLoop s = some s' ∧ |s'.k| < P59 ∧ s'.k * a ≡ 1 [ZMOD P59] := by
  by_cases h0 : s.newR = 0
  · refine ⟨s, ?_, h.abs_k_lt, h.inverse h0⟩
    rw [modInvLoop, if_pos h0]
  · have hlt : s.next.newR.natAbs < s.newR.natAbs := by
      have hlt := (h.next h0).newR_lt
      have hnonneg := (h.next h0).newR_nonneg
      have hnext : s.next.r = s.newR := rfl
      omega
    obtain ⟨s', hs', hrest⟩ := modInvLoop_spec (h.next h0)
    refine ⟨s', ?_, hrest⟩
    rw [modInvLoop, if_neg h0]
    split
    · rename_i hnone
      rw [modInvBody_eq h h0] at hnone
      exact absurd hnone (Option.some_ne_none _)
    · rename_i t ht
      rw [modInvBody_eq h h0, Option.some_inj] at ht
      rwa [← ht]
termination_by s.newR.natAbs

theorem toInt64_of_lt {x : ℕ} (hx : x ≤ P59) : toInt64 x = x := by
  have hP := P59_eq
  exact if_pos (by omega)

theorem isCoprime_P59 {a : ℕ} (ha : a < P59) (h0 : a ≠ 0) : IsCoprime (P59 : ℤ) a := by
  rw [Nat.isCoprime_iff_coprime, P59_prime.coprime_iff_not_dvd]
  exact Nat.not_dvd_of_pos_of_lt (Nat.pos_of_ne_zero h0) ha

/-- **`mod_inv` inverts every nonzero canonical word**, and nothing overflows on the way. -/
theorem modInv_spec {a : ℕ} (ha : a < P59) (h0 : a ≠ 0) :
    ∃ k, modInv a = some k ∧ Residue k (a : ZMod P59)⁻¹ := by
  have hP : (P59 : ℤ) = 576460752034988033 := rfl
  have hinv : Euclid.Inv P59 a (Euclid.start P59 a) :=
    Euclid.inv_start (by omega) (by omega) (isCoprime_P59 ha h0)
  obtain ⟨s, hs, hsize, hone⟩ := modInvLoop_spec hinv
  obtain ⟨hl, hu⟩ := abs_lt.mp hsize
  -- the representative that the last line picks
  obtain ⟨k, hk, hk0, hkP, hcong⟩ : ∃ k : ℤ,
      (if s.k < 0 then int64 (s.k + P59) else some s.k) = some k ∧ 0 ≤ k ∧ k < P59 ∧
        k ≡ s.k [ZMOD P59] := by
    by_cases hneg : s.k < 0
    · refine ⟨s.k + P59, ?_, by omega, by omega, Int.add_modEq_right⟩
      rw [if_pos hneg, int64_eq_some]
      rw [abs_of_nonneg (by omega)]
      omega
    · exact ⟨s.k, if_neg hneg, by omega, by omega, Int.ModEq.refl _⟩
  refine ⟨k.toNat, ?_, by omega, ?_⟩
  · rw [modInv, if_neg h0, toInt64_of_lt le_rfl, toInt64_of_lt ha.le, hs]
    simp only [Option.bind_eq_bind, Option.bind_some, hk]
    rw [Int.emod_eq_of_lt hk0 (by omega)]
    rfl
  · have hmul : ((k.toNat : ℤ) : ZMod P59) * ((a : ℤ) : ZMod P59) = ((1 : ℤ) : ZMod P59) := by
      rw [← Int.cast_mul, ZMod.intCast_eq_intCast_iff, Int.toNat_of_nonneg hk0]
      exact (hcong.mul_right _).trans hone
    rw [Int.cast_natCast, Int.cast_natCast, Int.cast_one] at hmul
    exact eq_inv_of_mul_eq_one_left hmul

/-! ## Lazy sums -/

/-- `lazy_adds`. -/
def lazyAdds : ℕ := 16

/-- `add_raw`. -/
def addRaw (x y : ℕ) : ℕ := word (x + y)

/-- `reduce`. -/
def reduce (x : ℕ) : ℕ := mod x

/-- Raw additions add up as long as there is room for them. -/
theorem foldl_addRaw {l : List ℕ} {x m : ℕ} (hl : ∀ y ∈ l, y < P59) (hx : x ≤ m * P59)
    (hm : m + l.length ≤ 17) :
    l.foldl addRaw x = x + l.sum ∧ x + l.sum ≤ (m + l.length) * P59 := by
  induction l generalizing x m with
  | nil => simpa using hx
  | cons y l ih =>
    have hP := P59_eq
    rw [List.forall_mem_cons] at hl
    rw [List.length_cons] at hm
    have hnext : x + y ≤ (m + 1) * P59 := by
      rw [add_one_mul]
      omega
    have hroom : (m + 1) * P59 ≤ 17 * P59 := Nat.mul_le_mul_right _ (by omega)
    have hstep : addRaw x y = x + y := word_of_lt (by omega)
    have hrest := ih hl.2 hnext (by omega)
    rw [List.foldl_cons, hstep, List.sum_cons, List.length_cons, ← add_assoc, ← add_assoc,
      add_right_comm m]
    exact hrest

/-- **Up to `lazy_adds` raw additions and one reduction are the sum.** -/
theorem reduce_foldl_addRaw {l : List ℕ} {x : ℕ} (hx : x < P59) (hl : ∀ y ∈ l, y < P59)
    (hlen : l.length ≤ lazyAdds) : reduce (l.foldl addRaw x) = (x + l.sum) % P59 := by
  have hP := P59_eq
  rw [lazyAdds] at hlen
  obtain ⟨hsum, hle⟩ := foldl_addRaw (x := x) (m := 1) hl (by omega) (by omega)
  have hroom : (1 + l.length) * P59 ≤ 17 * P59 := Nat.mul_le_mul_right _ (by omega)
  rw [reduce, hsum, mod_eq (by omega)]

end FP59

end VoleZk
