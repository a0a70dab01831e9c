import VoleZk.Mvzk.Poly
import Mathlib.Tactic.IntervalCases

/-!
# Where the points of parties and secrets lie

The points of the parties are the odd powers of one root, those of the secrets the odd powers of
another.  All roots are powers of the generator, so that two points coincide when their exponents
are congruent modulo `p - 1 = 2 ^ 28 * (2 ^ 31 - 1)`.  Up to `2 ^ 27` the exponent of the root for
`2 ^ d` is `(p - 1) / 2 ^ d`; at `2 ^ 28` it lost its lowest bit; from `2 ^ 29` on the field has no
root of that order, and the exponent is what the field makes of the quotient.

## What is here

* `wideLog`, the exponents from `2 ^ 27` on, and `primitiveRoot_wideLog`;
* `Poly.injOn_evalPointsN`, `Poly.injOn_evalPointsK`, `Poly.separated_of_le` — **the points are
  different** up to `2 ^ 29` parties;
* `Poly.evalPointsK_three` — **`2 ^ 30` parties, four secrets**: the last secret lies at the point
  of the last party.
-/

set_option autoImplicit false

open Finset

namespace VoleZk.Mvzk

/-! ## The exponents of the roots -/

theorem orderOf_three_pow_odd_part : orderOf ((3 : ZMod P59) ^ 2 ^ 28) = 2 ^ 31 - 1 := by
  have := Fact.mk mersenne_prime
  exact orderOf_eq_prime (by rw [← pow_mul]; exact generator_pow) generator_pow_odd_part

/-- Half-way around the group, and around it. -/
theorem three_pow_half_mul {o : ℕ} (ho : Odd o) : (3 : ZMod P59) ^ ((P59 - 1) / 2 * o) = -1 := by
  rw [pow_mul, three_pow_half, ho.neg_one_pow]

theorem three_pow_full_mul (o : ℕ) : (3 : ZMod P59) ^ ((P59 - 1) * o) = 1 := by
  have hfull : (3 : ZMod P59) ^ (P59 - 1) = 1 := generator_pow
  rw [pow_mul, hfull, one_pow]

/-- Powers of the generator are different if as many steps take one to -1 and the other to 1. -/
theorem three_pow_ne_of_half {a b s o c : ℕ} (ha : a * s = (P59 - 1) / 2 * o) (ho : Odd o)
    (hb : b * s = (P59 - 1) * c) (m i : ℕ) :
    ((3 : ZMod P59) ^ a) ^ (2 * m + 1) ≠ (3 ^ b) ^ (2 * i + 1) := by
  intro heq
  refine neg_one_ne_one_P59 ?_
  calc (-1 : ZMod P59) = (3 ^ (a * s)) ^ (2 * m + 1) := by
        rw [ha, three_pow_half_mul ho, Odd.neg_one_pow ⟨m, rfl⟩]
    _ = ((3 ^ a) ^ (2 * m + 1)) ^ s := by rw [pow_mul, pow_right_comm]
    _ = ((3 ^ b) ^ (2 * i + 1)) ^ s := by rw [heq]
    _ = (3 ^ (b * s)) ^ (2 * i + 1) := by rw [pow_mul, pow_right_comm]
    _ = 1 := by rw [hb, three_pow_full_mul, one_pow]

/-- The exponent of the root for `2 * 2 ^ d`, from `d = 27` to `d = 54`. -/
def wideLog (d : ℕ) : ℕ := if d = 27 then 2 ^ 31 - 2 else 2 ^ (55 - d) * (2 ^ 31 + 7)

theorem primitiveRoot_wideLog {d : ℕ} (hd : 27 ≤ d) (hle : d ≤ 30) :
    primitiveRoot (2 * 2 ^ d) = some (3 ^ wideLog d) := by
  rw [← pow_succ', wideLog]
  interval_cases d
  · rw [primitiveRoot_of_exponent (e := 2 ^ 31 - 1) (by decide) (by decide)]
    norm_num
  · rw [primitiveRoot_of_exponent (e := 2 ^ 27 * (2 ^ 31 + 7)) (by decide) (by decide)]
    norm_num
  · rw [primitiveRoot_of_exponent (e := 2 ^ 26 * (2 ^ 31 + 7)) (by decide) (by decide)]
    norm_num
  · rw [primitiveRoot_of_exponent (e := 2 ^ 25 * (2 ^ 31 + 7)) (by decide) (by decide)]
    norm_num

/-- The odd part of a root that is not right. -/
theorem orderOf_wide {d : ℕ} (hd : 27 ≤ d) (hle : d ≤ 30) {w : ZMod P59}
    (hw : primitiveRoot (2 * 2 ^ d) = some w) : orderOf (w ^ 2 ^ 28) = 2 ^ 31 - 1 := by
  rw [primitiveRoot_wideLog hd hle, Option.some_inj] at hw
  have hcoprime : Nat.Coprime (2 ^ 31 - 1) (wideLog d) := by
    rw [wideLog]
    interval_cases d <;> norm_num
  rw [← hw, pow_right_comm, Nat.Coprime.orderOf_pow (by rwa [orderOf_three_pow_odd_part]),
    orderOf_three_pow_odd_part]

/-! ## Odd powers -/

section OddPowers

variable {M : Type*} [Monoid M] {w : M} {q i j : ℕ}

/-- Odd powers, from the order of another power. -/
theorem eq_of_odd_pow_eq (horder : orderOf (w ^ q) = 2 ^ 31 - 1) (hi : i < 2 ^ 30)
    (hj : j < 2 ^ 30) (heq : w ^ (2 * i + 1) = w ^ (2 * j + 1)) : i = j := by
  have hfin : IsOfFinOrder (w ^ q) := orderOf_pos_iff.mp (by rw [horder]; decide)
  have hodd : (w ^ q) ^ (2 * i + 1) = (w ^ q) ^ (2 * j + 1) := by
    rw [pow_right_comm, heq, pow_right_comm]
  have hdouble := (hfin.pow_eq_pow_iff_modEq.mp hodd).add_right_cancel'
  rw [horder] at hdouble
  have hmod := Nat.ModEq.cancel_left_of_coprime (by decide) hdouble
  exact hmod.eq_of_lt_of_lt (hi.trans (by decide)) (hj.trans (by decide))

theorem odd_pow_pow_ne_one (horder : orderOf (w ^ q) = 2 ^ 31 - 1) (hi : 2 * i + 1 < 2 ^ 31 - 1) :
    (w ^ (2 * i + 1)) ^ q ≠ 1 := by
  intro hone
  rw [pow_right_comm, ← orderOf_dvd_iff_pow_eq_one, horder] at hone
  exact absurd (Nat.le_of_dvd (Nat.succ_pos _) hone) (not_le.mpr hi)

end OddPowers

/-- The odd powers of a root are different. -/
theorem injOn_root_pow {d : ℕ} (hd : d ≤ 30) {w : ZMod P59}
    (hw : primitiveRoot (2 * 2 ^ d) = some w) :
    Set.InjOn (fun i => w ^ (2 * i + 1)) (range (2 ^ d)) := by
  rcases Nat.lt_or_ge d 27 with hlt | hge
  · exact Poly.injOn_odd_pow two_ne_zero_P59 (primitiveRoot_half (Nat.le_of_lt_succ hlt) hw)
  · intro i hi j hj heq
    have hwide : 2 ^ d ≤ 2 ^ 30 := Nat.pow_le_pow_right (by decide) hd
    exact eq_of_odd_pow_eq (orderOf_wide hge hd hw) ((mem_range.mp hi).trans_le hwide)
      ((mem_range.mp hj).trans_le hwide) heq

theorem right_pow_eq_one {d : ℕ} (hd : d ≤ 26) {v : ZMod P59}
    (hv : primitiveRoot (2 * 2 ^ d) = some v) (m : ℕ) {s : ℕ} (hs : d < s) :
    (v ^ (2 * m + 1)) ^ 2 ^ s = 1 := by
  rw [← pow_mul, ← orderOf_dvd_iff_pow_eq_one,
    orderOf_of_half two_ne_zero_P59 (primitiveRoot_half hd hv)]
  exact Dvd.dvd.mul_left (pow_dvd_pow 2 hs) _

/-- The odd part of a wrong root tells its powers from those of a right one. -/
theorem right_pow_ne_wide {d e : ℕ} (hd : d ≤ 26) (he : 27 ≤ e) (hle : e ≤ 30) {v w : ZMod P59}
    (hv : primitiveRoot (2 * 2 ^ d) = some v) (hw : primitiveRoot (2 * 2 ^ e) = some w) (m : ℕ)
    {i : ℕ} (hi : 2 * i + 1 < 2 ^ 31 - 1) : v ^ (2 * m + 1) ≠ w ^ (2 * i + 1) := by
  intro heq
  have hone := right_pow_eq_one hd hv m (show d < 28 by omega)
  rw [heq] at hone
  exact odd_pow_pow_ne_one (orderOf_wide he hle hw) hi hone

/-- Odd powers of the roots for two sizes are different. -/
theorem root_pow_ne {d e : ℕ} (hlt : d < e) (he : e ≤ 29) {v w : ZMod P59}
    (hv : primitiveRoot (2 * 2 ^ d) = some v) (hw : primitiveRoot (2 * 2 ^ e) = some w) (m : ℕ)
    {i : ℕ} (hi : i < 2 ^ e) : v ^ (2 * m + 1) ≠ w ^ (2 * i + 1) := by
  rcases Nat.lt_or_ge d 27 with hd | hd
  · rcases Nat.lt_or_ge e 27 with he27 | he27
    · -- after `2 ^ e` steps the odd powers of the larger root are at -1
      intro heq
      have hone := right_pow_eq_one (Nat.le_of_lt_succ hd) hv m hlt
      rw [heq, pow_right_comm, primitiveRoot_half (Nat.le_of_lt_succ he27) hw,
        Odd.neg_one_pow ⟨i, rfl⟩] at hone
      exact neg_one_ne_one_P59 hone
    · have hi' : i < 2 ^ 29 := hi.trans_le (Nat.pow_le_pow_right (by decide) he)
      exact right_pow_ne_wide (Nat.le_of_lt_succ hd) he27 (he.trans (by decide)) hv hw m (by omega)
  · -- both roots are wrong; their even parts have different orders
    rw [primitiveRoot_wideLog hd (by omega), Option.some_inj] at hv
    rw [primitiveRoot_wideLog (by omega) (he.trans (by decide)), Option.some_inj] at hw
    subst hv hw
    have hd28 : d ≤ 28 := by omega
    interval_cases d
    · interval_cases e
      · exact three_pow_ne_of_half (s := 2 ^ 26 * (2 ^ 31 - 1)) (o := 2 ^ 30 - 1)
          (c := 2 ^ 25 * (2 ^ 31 + 7)) (by decide) (by decide) (by decide) m i
      · exact three_pow_ne_of_half (s := 2 ^ 26 * (2 ^ 31 - 1)) (o := 2 ^ 30 - 1)
          (c := 2 ^ 24 * (2 ^ 31 + 7)) (by decide) (by decide) (by decide) m i
    · obtain rfl : e = 29 := by omega
      exact (three_pow_ne_of_half (s := 2 * (2 ^ 31 - 1)) (o := 2 ^ 31 + 7)
        (c := 2 ^ 31 + 7) (by decide) (by decide) (by decide) i m).symm

/-- **With four secrets and `2 ^ 30` parties**, the last secret lies at the point of the last
party. -/
theorem root_pow_collide {v w : ZMod P59} (hv : primitiveRoot (2 * 2 ^ 2) = some v)
    (hw : primitiveRoot (2 * 2 ^ 30) = some w) : v ^ (2 * 3 + 1) = w ^ (2 * (2 ^ 30 - 1) + 1) := by
  rw [← pow_succ', primitiveRoot_two_pow (by decide), Option.some_inj] at hv
  rw [primitiveRoot_wideLog (by decide) le_rfl, Option.some_inj] at hw
  have hexp : wideLog 30 * (2 * (2 ^ 30 - 1) + 1)
      = (2 ^ 31 - 1) * 2 ^ (28 - (2 + 1)) * (2 * 3 + 1) + (P59 - 1) * 2 ^ 28 := by decide
  rw [← hv, ← hw, ← pow_mul, ← pow_mul, hexp, pow_add, three_pow_full_mul, mul_one]

/-! ## The points -/

namespace Poly

/-- No secret lies at the point of a party. -/
def Separated {F : Type*} [Field F] (poly : Poly F) : Prop :=
  ∀ m < poly.k, ∀ i < poly.n, poly.evalPointsK m ≠ poly.evalPointsN i

section Init

variable {logK logN : ℕ} {poly : Poly (ZMod P59)} (h : init logK logN = some poly)
include h

/-- The points of the parties are different. -/
theorem injOn_evalPointsN (hle : logN ≤ 30) : Set.InjOn poly.evalPointsN (range poly.n) := by
  obtain ⟨-, -, hlogN, -, hroot, -⟩ := init_eq_some h
  have hinj := injOn_root_pow hle hroot
  rwa [← hlogN, ← funext (evalPointsN_eq poly)] at hinj

/-- The points of the secrets are different. -/
theorem injOn_evalPointsK (hle : logK ≤ 30) : Set.InjOn poly.evalPointsK (range poly.k) := by
  obtain ⟨-, hlogK, -, hroot, -, -⟩ := init_eq_some h
  have hinj := injOn_root_pow hle hroot
  rwa [← hlogK, ← funext (evalPointsK_eq poly)] at hinj

/-- **Up to `2 ^ 29` parties** no secret lies at the point of a party. -/
theorem separated_of_le (hlt : logK < logN) (hle : logN ≤ 29) : poly.Separated := by
  obtain ⟨-, -, hlogN, hrootK, hrootN, -⟩ := init_eq_some h
  intro m _ i hi
  rw [evalPointsK_eq, evalPointsN_eq]
  exact root_pow_ne hlt hle hrootK hrootN m (hlogN ▸ hi)

end Init

/-- **Four secrets and `2 ^ 30` parties**: the last secret lies at the point of the last party. -/
theorem evalPointsK_three {poly : Poly (ZMod P59)} (h : init 2 30 = some poly) :
    poly.evalPointsK 3 = poly.evalPointsN (2 ^ 30 - 1) := by
  obtain ⟨-, -, -, hrootK, hrootN, -⟩ := init_eq_some h
  rw [evalPointsK_eq, evalPointsN_eq]
  exact root_pow_collide hrootK hrootN

/-- And no secret at the point of another party. -/
theorem evalPointsK_ne_of_lt {poly : Poly (ZMod P59)} (h : init 2 30 = some poly) (m : ℕ) {i : ℕ}
    (hi : i < 2 ^ 30 - 1) : poly.evalPointsK m ≠ poly.evalPointsN i := by
  obtain ⟨-, -, -, hrootK, hrootN, -⟩ := init_eq_some h
  rw [evalPointsK_eq, evalPointsN_eq]
  exact right_pow_ne_wide (by decide) (by decide) le_rfl hrootK hrootN m (by omega)

end Poly

end VoleZk.Mvzk
