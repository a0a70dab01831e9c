import Mathlib.NumberTheory.LucasPrimality
import Mathlib.NumberTheory.LucasLehmer
import Mathlib.Data.ZMod.Basic
import Mathlib.Data.Nat.Bitwise
import Mathlib.Tactic.ReduceModChar
import Mathlib.Tactic.LinearCombination

/-!
# `FP59`: words modulo `2 ^ 59 - 2 ^ 28 + 1`

The field of the multi-verifier engine, as 64-bit machine arithmetic: a word is a natural number,
and every operation that may leave the range of a word is reduced modulo `2 ^ 64`.  On canonical
operands the routines compute in the field, which is what lets everything above the field layer be
modelled over `ZMod P59`; on other words they need not, and `MvzkExec::reveal` hands them such
words.

## What is here

* `P59`, `P59_prime`, and the generator 3;
* `FP59.mod`, `FP59.addMod`, `FP59.multMod`, `FP59.sub`, `FP59.negate`;
* `FP59.multMod_eq`, `FP59.addMod_eq` — **exactness on canonical operands**;
* `FP59.multMod_one` — multiplication by 1 reduces every word.
-/

set_option autoImplicit false

namespace VoleZk

/-! ## The prime -/

/-- The modulus of `FP59`. -/
def P59 : ℕ := 2 ^ 59 - 2 ^ 28 + 1

theorem P59_eq : P59 = 576460752034988033 := rfl

theorem P59_sub_one : P59 - 1 = 2 ^ 28 * (2 ^ 31 - 1) := rfl

theorem generator_pow : (3 : ZMod 576460752034988033) ^ 576460752034988032 = 1 := by
  reduce_mod_char

theorem generator_pow_half : (3 : ZMod 576460752034988033) ^ 288230376017494016 = -1 := by
  reduce_mod_char

theorem generator_pow_odd_part : (3 : ZMod 576460752034988033) ^ 268435456 ≠ 1 := by
  reduce_mod_char
  decide

/-- `FP59::Generator` generates: its order is `P59 - 1`, whose prime factors are 2 and
`2 ^ 31 - 1`. -/
theorem three_pow_half : (3 : ZMod P59) ^ ((P59 - 1) / 2) = -1 := generator_pow_half

theorem mersenne_prime : (2 ^ 31 - 1).Prime :=
  (lucas_lehmer_sufficiency _ (by norm_num) (by norm_num) : (mersenne 31).Prime)

theorem neg_one_ne_one_P59 : (-1 : ZMod P59) ≠ 1 := by
  show (-1 : ZMod 576460752034988033) ≠ 1
  decide

theorem three_pow_div_ne_one {q : ℕ} (hq : q.Prime) (hdvd : q ∣ P59 - 1) :
    (3 : ZMod P59) ^ ((P59 - 1) / q) ≠ 1 := by
  rw [P59_sub_one, hq.dvd_mul] at hdvd
  rcases hdvd with h | h
  · rw [(Nat.prime_dvd_prime_iff_eq hq Nat.prime_two).mp (hq.dvd_of_dvd_pow h), three_pow_half]
    exact neg_one_ne_one_P59
  · rw [(Nat.prime_dvd_prime_iff_eq hq mersenne_prime).mp h]
    exact generator_pow_odd_part

theorem P59_prime : P59.Prime :=
  lucas_primality P59 (3 : ZMod P59) generator_pow fun _ => three_pow_div_ne_one

instance : Fact P59.Prime := ⟨P59_prime⟩

theorem P59_pos : 0 < P59 := P59_prime.pos

/-! ## Word arithmetic -/

/-- A 64-bit word: what is left of a number in a machine register. -/
def word (n : ℕ) : ℕ := n % 2 ^ 64

/-- Subtraction of words. -/
def wordSub (a b : ℕ) : ℕ := word (a + 2 ^ 64 - b)

theorem word_of_lt {n : ℕ} (h : n < 2 ^ 64) : word n = n := Nat.mod_eq_of_lt h

theorem wordSub_of_le {a b : ℕ} (ha : a < 2 ^ 64) (h : b ≤ a) : wordSub a b = a - b := by
  rw [wordSub, word, show a + 2 ^ 64 - b = 2 ^ 64 + (a - b) by omega, Nat.add_mod_left,
    Nat.mod_eq_of_lt (by omega)]

namespace FP59

/-- `PR_mask`. -/
def mask : ℕ := 2 ^ 59 - 1

/-- `mod`: a word modulo `P59`, by folding its top five bits once. -/
def mod (x : ℕ) : ℕ :=
  let hi := x >>> 59
  let r := word (wordSub (word (hi <<< 28)) hi + (x &&& mask))
  if P59 ≤ r then r - P59 else r

/-- `add_mod`. -/
def addMod (a b : ℕ) : ℕ :=
  let res := word (a + b)
  if P59 ≤ res then res - P59 else res

/-- `mult_mod`: the 128-bit product is split at bit 59, and the high part folded twice. -/
def multMod (a b : ℕ) : ℕ :=
  let c := a * b / 2 ^ 64
  let e := a * b % 2 ^ 64
  let i := word (word (c <<< 5) + (e >>> 59))
  let j := i >>> 31
  let j := word (wordSub (word (j <<< 28)) j + (word (i <<< 28) &&& mask))
  let j := if P59 ≤ j then j - P59 else j
  let i := wordSub (word (word (j + (e &&& mask)) + P59)) i
  let i := if P59 ≤ i then i - P59 else i
  if P59 ≤ i then i - P59 else i

/-- `operator-`. -/
def sub (a b : ℕ) : ℕ := addMod a (wordSub P59 b)

/-- `negate`. -/
def negate (a : ℕ) : ℕ := if a = 0 then 0 else P59 - a

/-! ### Exactness -/

theorem and_mask (x : ℕ) : x &&& mask = x % 2 ^ 59 := Nat.and_two_pow_sub_one_eq_mod x 59

/-- A word below `2 * P59`, with `P59` taken off once, is its residue. -/
theorem ite_sub_eq_mod {r : ℕ} (h : r < 2 * P59) : (if P59 ≤ r then r - P59 else r) = r % P59 := by
  by_cases hr : P59 ≤ r
  · rw [if_pos hr, Nat.mod_eq_sub_mod hr, Nat.mod_eq_of_lt (by omega)]
  · rw [if_neg hr, Nat.mod_eq_of_lt (by omega)]

/-- A word below `3 * P59`, with `P59` taken off twice, is its residue. -/
theorem ite_sub_sub_eq_mod {r s : ℕ} (h : r < 3 * P59) (hs : s = if P59 ≤ r then r - P59 else r) :
    (if P59 ≤ s then s - P59 else s) = r % P59 := by
  by_cases hr : P59 ≤ r
  · rw [if_pos hr] at hs
    rw [ite_sub_eq_mod (by omega), hs, ← Nat.mod_eq_sub_mod hr]
  · rw [if_neg hr] at hs
    rw [ite_sub_eq_mod (by omega), hs]

/-- The top five bits of a word, folded: there is no wrap-around. -/
theorem mod_fold {x : ℕ} (hx : x < 2 ^ 64) :
    word (wordSub (word ((x >>> 59) <<< 28)) (x >>> 59) + x % 2 ^ 59)
      = x / 2 ^ 59 * (2 ^ 28 - 1) + x % 2 ^ 59 := by
  have hhi : x >>> 59 = x / 2 ^ 59 := Nat.shiftRight_eq_div_pow x 59
  have hshift : word ((x / 2 ^ 59) <<< 28) = x / 2 ^ 59 * 2 ^ 28 := by
    rw [Nat.shiftLeft_eq, word_of_lt (by omega)]
  rw [hhi, hshift, wordSub_of_le (by omega) (by omega), word_of_lt (by omega)]
  omega

theorem mod_fold_lt {x : ℕ} (hx : x < 2 ^ 64) :
    x / 2 ^ 59 * (2 ^ 28 - 1) + x % 2 ^ 59 < 2 * P59 := by
  have hP := P59_eq
  omega

/-- **`mod` is exact on every word.** -/
theorem mod_eq {x : ℕ} (hx : x < 2 ^ 64) : mod x = x % P59 := by
  rw [mod]
  simp only [and_mask, mod_fold hx]
  rw [ite_sub_eq_mod (mod_fold_lt hx)]
  -- the two differ by `x / 2 ^ 59` multiples of the modulus
  have hfold : x = x / 2 ^ 59 * (2 ^ 28 - 1) + x % 2 ^ 59 + P59 * (x / 2 ^ 59) := by
    rw [P59]
    omega
  conv_rhs => rw [hfold, Nat.add_mul_mod_self_left]

theorem mod_lt {x : ℕ} (hx : x < 2 ^ 64) : mod x < P59 := by
  rw [mod_eq hx]
  exact Nat.mod_lt _ P59_pos

/-- **`add_mod` is exact** on a sum below `2 * P59`. -/
theorem addMod_eq {a b : ℕ} (h : a + b < 2 * P59) : addMod a b = (a + b) % P59 := by
  have hP := P59_eq
  rw [addMod, word_of_lt (by omega)]
  exact ite_sub_eq_mod h

/-- The high part of a product, from its two words. -/
theorem high_part {p : ℕ} (hp : p < 2 ^ 123) :
    word (word ((p / 2 ^ 64) <<< 5) + (p % 2 ^ 64) >>> 59) = p / 2 ^ 59 := by
  have hlow : p % 2 ^ 64 / 2 ^ 59 < 2 ^ 5 := by omega
  have hhigh : p / 2 ^ 64 * 2 ^ 5 < 2 ^ 64 := by omega
  rw [Nat.shiftLeft_eq, Nat.shiftRight_eq_div_pow, word_of_lt hhigh, word_of_lt (by omega)]
  omega

/-- The high part folded once: `i * 2 ^ 28`, up to a multiple of the modulus. -/
def fold (i : ℕ) : ℕ := i / 2 ^ 31 * (2 ^ 28 - 1) + i * 2 ^ 28 % 2 ^ 59

theorem fold_eq {i : ℕ} (hi : i < 2 ^ 64) :
    word (wordSub (word ((i >>> 31) <<< 28)) (i >>> 31) + word (i <<< 28) % 2 ^ 59) = fold i := by
  have hdiv : i >>> 31 = i / 2 ^ 31 := Nat.shiftRight_eq_div_pow i 31
  have hlow : i <<< 28 % 2 ^ 64 % 2 ^ 59 = i * 2 ^ 28 % 2 ^ 59 := by
    rw [Nat.shiftLeft_eq]
    exact Nat.mod_mod_of_dvd _ (by decide)
  have hshift : word ((i / 2 ^ 31) <<< 28) = i / 2 ^ 31 * 2 ^ 28 := by
    rw [Nat.shiftLeft_eq, word_of_lt (by omega)]
  rw [hdiv, hshift, wordSub_of_le (by omega) (by omega), word, word, hlow,
    Nat.mod_eq_of_lt (by omega), fold]
  omega

theorem fold_add (i : ℕ) : fold i + P59 * (i / 2 ^ 31) = i * 2 ^ 28 := by
  rw [P59, fold]
  omega

theorem fold_lt {i : ℕ} (hi : i ≤ P59) : fold i < 2 ^ 59 + 2 ^ 57 := by
  have hP := P59_eq
  have hq : i / 2 ^ 31 ≤ 2 ^ 28 := by omega
  have hl : i * 2 ^ 28 % 2 ^ 59 < 2 ^ 59 := Nat.mod_lt _ (by decide)
  rw [fold]
  omega

/-- Below the modulus, the fold exceeds `i` by at most `P59 - 2 ^ 31`. -/
theorem fold_sub_le {i : ℕ} (h : fold i < P59) : fold i + 2 ^ 31 ≤ P59 + i := by
  have hP := P59_eq
  have hlow : i < 2 ^ 31 → i / 2 ^ 31 = 0 ∧ i * 2 ^ 28 % 2 ^ 59 = i * 2 ^ 28 := fun hi =>
    ⟨Nat.div_eq_of_lt hi, Nat.mod_eq_of_lt (by omega)⟩
  by_cases hi : i < 2 ^ 31
  · rw [fold, (hlow hi).1, (hlow hi).2]
    omega
  · omega

/-- A product, from its fold: `p` and the final sum differ by multiples of the modulus. -/
theorem fold_cong {p i l j : ℕ} (hp : p = i * 2 ^ 59 + l) (hji : i ≤ j + l + P59)
    (hj : j = fold i ∨ j + P59 = fold i) : ∃ k, p + P59 = j + l + P59 - i + P59 * k := by
  have hfold := fold_add i
  rcases hj with hj | hj
  · refine ⟨i + i / 2 ^ 31, ?_⟩
    rw [P59] at *
    omega
  · refine ⟨i + i / 2 ^ 31 + 1, ?_⟩
    rw [P59] at *
    omega

/-- The fold, with `P59` taken off once. -/
def foldMod (i : ℕ) : ℕ := if P59 ≤ fold i then fold i - P59 else fold i

theorem foldMod_le (i : ℕ) : foldMod i ≤ fold i := by
  rw [foldMod]
  split <;> omega

theorem foldMod_cases (i : ℕ) :
    foldMod i = fold i ∧ fold i < P59 ∨ foldMod i + P59 = fold i := by
  rw [foldMod]
  split <;> omega

theorem fold_lt_word {i : ℕ} (hi : i < 2 ^ 64) : fold i < 2 ^ 61 + 2 ^ 59 := by
  rw [fold]
  omega

/-- What is left before the last two conditional subtractions: only taking off the high part can
wrap around. -/
theorem multMod_eq_wordSub {a b : ℕ} (hp : a * b < 2 ^ 123) {s t : ℕ}
    (hs : s = wordSub (foldMod (a * b / 2 ^ 59) + a * b % 2 ^ 59 + P59) (a * b / 2 ^ 59))
    (ht : t = if P59 ≤ s then s - P59 else s) :
    multMod a b = if P59 ≤ t then t - P59 else t := by
  have hP := P59_eq
  have hlow : a * b % 2 ^ 64 % 2 ^ 59 = a * b % 2 ^ 59 := Nat.mod_mod_of_dvd _ (by decide)
  have hlowlt : a * b % 2 ^ 59 < 2 ^ 59 := Nat.mod_lt _ (by decide)
  have hi : a * b / 2 ^ 59 < 2 ^ 64 := by omega
  have hfold := fold_lt_word hi
  have hle := foldMod_le (a * b / 2 ^ 59)
  rw [multMod]
  simp only [and_mask, high_part hp, hlow, fold_eq hi]
  rw [← foldMod, word_of_lt (n := foldMod (a * b / 2 ^ 59) + a * b % 2 ^ 59) (by omega),
    word_of_lt (by omega), ← hs, ← ht]

/-- A product whose high part is at most the modulus. -/
theorem multMod_eq_of_high {a b i : ℕ} (hp : a * b < 2 ^ 123) (hi : a * b / 2 ^ 59 = i)
    (hiP : i ≤ P59) : multMod a b = a * b % P59 := by
  have hP := P59_eq
  have hlowlt : a * b % 2 ^ 59 < 2 ^ 59 := Nat.mod_lt _ (by decide)
  have hlt := fold_lt hiP
  have hsub := fold_sub_le (i := i)
  have hj := foldMod_cases i
  have hres : wordSub (foldMod i + a * b % 2 ^ 59 + P59) i
      = foldMod i + a * b % 2 ^ 59 + P59 - i := wordSub_of_le (by omega) (by omega)
  rw [multMod_eq_wordSub hp rfl rfl, hi, hres, ite_sub_sub_eq_mod (by omega) rfl]
  obtain ⟨k, hk⟩ := fold_cong (p := a * b) (l := a * b % 2 ^ 59) (by omega) (by omega)
    (hj.imp_left And.left)
  rw [← Nat.add_mul_mod_self_left _ P59 k, ← hk, Nat.add_mod_right]

/-- **`mult_mod` is exact on canonical operands.** -/
theorem multMod_eq {a b : ℕ} (ha : a < P59) (hb : b < P59) : multMod a b = a * b % P59 := by
  have hP := P59_eq
  have hab : a * b ≤ (P59 - 1) * (P59 - 1) := Nat.mul_le_mul (by omega) (by omega)
  rw [hP] at hab
  exact multMod_eq_of_high (by omega) rfl (by omega)

/-- **Multiplication by 1 reduces every word.** -/
theorem multMod_one {x : ℕ} (hx : x < 2 ^ 64) : multMod x 1 = x % P59 := by
  have hP := P59_eq
  have h := multMod_eq_of_high (a := x) (b := 1) (by omega) rfl (by omega)
  rwa [Nat.mul_one] at h

/-- `operator-` is exact on canonical operands. -/
theorem sub_eq {a b : ℕ} (ha : a < P59) (hb : b < P59) : sub a b = (a + (P59 - b)) % P59 := by
  have hP := P59_eq
  rw [sub, wordSub_of_le (by omega) hb.le]
  exact addMod_eq (by omega)

/-! ### In the field -/

theorem addMod_lt {a b : ℕ} (ha : a < P59) (hb : b < P59) : addMod a b < P59 := by
  rw [addMod_eq (by omega)]
  exact Nat.mod_lt _ P59_pos

theorem multMod_lt {a b : ℕ} (ha : a < P59) (hb : b < P59) : multMod a b < P59 := by
  rw [multMod_eq ha hb]
  exact Nat.mod_lt _ P59_pos

theorem sub_lt {a b : ℕ} (ha : a < P59) (hb : b < P59) : sub a b < P59 := by
  rw [sub_eq ha hb]
  exact Nat.mod_lt _ P59_pos

theorem addMod_cast {a b : ℕ} (ha : a < P59) (hb : b < P59) :
    (addMod a b : ZMod P59) = a + b := by
  rw [addMod_eq (by omega), ZMod.natCast_mod, Nat.cast_add]

theorem multMod_cast {a b : ℕ} (ha : a < P59) (hb : b < P59) :
    (multMod a b : ZMod P59) = a * b := by
  rw [multMod_eq ha hb, ZMod.natCast_mod, Nat.cast_mul]

theorem sub_cast {a b : ℕ} (ha : a < P59) (hb : b < P59) : (sub a b : ZMod P59) = a - b := by
  rw [sub_eq ha hb, ZMod.natCast_mod, Nat.cast_add, Nat.cast_sub hb.le, ZMod.natCast_self]
  ring

theorem negate_lt {a : ℕ} (ha : a < P59) : negate a < P59 := by
  rw [negate]
  split <;> omega

theorem negate_cast {a : ℕ} (ha : a < P59) : (negate a : ZMod P59) = -a := by
  rw [negate]
  split
  · rename_i h
    rw [h]
    simp
  · rw [Nat.cast_sub ha.le, ZMod.natCast_self, zero_sub]

/-- Canonical words are determined by their class. -/
theorem eq_of_cast_eq {a b : ℕ} (ha : a < P59) (hb : b < P59) (h : (a : ZMod P59) = b) :
    a = b := by
  rw [ZMod.natCast_eq_natCast_iff'] at h
  rwa [Nat.mod_eq_of_lt ha, Nat.mod_eq_of_lt hb] at h

end FP59

end VoleZk
