import VoleZk.Mvzk.Fp59Inv

/-!
# `FP59x2`: two words in a block

A value and its MAC are the two 64-bit lanes of one 128-bit block, and the routines of `FP59` have
versions that work on both lanes at once.  They differ from the scalar ones in two ways: a
comparison reads its operands as signed, so that it is the wrong way round from `2 ^ 63` on, and
the product subtracts its high part from the modulus first.

Every block operation acts on the lanes separately.  So each routine is a lane function mapped over
the lanes, and the lane function is compared with the scalar one.

## What is here

* `Lanes`, and the instructions the routines are made of;
* `FP59.vecPartialMod`, `FP59.vecMod`, `FP59.multModLanes`, `FP59.addModLanes`;
* `FP59x2.add`, `FP59x2.sub` and the other operators, with the lemma that each is the scalar
  operator on each lane;
* `FP59.arithmetic_exact` — **both forms compute in the field, without exception on canonical
  words.**
-/

set_option autoImplicit false

namespace VoleZk

/-- A block, as two words. -/
@[ext]
structure Lanes where
  low : ℕ
  high : ℕ
deriving DecidableEq

namespace Lanes

/-- `operator[]`. -/
def lane (v : Lanes) : Bool → ℕ
  | false => v.low
  | true => v.high

/-- One operation on both lanes. -/
def map (f : ℕ → ℕ) (v : Lanes) : Lanes := ⟨f v.low, f v.high⟩

/-- One operation on the lanes of two blocks. -/
def zip (f : ℕ → ℕ → ℕ) (v w : Lanes) : Lanes := ⟨f v.low w.low, f v.high w.high⟩

/-- `makeBlock(x, x)`. -/
def splat (x : ℕ) : Lanes := ⟨x, x⟩

@[simp]
theorem lane_map (f : ℕ → ℕ) (v : Lanes) (i : Bool) : (v.map f).lane i = f (v.lane i) := by
  cases i <;> rfl

@[simp]
theorem lane_zip (f : ℕ → ℕ → ℕ) (v w : Lanes) (i : Bool) :
    (zip f v w).lane i = f (v.lane i) (w.lane i) := by
  cases i <;> rfl

@[simp]
theorem lane_splat (x : ℕ) (i : Bool) : (splat x).lane i = x := by
  cases i <;> rfl

/-- The lanes are words. -/
def Words (v : Lanes) : Prop := ∀ i, v.lane i < 2 ^ 64

/-- The lanes are canonical. -/
def Canonical (v : Lanes) : Prop := ∀ i, v.lane i < P59

/-! ## Instructions -/

/-- `_mm_add_epi64`. -/
def addEpi64 : Lanes → Lanes → Lanes := zip fun a b => word (a + b)

/-- `_mm_sub_epi64`. -/
def subEpi64 : Lanes → Lanes → Lanes := zip wordSub

/-- `_mm_srli_epi64`. -/
def srliEpi64 (v : Lanes) (n : ℕ) : Lanes := v.map (· >>> n)

/-- `_mm_slli_epi64`. -/
def slliEpi64 (v : Lanes) (n : ℕ) : Lanes := v.map fun a => word (a <<< n)

/-- `_mm_and_si128`. -/
def andSi128 : Lanes → Lanes → Lanes := zip (· &&& ·)

/-- `_mm_andnot_si128`: the first block is complemented. -/
def andnotSi128 : Lanes → Lanes → Lanes := zip fun a b => (2 ^ 64 - 1 - a) &&& b

/-- `_mm_cmpgt_epi64`: a signed comparison, with all ones for true. -/
def cmpgtEpi64 : Lanes → Lanes → Lanes :=
  zip fun a b => if FP59.toInt64 b < FP59.toInt64 a then 2 ^ 64 - 1 else 0

end Lanes

open Lanes

namespace FP59

/-- `DoublePR`. -/
def doublePR : Lanes := splat P59

/-- `DoubleMask`. -/
def doubleMask : Lanes := splat mask

/-- `vec_partial_mod`. -/
def vecPartialMod (i : Lanes) : Lanes :=
  subEpi64 i (andnotSi128 (cmpgtEpi64 doublePR i) doublePR)

/-- `vec_mod`. -/
def vecMod (i : Lanes) : Lanes :=
  let hi := srliEpi64 i 59
  let r := subEpi64 (slliEpi64 hi 28) hi
  let r := addEpi64 r (andSi128 i doubleMask)
  vecPartialMod r

/-- `mult_mod` of a block by a word. -/
def multModLanes (a : Lanes) (b : ℕ) : Lanes :=
  let bs0 := a.map fun x => x * b % 2 ^ 64
  let bs1 := a.map fun x => x * b / 2 ^ 64
  let t1 := addEpi64 (slliEpi64 bs1 5) (srliEpi64 bs0 59)
  let t2 := srliEpi64 t1 31
  let t3 := subEpi64 (slliEpi64 t2 28) t2
  let t3 := addEpi64 t3 (andSi128 (slliEpi64 t1 28) doubleMask)
  let t3 := vecPartialMod t3
  let t3 := addEpi64 t3 (andSi128 bs0 doubleMask)
  let t1 := subEpi64 doublePR t1
  let t3 := addEpi64 t3 t1
  let t3 := vecPartialMod t3
  vecPartialMod t3

/-- `add_mod` of a block and a word. -/
def addModWord (a : Lanes) (b : ℕ) : Lanes := vecPartialMod (addEpi64 a (splat b))

/-- `add_mod` of two blocks. -/
def addModLanes (a b : Lanes) : Lanes := vecPartialMod (addEpi64 a b)

/-! ### Lane by lane -/

/-- Below `2 ^ 63` the signed comparison is the right one. -/
theorem lane_vecPartialMod {v : Lanes} {i : Bool} {x : ℕ} (h : v.lane i = x) (hx : x < 2 ^ 63) :
    (vecPartialMod v).lane i = if P59 ≤ x then x - P59 else x := by
  have hP := P59_eq
  have hsigned : toInt64 x = x := if_pos hx
  simp only [vecPartialMod, subEpi64, andnotSi128, cmpgtEpi64, doublePR, lane_zip, lane_splat, h,
    hsigned, toInt64_of_lt le_rfl, Nat.cast_lt]
  by_cases hlt : x < P59
  · rw [if_pos hlt, if_neg (by omega), Nat.sub_self, Nat.zero_and, wordSub_of_le (by omega)
      (Nat.zero_le _), Nat.sub_zero]
  · have hmask : (2 ^ 64 - 1 - 0) &&& P59 = P59 := by decide
    rw [if_neg hlt, if_pos (by omega), hmask, wordSub_of_le (by omega) (by omega)]

/-- **`vec_mod` is `mod` on each lane**, for all words. -/
theorem lane_vecMod {v : Lanes} (hv : v.Words) (i : Bool) : (vecMod v).lane i = mod (v.lane i) := by
  have hP := P59_eq
  have hlane : (addEpi64 (subEpi64 (slliEpi64 (srliEpi64 v 59) 28) (srliEpi64 v 59))
      (andSi128 v doubleMask)).lane i
        = v.lane i / 2 ^ 59 * (2 ^ 28 - 1) + v.lane i % 2 ^ 59 := by
    simp only [addEpi64, subEpi64, slliEpi64, srliEpi64, andSi128, doubleMask, lane_zip, lane_map,
      lane_splat, and_mask]
    exact mod_fold (hv i)
  have hlt := mod_fold_lt (hv i)
  rw [vecMod, lane_vecPartialMod hlane (by omega), mod]
  simp only [and_mask, mod_fold (hv i)]

/-- The sum of two lanes, as long as it does not reach the sign bit. -/
theorem lane_partialMod_add {v w : Lanes} {i : Bool} (h : v.lane i + w.lane i < 2 ^ 63) :
    (vecPartialMod (addEpi64 v w)).lane i = addMod (v.lane i) (w.lane i) := by
  have hlane : (addEpi64 v w).lane i = v.lane i + w.lane i := by
    simp only [addEpi64, lane_zip]
    exact word_of_lt (by omega)
  rw [lane_vecPartialMod hlane h, addMod, word_of_lt (by omega)]

theorem lane_addModLanes {v w : Lanes} (hv : v.Canonical) (hw : w.Canonical) (i : Bool) :
    (addModLanes v w).lane i = addMod (v.lane i) (w.lane i) := by
  have hP := P59_eq
  have h1 := hv i
  have h2 := hw i
  exact lane_partialMod_add (by omega)

theorem lane_addModWord {v : Lanes} {b : ℕ} (hv : v.Canonical) (hb : b ≤ P59) (i : Bool) :
    (addModWord v b).lane i = addMod (v.lane i) b := by
  have hP := P59_eq
  have h1 := hv i
  have h := lane_partialMod_add (v := v) (w := splat b) (i := i) (by rw [lane_splat]; omega)
  rwa [lane_splat] at h

/-- The high part of the product on a lane, folded. -/
theorem lane_fold {t : Lanes} {i : Bool} {n : ℕ} (h : t.lane i = n) (hn : n < P59) :
    (vecPartialMod (addEpi64 (subEpi64 (slliEpi64 (srliEpi64 t 31) 28) (srliEpi64 t 31))
      (andSi128 (slliEpi64 t 28) doubleMask))).lane i = foldMod n := by
  have hP := P59_eq
  have hlane : (addEpi64 (subEpi64 (slliEpi64 (srliEpi64 t 31) 28) (srliEpi64 t 31))
      (andSi128 (slliEpi64 t 28) doubleMask)).lane i = fold n := by
    simp only [addEpi64, subEpi64, slliEpi64, srliEpi64, andSi128, doubleMask, lane_zip, lane_map,
      lane_splat, and_mask, h]
    exact fold_eq (by omega)
  have hlt := fold_lt hn.le
  exact lane_vecPartialMod hlane (by omega)

/-- The sum on a lane before the last two conditional subtractions.  The modulus less the high part
is computed first, and is not negative. -/
theorem lane_sum {t bs t1 : Lanes} {i : Bool} {j e n : ℕ} (ht : t.lane i = j)
    (hbs : bs.lane i = e) (ht1 : t1.lane i = n) (hj : j < 2 ^ 60) (hn : n ≤ P59) :
    (addEpi64 (addEpi64 t (andSi128 bs doubleMask)) (subEpi64 doublePR t1)).lane i
      = j + e % 2 ^ 59 + P59 - n := by
  have hP := P59_eq
  have he : e % 2 ^ 59 < 2 ^ 59 := Nat.mod_lt _ (by decide)
  simp only [addEpi64, subEpi64, andSi128, doubleMask, doublePR, lane_zip, lane_splat, and_mask,
    ht, hbs, ht1]
  rw [wordSub_of_le (by omega) hn, word_of_lt (n := j + e % 2 ^ 59) (by omega),
    word_of_lt (by omega)]
  omega

/-- **The product by a word is the scalar product on each lane.** -/
theorem lane_multModLanes {v : Lanes} {b : ℕ} (hv : v.Canonical) (hb : b < P59) (i : Bool) :
    (multModLanes v b).lane i = multMod (v.lane i) b := by
  have hP := P59_eq
  have hvi := hv i
  have hle : v.lane i * b ≤ (P59 - 1) * (P59 - 1) := Nat.mul_le_mul (by omega) (by omega)
  rw [hP] at hle
  have hscalar := multMod_eq_wordSub (a := v.lane i) (b := b) (by omega) rfl rfl
  have hhigh : (addEpi64 (slliEpi64 (v.map fun x => x * b / 2 ^ 64) 5)
      (srliEpi64 (v.map fun x => x * b % 2 ^ 64) 59)).lane i = v.lane i * b / 2 ^ 59 := by
    simp only [addEpi64, slliEpi64, srliEpi64, lane_zip, lane_map]
    exact high_part (by omega)
  have hlow : (v.map fun x => x * b % 2 ^ 64).lane i = v.lane i * b % 2 ^ 64 := lane_map _ _ _
  have hmod : v.lane i * b % 2 ^ 64 % 2 ^ 59 = v.lane i * b % 2 ^ 59 :=
    Nat.mod_mod_of_dvd _ (by decide)
  rw [multModLanes]
  generalize v.lane i * b = p at *
  have hn : p / 2 ^ 59 < P59 := by omega
  have hj := foldMod_cases (p / 2 ^ 59)
  have hfold := fold_lt hn.le
  have hlowlt : p % 2 ^ 59 < 2 ^ 59 := Nat.mod_lt _ (by decide)
  have hsum := lane_sum (lane_fold hhigh hn) hlow hhigh (by omega) hn.le
  rw [hmod] at hsum
  have honce := lane_vecPartialMod hsum (by omega)
  rw [lane_vecPartialMod honce (by split <;> omega), hscalar, wordSub_of_le (by omega) (by omega)]

end FP59

/-! ## The operators -/

namespace FP59x2

/-- `operator+` with an `FP59x2`. -/
def add (v w : Lanes) : Lanes := FP59.addModLanes v w

/-- `operator+` with an `FP59`. -/
def addFp59 (v : Lanes) (b : ℕ) : Lanes := FP59.addModWord v b

/-- `operator-` with an `FP59x2`. -/
def sub (v w : Lanes) : Lanes :=
  FP59.vecPartialMod (addEpi64 v (subEpi64 FP59.doublePR w))

/-- `operator-` with an `FP59`. -/
def subFp59 (v : Lanes) (b : ℕ) : Lanes := FP59.addModWord v (wordSub P59 b)

/-- `operator*` with an `FP59`. -/
def mulFp59 (v : Lanes) (b : ℕ) : Lanes := FP59.multModLanes v b

/-- `operator*` with an `FP59x2`, lane by lane. -/
def mul (v w : Lanes) : Lanes := zip FP59.multMod v w

/-- `negate`. -/
def negate (v : Lanes) : Lanes := v.map FP59.negate

/-- `add_raw`. -/
def addRaw (v w : Lanes) : Lanes := addEpi64 v w

/-- `reduce`. -/
def reduce (v : Lanes) : Lanes := FP59.vecMod v

theorem lane_sub {v w : Lanes} (hv : v.Canonical) (hw : w.Canonical) (i : Bool) :
    (sub v w).lane i = FP59.sub (v.lane i) (w.lane i) := by
  have hP := P59_eq
  have h1 := hv i
  have h2 := hw i
  have hneg : (subEpi64 FP59.doublePR w).lane i = wordSub P59 (w.lane i) := by
    simp only [subEpi64, FP59.doublePR, lane_zip, lane_splat]
  have hle : wordSub P59 (w.lane i) = P59 - w.lane i := wordSub_of_le (by omega) h2.le
  rw [sub, FP59.lane_partialMod_add (by omega), hneg, FP59.sub]

theorem lane_subFp59 {v : Lanes} {b : ℕ} (hv : v.Canonical) (hb : b < P59) (i : Bool) :
    (subFp59 v b).lane i = FP59.sub (v.lane i) b := by
  have hP := P59_eq
  have hle : wordSub P59 b = P59 - b := wordSub_of_le (by omega) hb.le
  exact FP59.lane_addModWord hv (by omega) i

theorem lane_foldl_addRaw (ws : List Lanes) (v : Lanes) (i : Bool) :
    (ws.foldl addRaw v).lane i = (ws.map (·.lane i)).foldl FP59.addRaw (v.lane i) := by
  induction ws generalizing v with
  | nil => rfl
  | cons w ws ih =>
    rw [List.foldl_cons, ih, List.map_cons, List.foldl_cons]
    congr 1
    simp [addRaw, addEpi64, FP59.addRaw]

theorem lane_foldl_lt {ws : List Lanes} {v : Lanes} (hv : v.Words) :
    (ws.foldl addRaw v).Words := by
  induction ws generalizing v with
  | nil => exact hv
  | cons w ws ih =>
    refine ih fun i => ?_
    simp only [addRaw, addEpi64, lane_zip]
    exact Nat.mod_lt _ (by decide)

/-- **Up to `lazy_adds` raw additions and one reduction are the sum**, on each lane. -/
theorem lane_reduce_foldl_addRaw {ws : List Lanes} {v : Lanes} (hv : v.Canonical)
    (hws : ∀ w ∈ ws, w.Canonical) (hlen : ws.length ≤ FP59.lazyAdds) (i : Bool) :
    (reduce (ws.foldl addRaw v)).lane i = (v.lane i + (ws.map (·.lane i)).sum) % P59 := by
  have hP := P59_eq
  have hlanes : ∀ y ∈ ws.map (·.lane i), y < P59 := by
    rw [List.forall_mem_map]
    exact fun w hw => hws w hw i
  have hwords : v.Words := fun j => by
    have h := hv j
    omega
  rw [reduce, FP59.lane_vecMod (lane_foldl_lt hwords), lane_foldl_addRaw]
  exact FP59.reduce_foldl_addRaw (hv i) hlanes (by rwa [List.length_map])

end FP59x2

namespace FP59

/-- **The arithmetic is exact.**  `mod` reduces every word; on canonical words the operators and the
inverse give the canonical word of the result; the two-lane routines are the scalar ones on each
lane; and lazy sums of up to `lazy_adds` summands are reduced to the sum. -/
theorem arithmetic_exact {x : ℕ} (hx : x < 2 ^ 64) {a b : ℕ} (ha : a < P59) (hb : b < P59)
    {u v w : Lanes} (hu : u.Words) (hv : v.Canonical) (hw : w.Canonical) (i : Bool)
    {ys : List ℕ} (hys : ∀ y ∈ ys, y < P59) (hylen : ys.length ≤ lazyAdds)
    {ws : List Lanes} (hws : ∀ w ∈ ws, w.Canonical) (hwlen : ws.length ≤ lazyAdds) :
    (mod x = x % P59 ∧
      Residue (addMod a b) (a + b) ∧ Residue (sub a b) (a - b) ∧ Residue (multMod a b) (a * b) ∧
      Residue (negate a) (-a) ∧
      (a ≠ 0 → ∃ k, modInv a = some k ∧ Residue k (a : ZMod P59)⁻¹)) ∧
    ((vecMod u).lane i = mod (u.lane i) ∧
      (FP59x2.add v w).lane i = addMod (v.lane i) (w.lane i) ∧
      (FP59x2.addFp59 v b).lane i = addMod (v.lane i) b ∧
      (FP59x2.sub v w).lane i = sub (v.lane i) (w.lane i) ∧
      (FP59x2.subFp59 v b).lane i = sub (v.lane i) b ∧
      (FP59x2.mulFp59 v b).lane i = multMod (v.lane i) b ∧
      (FP59x2.mul v w).lane i = multMod (v.lane i) (w.lane i) ∧
      (FP59x2.negate v).lane i = negate (v.lane i)) ∧
    (reduce (ys.foldl addRaw a) = (a + ys.sum) % P59 ∧
      (FP59x2.reduce (ws.foldl FP59x2.addRaw v)).lane i
        = (v.lane i + (ws.map (·.lane i)).sum) % P59) := by
  refine ⟨⟨mod_eq hx, ?_, ?_, ?_, ?_, modInv_spec ha⟩, ⟨lane_vecMod hu i, lane_addModLanes hv hw i,
    lane_addModWord hv hb.le i, FP59x2.lane_sub hv hw i, FP59x2.lane_subFp59 hv hb i,
    lane_multModLanes hv hb i, lane_zip _ _ _ i, lane_map _ _ i⟩,
    reduce_foldl_addRaw ha hys hylen, FP59x2.lane_reduce_foldl_addRaw hv hws hwlen i⟩
  · exact ⟨addMod_lt ha hb, addMod_cast ha hb⟩
  · exact ⟨sub_lt ha hb, sub_cast ha hb⟩
  · exact ⟨multMod_lt ha hb, multMod_cast ha hb⟩
  · exact ⟨negate_lt ha, negate_cast ha⟩

/-- The largest operands, on both lanes, and a full lazy sum of them. -/
theorem arithmetic_exact_extreme :
    Residue (multMod (P59 - 1) (P59 - 1)) (((P59 - 1 : ℕ) : ZMod P59) * (P59 - 1 : ℕ)) ∧
      (multModLanes (splat (P59 - 1)) (P59 - 1)).lane true
        = multMod ((splat (P59 - 1)).lane true) (P59 - 1) ∧
      reduce ([P59 - 1, P59 - 1].foldl addRaw (P59 - 1))
        = (P59 - 1 + [P59 - 1, P59 - 1].sum) % P59 := by
  have hsplat : (splat (P59 - 1)).Canonical := fun i => by cases i <;> decide
  have hys : ∀ y ∈ [P59 - 1, P59 - 1], y < P59 := by simp [P59]
  have hws : ∀ w ∈ [splat (P59 - 1)], w.Canonical := by simpa using hsplat
  have h := arithmetic_exact (x := 2 ^ 64 - 1) (by decide) (a := P59 - 1) (by decide)
    (b := P59 - 1) (by decide) (u := splat (2 ^ 64 - 1)) (fun i => by cases i <;> decide) hsplat
    hsplat true hys (by decide) hws (by decide)
  exact ⟨h.1.2.2.2.1, h.2.1.2.2.2.2.2.1, h.2.2.1⟩

end FP59

end VoleZk
