import VoleZk.Mvzk.Poly

/-!
# Interpolation in the multiplication check

The folding rounds of the multiplication check interpolate at powers of a `2m`-th root of unity,
the last round at the points `1, …, 2m + 1`.  `Compress` and `Lagrange` hold the points and the
inverted denominators of the Lagrange coefficients; their constructors raise an error where a
denominator is zero, which happens exactly when two points coincide.

## What is here

* `fill`, an array filled entry by entry, and `lagrangeCoeff`;
* `Compress`, `Lagrange`, and their constructors;
* `Compress.init_eq_some`, `Lagrange.init_eq_some` — **the points of an object that was
  constructed are different**, and its coefficients are the Lagrange coefficients;
* `Compress.init_ok`, `Lagrange.init_ok` — when the constructors succeed.
-/

set_option autoImplicit false

open Finset Polynomial Interpolation

namespace VoleZk.Mvzk

/-! ## Arrays filled entry by entry -/

/-- The array of the entries; an error if an entry raises one. -/
def fill {α : Type*} (d : α) (len : ℕ) (entry : ℕ → Option α) : Option (ℕ → α) :=
  if ∀ i < len, (entry i).isSome then some fun i => (entry i).getD d else none

theorem fill_eq_some {α : Type*} {d : α} {len : ℕ} {entry : ℕ → Option α} {v : ℕ → α}
    (h : fill d len entry = some v) {i : ℕ} (hi : i < len) : entry i = some (v i) := by
  rw [fill] at h
  split at h
  · rename_i hall
    obtain ⟨a, ha⟩ := Option.isSome_iff_exists.mp (hall i hi)
    cases h
    show entry i = some ((entry i).getD d)
    rw [ha, Option.getD_some]
  · cases h

theorem fill_of_forall {α : Type*} {d : α} {len : ℕ} {entry : ℕ → Option α}
    (h : ∀ i < len, ∃ a, entry i = some a) : ∃ v, fill d len entry = some v :=
  ⟨_, if_pos fun i hi => Option.isSome_iff_exists.mpr (h i hi)⟩

section ModInv

variable {F : Type*} [Field F] [DecidableEq F] {a b : F}

theorem modInv_eq_some : modInv a = some b ↔ a ≠ 0 ∧ b = a⁻¹ := by
  rw [modInv]
  split
  · rename_i ha
    refine ⟨fun h => ?_, fun h => absurd ha h.1⟩
    cases h
  · rename_i ha
    exact ⟨fun h => ⟨ha, (Option.some_inj.mp h).symm⟩, fun h => congrArg some h.2.symm⟩

/-- The inverted denominators of `len` points. -/
def coeffDiv (pts : ℕ → F) (len : ℕ) : Option (ℕ → F) :=
  fill 0 len fun i => modInv (skipProd pts len i (pts i))

theorem coeffDiv_eq_some {pts : ℕ → F} {len : ℕ} {v : ℕ → F} (h : coeffDiv pts len = some v) :
    Set.InjOn pts (range len) ∧
      ∀ i < len, ∀ x, skipProd pts len i x * v i = lagCoeff pts len i x := by
  have hentry := fun i (hi : i < len) => modInv_eq_some.mp (fill_eq_some h hi)
  refine ⟨injOn_iff_skipProd_ne_zero.mpr fun i hi => (hentry i hi).1, fun i hi x => ?_⟩
  rw [(hentry i hi).2, lagCoeff]

theorem coeffDiv_ok {pts : ℕ → F} {len : ℕ} (h : Set.InjOn pts (range len)) :
    ∃ v, coeffDiv pts len = some v :=
  fill_of_forall fun i hi => ⟨_, modInv_eq_some.mpr ⟨injOn_iff_skipProd_ne_zero.mp h i hi, rfl⟩⟩

/-- A Lagrange coefficient with its own denominator: coefficient `j` of `len` points, at `dest`. -/
def lagrangeCoeff (pts : ℕ → F) (len j : ℕ) (dest : F) : Option F :=
  (modInv (skipProd pts len j (pts j))).map fun denomInv => skipProd pts len j dest * denomInv

theorem lagrangeCoeff_eq_some {pts : ℕ → F} {len j : ℕ} {dest : F}
    (h : lagrangeCoeff pts len j dest = some a) : a = lagCoeff pts len j dest := by
  obtain ⟨denomInv, hinv, rfl⟩ := Option.map_eq_some_iff.mp h
  rw [(modInv_eq_some.mp hinv).2, lagCoeff]

/-- Coefficients of all points are there only if the points are different. -/
theorem injOn_of_lagrangeCoeff {pts : ℕ → F} {len : ℕ} {row : ℕ → F} {dest : F}
    (h : fill 0 len (fun j => lagrangeCoeff pts len j dest) = some row) :
    Set.InjOn pts (range len) := by
  refine injOn_iff_skipProd_ne_zero.mpr fun j hj => ?_
  obtain ⟨denomInv, hinv, -⟩ := Option.map_eq_some_iff.mp (fill_eq_some h hj)
  exact (modInv_eq_some.mp hinv).1

theorem lagrangeCoeff_ok {pts : ℕ → F} {len j : ℕ} (h : Set.InjOn pts (range len)) (hj : j < len)
    (dest : F) : ∃ a, lagrangeCoeff pts len j dest = some a :=
  ⟨_, Option.map_eq_some_iff.mpr
    ⟨_, modInv_eq_some.mpr ⟨injOn_iff_skipProd_ne_zero.mp h j hj, rfl⟩, rfl⟩⟩

end ModInv

/-! ## The folding rounds -/

/-- `Compress`. -/
structure Compress (F : Type*) where
  /-- `m`. -/
  m : ℕ
  /-- `poly`. -/
  poly : Poly F
  /-- `lagCoeffDivLow`. -/
  lagCoeffDivLow : ℕ → F
  /-- `lagCoeffDivHigh`. -/
  lagCoeffDivHigh : ℕ → F

namespace Compress

section Model

variable {F : Type*} [Field F]

/-- `lagEvalPoints`: the `m` base points, and the `m - 1` shifted points. -/
def evalPoints (poly : Poly F) (m i : ℕ) : F :=
  if i < m then poly.evalPointsN i else poly.evalPointsN (i - m) * poly.unityRoot2N

variable [DecidableEq F]

/-- The constructor, from `poly` on. -/
def ofPoly (m : ℕ) (poly : Poly F) : Option (Compress F) :=
  (coeffDiv (evalPoints poly m) m).bind fun lagCoeffDivLow =>
    (coeffDiv (evalPoints poly m) (2 * m - 1)).map fun lagCoeffDivHigh =>
      { m, poly, lagCoeffDivLow, lagCoeffDivHigh }

/-- The constructor. -/
def init (logM : ℕ) : Option (Compress (ZMod P59)) := (Poly.init 1 logM).bind (ofPoly (2 ^ logM))

omit [DecidableEq F] in
/-- `lagEvalPoints`. -/
def lagEvalPoints (comp : Compress F) : ℕ → F := evalPoints comp.poly comp.m

omit [DecidableEq F] in
/-- `computeLagCoeff`. -/
def computeLagCoeff (comp : Compress F) (dest : F) : (ℕ → F) × (ℕ → F) :=
  (fun i => skipProd comp.lagEvalPoints comp.m i dest * comp.lagCoeffDivLow i,
    fun i => skipProd comp.lagEvalPoints (2 * comp.m - 1) i dest * comp.lagCoeffDivHigh i)

omit [DecidableEq F] in
/-- `is_interpolation_point`. -/
def IsInterpolationPoint (comp : Compress F) (x : F) : Prop :=
  ∃ i < 2 * comp.m - 1, comp.lagEvalPoints i = x

instance (comp : Compress F) (x : F) : Decidable (comp.IsInterpolationPoint x) :=
  inferInstanceAs (Decidable (∃ i < 2 * comp.m - 1, comp.lagEvalPoints i = x))

end Model

variable {F : Type*} [Field F]

/-- What the constructor leaves behind. -/
structure Ok (comp : Compress F) : Prop where
  /-- The transforms of `poly`. -/
  poly : comp.poly.Ok
  /-- The number of base points. -/
  m_eq : comp.m = comp.poly.n
  /-- The points are different. -/
  injOn : Set.InjOn comp.lagEvalPoints (range (2 * comp.m - 1))
  /-- The coefficients for the base points. -/
  low : ∀ i < comp.m, ∀ x, (comp.computeLagCoeff x).1 i = lagCoeff comp.lagEvalPoints comp.m i x
  /-- The coefficients for all points. -/
  high : ∀ i < 2 * comp.m - 1, ∀ x,
    (comp.computeLagCoeff x).2 i = lagCoeff comp.lagEvalPoints (2 * comp.m - 1) i x

variable {comp : Compress F}

/-- The base points. -/
theorem lagEvalPoints_low {i : ℕ} (hi : i < comp.m) :
    comp.lagEvalPoints i = comp.poly.evalPointsN i := if_pos hi

/-- The shifted points. -/
theorem lagEvalPoints_high (i : ℕ) :
    comp.lagEvalPoints (comp.m + i) = comp.poly.unityRoot2N * comp.poly.evalPointsN i := by
  rw [lagEvalPoints, evalPoints, if_neg (by omega), Nat.add_sub_cancel_left, mul_comm]

theorem ofPoly_eq_some [DecidableEq F] {m : ℕ} {poly : Poly F} (hpoly : poly.Ok) (hm : m = poly.n)
    (h : ofPoly m poly = some comp) : comp.m = m ∧ comp.poly = poly ∧ comp.Ok := by
  obtain ⟨low, hlow, hrest⟩ := Option.bind_eq_some_iff.mp h
  obtain ⟨high, hhigh, rfl⟩ := Option.map_eq_some_iff.mp hrest
  exact ⟨rfl, rfl, hpoly, hm, (coeffDiv_eq_some hhigh).1, (coeffDiv_eq_some hlow).2,
    (coeffDiv_eq_some hhigh).2⟩

/-- **What a constructed object is.** -/
theorem init_eq_some {logM : ℕ} {comp : Compress (ZMod P59)} (h : init logM = some comp) :
    1 ≤ logM ∧ comp.m = 2 ^ logM ∧ comp.Ok ∧ comp.poly.logN = logM ∧
      primitiveRoot (2 * 2 ^ logM) = some comp.poly.unityRoot2N := by
  obtain ⟨poly, hpoly, hcomp⟩ := Option.bind_eq_some_iff.mp h
  obtain ⟨hle, -, hlogN, -, hroot, hok⟩ := Poly.init_eq_some hpoly
  obtain ⟨hm, rfl, hcompOk⟩ := ofPoly_eq_some hok (by rw [Poly.n, hlogN]) hcomp
  exact ⟨hle, hm, hcompOk, hlogN, hroot⟩

/-- Point `i` is the root to a power of its own. -/
theorem evalPoints_eq_pow (poly : Poly F) (m i : ℕ) :
    evalPoints poly m i
      = poly.unityRoot2N ^ (if i < m then 2 * i + 1 else 2 * (i - m) + 2) := by
  rw [evalPoints]
  split
  · exact Poly.evalPointsN_eq poly i
  · rw [Poly.evalPointsN_eq, ← pow_succ]

/-- The points are different if the order of the root is large enough. -/
theorem evalPoints_injOn {poly : Poly F} {m : ℕ} (horder : 2 * m ≤ orderOf poly.unityRoot2N) :
    Set.InjOn (evalPoints poly m) (range (2 * m - 1)) := by
  intro i hi j hj heq
  have hi' : i < 2 * m - 1 := by simpa using hi
  have hj' : j < 2 * m - 1 := by simpa using hj
  rw [evalPoints_eq_pow, evalPoints_eq_pow] at heq
  have hexp := pow_injOn_Iio_orderOf (Set.mem_Iio.mpr (by split <;> omega))
    (Set.mem_Iio.mpr (by split <;> omega)) heq
  split at hexp <;> split at hexp <;> omega

/-- **When the constructor succeeds.** -/
theorem init_ok {logM : ℕ} (hlog : 1 ≤ logM) {w : ZMod P59}
    (hroot : primitiveRoot (2 * 2 ^ logM) = some w) (horder : 2 * 2 ^ logM ≤ orderOf w) :
    ∃ comp, init logM = some comp := by
  obtain ⟨poly, hpoly, -, -, -, hroot', -⟩ := Poly.init_ok hlog
  rw [hroot, Option.some_inj] at hroot'
  subst hroot'
  have hinj := evalPoints_injOn horder
  have hlowInj : Set.InjOn (evalPoints poly (2 ^ logM)) (range (2 ^ logM)) := hinj.mono (by
    have := Nat.two_pow_pos logM
    simp only [coe_range, Set.Iio_subset_Iio_iff]
    omega)
  obtain ⟨low, hlow⟩ := coeffDiv_ok hlowInj
  obtain ⟨high, hhigh⟩ := coeffDiv_ok hinj
  rw [init, hpoly, Option.bind_some, ofPoly, hlow, Option.bind_some, hhigh]
  exact ⟨_, rfl⟩

/-- The constructor succeeds where the root is right. -/
theorem init_ok_of_le {logM : ℕ} (hlog : 1 ≤ logM) (hle : logM ≤ 26) :
    ∃ comp, init logM = some comp := by
  obtain ⟨w, hw, -⟩ := Poly.primitiveRoot_ne_zero (d := logM)
  refine init_ok hlog hw ?_
  rw [orderOf_of_half two_ne_zero_P59 (primitiveRoot_half hle hw), pow_succ']

end Compress

/-! ## The last round -/

/-- `Lagrange`. -/
structure Lagrange (F : Type*) where
  /-- `n`, the degree. -/
  n : ℕ
  /-- `lagrangeTable`, by row and column. -/
  lagrangeTable : ℕ → ℕ → F
  /-- `lagCoeffDivLow`. -/
  lagCoeffDivLow : ℕ → F
  /-- `lagCoeffDivHigh`. -/
  lagCoeffDivHigh : ℕ → F

namespace Lagrange

section Model

variable {F : Type*} [Field F]

/-- `evalPoints`, the points `1, 2, …`. -/
def evalPoints (i : ℕ) : F := ((i + 1 : ℕ) : F)

/-- The constructor and `initLagrangeTable`. -/
def init [DecidableEq F] (n : ℕ) : Option (Lagrange F) :=
  (fill (fun _ => 0) n fun i => fill 0 (n + 1) fun j =>
      lagrangeCoeff evalPoints (n + 1) j (evalPoints (i + n + 1))).bind fun lagrangeTable =>
    (coeffDiv evalPoints (n + 1)).bind fun lagCoeffDivLow =>
      (coeffDiv evalPoints (2 * n + 1)).map fun lagCoeffDivHigh =>
        { n, lagrangeTable, lagCoeffDivLow, lagCoeffDivHigh }

/-- `lagrangeEvalShiftPoints`. -/
def lagrangeEvalShiftPoints (lag : Lagrange F) (input : ℕ → F) (i : ℕ) : F :=
  ∑ j ∈ range (lag.n + 1), lag.lagrangeTable i j * input j

/-- `computeLagCoeff`. -/
def computeLagCoeff (lag : Lagrange F) (dest : F) : (ℕ → F) × (ℕ → F) :=
  (fun i => skipProd evalPoints (lag.n + 1) i dest * lag.lagCoeffDivLow i,
    fun i => skipProd evalPoints (2 * lag.n + 1) i dest * lag.lagCoeffDivHigh i)

/-- `is_interpolation_point`. -/
def IsInterpolationPoint (lag : Lagrange F) (x : F) : Prop :=
  ∃ i < 2 * lag.n + 1, x = evalPoints i

instance [DecidableEq F] (lag : Lagrange F) (x : F) : Decidable (lag.IsInterpolationPoint x) :=
  inferInstanceAs (Decidable (∃ i < 2 * lag.n + 1, x = evalPoints i))

end Model

variable {F : Type*} [Field F]

/-- What the constructor leaves behind. -/
structure Ok (lag : Lagrange F) : Prop where
  /-- The points are different. -/
  injOn : Set.InjOn (evalPoints : ℕ → F) (range (2 * lag.n + 1))
  /-- The values at the shifted points. -/
  table : ∀ i < lag.n, ∀ j < lag.n + 1,
    lag.lagrangeTable i j = lagCoeff evalPoints (lag.n + 1) j (evalPoints (i + lag.n + 1))
  /-- The coefficients for the first points. -/
  low : ∀ i < lag.n + 1, ∀ x, (lag.computeLagCoeff x).1 i = lagCoeff evalPoints (lag.n + 1) i x
  /-- The coefficients for all points. -/
  high : ∀ i < 2 * lag.n + 1, ∀ x,
    (lag.computeLagCoeff x).2 i = lagCoeff evalPoints (2 * lag.n + 1) i x

variable [DecidableEq F] {lag : Lagrange F} {n : ℕ}

/-- **What a constructed object is.** -/
theorem init_eq_some (h : init n = some lag) : lag.n = n ∧ lag.Ok := by
  obtain ⟨table, htable, hrest⟩ := Option.bind_eq_some_iff.mp h
  obtain ⟨low, hlow, hrest⟩ := Option.bind_eq_some_iff.mp hrest
  obtain ⟨high, hhigh, rfl⟩ := Option.map_eq_some_iff.mp hrest
  refine ⟨rfl, (coeffDiv_eq_some hhigh).1, fun i hi j hj => ?_, (coeffDiv_eq_some hlow).2,
    (coeffDiv_eq_some hhigh).2⟩
  exact lagrangeCoeff_eq_some (fill_eq_some (fill_eq_some htable hi) hj)

/-- **When the constructor succeeds.** -/
theorem init_ok (hinj : Set.InjOn (evalPoints : ℕ → F) (range (2 * n + 1))) :
    ∃ lag : Lagrange F, init n = some lag := by
  have hlowInj : Set.InjOn (evalPoints : ℕ → F) (range (n + 1)) := hinj.mono (by
    simp only [coe_range, Set.Iio_subset_Iio_iff]
    omega)
  have hrows : ∀ i < n, ∃ row : ℕ → F, fill 0 (n + 1) (fun j =>
      lagrangeCoeff evalPoints (n + 1) j (evalPoints (i + n + 1))) = some row := fun i _ =>
    fill_of_forall fun j hj => lagrangeCoeff_ok hlowInj hj _
  obtain ⟨table, htable⟩ := fill_of_forall (d := fun _ => (0 : F)) hrows
  obtain ⟨low, hlow⟩ := coeffDiv_ok hlowInj
  obtain ⟨high, hhigh⟩ := coeffDiv_ok hinj
  rw [init, htable, Option.bind_some, hlow, Option.bind_some, hhigh]
  exact ⟨_, rfl⟩

omit [DecidableEq F] in
/-- The points are different as long as they are below the modulus. -/
theorem evalPoints_injOn {cnt : ℕ} (h : cnt < P59) :
    Set.InjOn (evalPoints : ℕ → ZMod P59) (range cnt) := by
  intro i hi j hj heq
  have hi' : i < cnt := by simpa using hi
  have hj' : j < cnt := by simpa using hj
  rw [evalPoints, evalPoints, ZMod.natCast_eq_natCast_iff', Nat.mod_eq_of_lt (by omega),
    Nat.mod_eq_of_lt (by omega)] at heq
  omega

end Lagrange

end VoleZk.Mvzk
