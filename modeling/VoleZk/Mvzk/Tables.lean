import VoleZk.Mvzk.Compress
import VoleZk.Mvzk.Points

/-!
# Tables of Lagrange coefficients

Besides the two transforms, `Poly` converts shares by rows of Lagrange coefficients: those that take
the shares of all parties to the secrets, column by column for a party that has only its own share,
and those that extend a key at a secret point and random shares of the first parties to the shares
of the others.

## What is here

* `LagrangeTables`, `Poly.initLagrangeTable`, `Poly.lagrangeEvalN2K`, `Poly.lagrangeEvalOne2K`;
* `LagrangeTables.Ok`, `Poly.initLagrangeTable_eq_some` — **tables that were filled belong to
  different points**;
* `Poly.initLagrangeTable_ok` — when they are filled;
* `Poly.nttEvalN2K_eq_lagrangeEvalN2K` — **the transforms agree with the table** where the roots are
  right.
-/

set_option autoImplicit false

open Finset Polynomial Interpolation

namespace VoleZk.Mvzk

/-! ## The tables -/

/-- The tables of `initLagrangeTable`, by row and column; the last two have a table per slot. -/
structure LagrangeTables (F : Type*) where
  /-- `lagrangeTableKByN`. -/
  lagrangeTableKByN : ℕ → ℕ → F
  /-- `lagrangeTableNByK`. -/
  lagrangeTableNByK : ℕ → ℕ → F
  /-- `lagrangeTableKByTp1`. -/
  lagrangeTableKByTp1 : ℕ → ℕ → ℕ → F
  /-- `lagrangeTableKByTp1Inv`. -/
  lagrangeTableKByTp1Inv : ℕ → ℕ → ℕ → F

section Model

variable {F : Type*} [Field F]

/-- A table of coefficients: `rows` points `dest`, from `cols` points. -/
def lagrangeTable [DecidableEq F] (pts : ℕ → F) (rows cols : ℕ) (dest : ℕ → F) :
    Option (ℕ → ℕ → F) :=
  fill (fun _ => 0) rows fun i => fill 0 cols fun j => lagrangeCoeff pts cols j (dest i)

namespace Poly

/-- The points of the Delta-sharing of a slot: that of the secret, and those of the parties. -/
def keyPoints (poly : Poly F) (mm j : ℕ) : F :=
  if j = 0 then poly.evalPointsK mm else poly.evalPointsN (j - 1)

/-- The degree of the Delta-sharing, `n - k`. -/
def t (poly : Poly F) : ℕ := poly.n - poly.k

/-- `initLagrangeTable`. -/
def initLagrangeTable [DecidableEq F] (poly : Poly F) : Option (LagrangeTables F) :=
  (lagrangeTable poly.evalPointsN poly.k poly.n poly.evalPointsK).bind fun lagrangeTableKByN =>
    (lagrangeTable poly.evalPointsK poly.n poly.k poly.evalPointsN).bind fun lagrangeTableNByK =>
      (fill (fun _ _ => 0) poly.k fun mm => lagrangeTable (poly.keyPoints mm) poly.k (poly.t + 1)
          fun i => poly.evalPointsN (poly.t + i)).bind fun lagrangeTableKByTp1 =>
        (fill (fun _ _ => 0) poly.k fun _ => lagrangeTable poly.evalPointsN poly.k (poly.t + 1)
            poly.evalPointsK).map fun lagrangeTableKByTp1Inv =>
          { lagrangeTableKByN, lagrangeTableNByK, lagrangeTableKByTp1, lagrangeTableKByTp1Inv }

/-- `lagrangeEvalN2K`. -/
def lagrangeEvalN2K (poly : Poly F) (tab : LagrangeTables F) (input : ℕ → F) (i : ℕ) : F :=
  ∑ j ∈ range poly.n, tab.lagrangeTableKByN i j * input j

/-- `lagrangeEvalOne2K`: the additive share of secret `i` that party `index` has. -/
def lagrangeEvalOne2K (tab : LagrangeTables F) (input : F) (index i : ℕ) : F :=
  tab.lagrangeTableKByN i index * input

end Poly

end Model

/-! ## What filled tables are -/

variable {F : Type*} [Field F]

/-- The points are different, and the tables those of the points. -/
structure LagrangeTables.Ok (tab : LagrangeTables F) (poly : Poly F) : Prop where
  /-- The points of the parties are different. -/
  injOnN : Set.InjOn poly.evalPointsN (range poly.n)
  /-- The points of the secrets are different. -/
  injOnK : Set.InjOn poly.evalPointsK (range poly.k)
  /-- The points of the Delta-sharing are different. -/
  injOnKey : ∀ mm < poly.k, Set.InjOn (poly.keyPoints mm) (range (poly.t + 1))
  /-- From the parties to the secrets. -/
  kByN : ∀ i < poly.k, ∀ j < poly.n, tab.lagrangeTableKByN i j
    = lagCoeff poly.evalPointsN poly.n j (poly.evalPointsK i)
  /-- From a key and the first parties to the other parties. -/
  kByTp1 : ∀ mm < poly.k, ∀ i < poly.k, ∀ j < poly.t + 1, tab.lagrangeTableKByTp1 mm i j
    = lagCoeff (poly.keyPoints mm) (poly.t + 1) j (poly.evalPointsN (poly.t + i))

section Fill

variable [DecidableEq F]

theorem lagrangeTable_eq_some {pts dest : ℕ → F} {rows cols : ℕ} {table : ℕ → ℕ → F}
    (h : lagrangeTable pts rows cols dest = some table) (hrows : 0 < rows) :
    Set.InjOn pts (range cols) ∧
      ∀ i < rows, ∀ j < cols, table i j = lagCoeff pts cols j (dest i) :=
  ⟨injOn_of_lagrangeCoeff (fill_eq_some h hrows), fun _ hi _ hj =>
    lagrangeCoeff_eq_some (fill_eq_some (fill_eq_some h hi) hj)⟩

theorem lagrangeTable_ok {pts : ℕ → F} {cols : ℕ} (h : Set.InjOn pts (range cols)) (rows : ℕ)
    (dest : ℕ → F) : ∃ table, lagrangeTable pts rows cols dest = some table :=
  fill_of_forall fun _ _ => fill_of_forall fun _ hj => lagrangeCoeff_ok h hj _

namespace Poly

variable {poly : Poly F} {tab : LagrangeTables F}

/-- **Tables that were filled belong to different points.** -/
theorem initLagrangeTable_eq_some (h : poly.initLagrangeTable = some tab) : tab.Ok poly := by
  obtain ⟨kByN, hkByN, h⟩ := Option.bind_eq_some_iff.mp h
  obtain ⟨nByK, hnByK, h⟩ := Option.bind_eq_some_iff.mp h
  obtain ⟨kByTp1, hkByTp1, h⟩ := Option.bind_eq_some_iff.mp h
  obtain ⟨kByTp1Inv, -, rfl⟩ := Option.map_eq_some_iff.mp h
  have hkey := fun mm (hmm : mm < poly.k) =>
    lagrangeTable_eq_some (fill_eq_some hkByTp1 hmm) (k_pos poly)
  exact ⟨(lagrangeTable_eq_some hkByN (k_pos poly)).1, (lagrangeTable_eq_some hnByK (n_pos poly)).1,
    fun mm hmm => (hkey mm hmm).1, (lagrangeTable_eq_some hkByN (k_pos poly)).2,
    fun mm hmm => (hkey mm hmm).2⟩

/-- **When the tables are filled**, whatever the number of secrets. -/
theorem initLagrangeTable_ok (hN : Set.InjOn poly.evalPointsN (range poly.n))
    (hK : Set.InjOn poly.evalPointsK (range poly.k))
    (hne : ∀ mm < poly.k, ∀ j < poly.t, poly.evalPointsK mm ≠ poly.evalPointsN j) :
    ∃ tab, poly.initLagrangeTable = some tab := by
  have ht : poly.t + 1 ≤ poly.n := by
    have hk := k_pos poly
    have hn := n_pos poly
    rw [t]
    omega
  have hkey : ∀ mm < poly.k, Set.InjOn (poly.keyPoints mm) (range (poly.t + 1)) := by
    intro mm hmm i hi j hj heq
    have hi' : i < poly.t + 1 := by simpa using hi
    have hj' : j < poly.t + 1 := by simpa using hj
    rw [keyPoints, keyPoints] at heq
    split at heq <;> split at heq
    · omega
    · exact absurd heq (hne mm hmm _ (by omega))
    · exact absurd heq.symm (hne mm hmm _ (by omega))
    · have := hN (show i - 1 ∈ ↑(range poly.n) by simp; omega)
        (show j - 1 ∈ ↑(range poly.n) by simp; omega) heq
      omega
  have hNt : Set.InjOn poly.evalPointsN (range (poly.t + 1)) := hN.mono (by
    simpa only [coe_range, Set.Iio_subset_Iio_iff] using ht)
  obtain ⟨kByN, hkByN⟩ := lagrangeTable_ok hN poly.k poly.evalPointsK
  obtain ⟨nByK, hnByK⟩ := lagrangeTable_ok hK poly.n poly.evalPointsN
  obtain ⟨kByTp1, hkByTp1⟩ := fill_of_forall (d := fun _ _ => (0 : F)) fun mm hmm =>
    lagrangeTable_ok (hkey mm hmm) poly.k fun i => poly.evalPointsN (poly.t + i)
  obtain ⟨kByTp1Inv, hkByTp1Inv⟩ := fill_of_forall (d := fun _ _ => (0 : F))
    fun mm (_ : mm < poly.k) => lagrangeTable_ok hNt poly.k poly.evalPointsK
  rw [initLagrangeTable, hkByN, Option.bind_some, hnByK, Option.bind_some, hkByTp1,
    Option.bind_some, hkByTp1Inv]
  exact ⟨_, rfl⟩

end Poly

end Fill

/-! ## Evaluation -/

namespace Poly

variable {poly : Poly F} {tab : LagrangeTables F} {input : ℕ → F} {i : ℕ}

theorem lagrangeEvalN2K_eq_sum (htab : tab.Ok poly) (input : ℕ → F) (hi : i < poly.k) :
    poly.lagrangeEvalN2K tab input i
      = ∑ j ∈ range poly.n, input j * lagCoeff poly.evalPointsN poly.n j (poly.evalPointsK i) := by
  refine sum_congr rfl fun j hj => ?_
  rw [htab.kByN i hi j (mem_range.mp hj), mul_comm]

/-- **The table evaluates at the points of the secrets** the polynomial through the shares. -/
theorem lagrangeEvalN2K_eq_eval (htab : tab.Ok poly) (input : ℕ → F) (hi : i < poly.k) :
    poly.lagrangeEvalN2K tab input i
      = (interp poly.evalPointsN poly.n input).eval (poly.evalPointsK i) := by
  rw [lagrangeEvalN2K_eq_sum htab input hi, eval_interp]

/-- The additive shares of the parties add up to the secret. -/
theorem sum_lagrangeEvalOne2K (poly : Poly F) (tab : LagrangeTables F) (input : ℕ → F) (i : ℕ) :
    ∑ j ∈ range poly.n, lagrangeEvalOne2K tab (input j) j i = poly.lagrangeEvalN2K tab input i :=
  rfl

/-- The shares of a polynomial of low degree give its values at the points of the secrets. -/
theorem lagrangeEvalN2K_eval (htab : tab.Ok poly) {f : F[X]} (hdeg : f.degree < poly.n)
    (hi : i < poly.k) :
    poly.lagrangeEvalN2K tab (fun j => f.eval (poly.evalPointsN j)) i
      = f.eval (poly.evalPointsK i) := by
  rw [lagrangeEvalN2K_eq_sum htab _ hi, sum_lagCoeff_eval htab.injOnN hdeg]

/-- **The transforms agree with the table** where the roots are right. -/
theorem nttEvalN2K_eq_lagrangeEvalN2K (htab : tab.Ok poly) (hok : poly.Ok)
    (hneg : poly.unityRoot2N ^ poly.n = -1) (hlt : poly.logK < poly.logN)
    (hroot : poly.unityRoot2K = poly.unityRoot2N ^ poly.nDivK) (input : ℕ → F) (hi : i < poly.k) :
    poly.nttEvalN2K input i = poly.lagrangeEvalN2K tab input i := by
  rw [lagrangeEvalN2K_eq_eval htab input hi]
  exact nttEvalN2K_eq hok hneg hlt hroot (degree_interp_lt htab.injOnN input)
    (fun j hj => (eval_interp_node htab.injOnN input hj).symm) hi

end Poly

/-! ## The constructed objects -/

namespace Poly

variable {logK logN : ℕ} {poly : Poly (ZMod P59)}

/-- The roots up to `2 ^ 26` parties. -/
theorem roots_right (h : init logK logN = some poly) (hlt : logK < logN) (hle : logN ≤ 26) :
    poly.unityRoot2K ^ poly.k = -1 ∧ poly.unityRoot2N ^ poly.n = -1 ∧
      poly.unityRoot2K = poly.unityRoot2N ^ poly.nDivK := by
  obtain ⟨-, hlogK, hlogN, hrootK, hrootN, -⟩ := init_eq_some h
  have hK := primitiveRoot_half (hlt.le.trans hle) hrootK
  have hN := primitiveRoot_half hle hrootN
  rw [← pow_succ', primitiveRoot_two_pow (by omega), Option.some_inj] at hrootK hrootN
  refine ⟨by rwa [k, hlogK], by rwa [n, hlogN], ?_⟩
  rw [← hrootK, ← hrootN, ← pow_mul, nDivK, hlogK, hlogN, mul_assoc, ← pow_add,
    show 28 - (logN + 1) + (logN - logK) = 28 - (logK + 1) by omega]

/-- **Up to `2 ^ 29` parties** the object is constructed and its tables are filled. -/
theorem init_tables_ok (hlt : logK < logN) (hle : logN ≤ 29) :
    ∃ poly tab, init logK logN = some poly ∧ poly.initLagrangeTable = some tab := by
  obtain ⟨poly, hpoly, -⟩ := init_ok hlt.le
  obtain ⟨tab, htab⟩ := initLagrangeTable_ok (injOn_evalPointsN hpoly (by omega))
    (injOn_evalPointsK hpoly (by omega)) fun mm hmm j hj =>
      separated_of_le hpoly hlt hle mm hmm j (hj.trans_le (Nat.sub_le _ _))
  exact ⟨poly, tab, hpoly, htab⟩

/-- So are those for `2 ^ 30` parties and four secrets. -/
theorem init_tables_wide :
    ∃ poly tab, init 2 30 = some poly ∧ poly.initLagrangeTable = some tab := by
  obtain ⟨poly, hpoly, -, hlogN, -⟩ := init_ok (show 2 ≤ 30 by decide)
  obtain ⟨tab, htab⟩ := initLagrangeTable_ok (injOn_evalPointsN hpoly le_rfl)
    (injOn_evalPointsK hpoly (by decide)) fun mm _ j hj => evalPointsK_ne_of_lt hpoly mm (by
      have := k_pos poly
      rw [t, n, hlogN] at hj
      omega)
  exact ⟨poly, tab, hpoly, htab⟩

end Poly

end VoleZk.Mvzk
