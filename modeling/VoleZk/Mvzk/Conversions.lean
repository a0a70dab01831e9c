import VoleZk.Mvzk.Tables

/-!
# Conversions of packed sharings

`Poly` converts between the shares of `n` parties and `k` secrets in two ways: by transforms, and by
tables of Lagrange coefficients.  Both are interpolation: take the polynomial of low degree through
the input at its points, and evaluate it at the other points.

For fewer secrets than parties everything agrees.  The constructor admits as many secrets as parties
too, and there the points coincide, so that a conversion should change nothing.  But the offset by
which `nttEvalN2K` turns the points is built up from one factor, not from none: with `nDivK` equal
to 1 it is off by one turn.

## What is here

* `Poly.lagrangeEvalK2N`, and its table;
* `Poly.Interpolates` — what the conversions of an object are;
* `Poly.conversions_eq` — **with fewer secrets than parties, they are that**;
* `Poly.BoundaryExact`, `Poly.boundary_exact_iff` — **with as many, constant sharings only**.
-/

set_option autoImplicit false

open Finset Polynomial Interpolation

namespace VoleZk.Mvzk

namespace Poly

section Model

variable {F : Type*} [Field F]

/-- `lagrangeEvalK2N`. -/
def lagrangeEvalK2N (poly : Poly F) (tab : LagrangeTables F) (input : ℕ → F) (i : ℕ) : F :=
  ∑ j ∈ range poly.k, tab.lagrangeTableNByK i j * input j

/-- What the conversions of an object with these tables compute. -/
structure Interpolates (poly : Poly F) (tab : LagrangeTables F) : Prop where
  /-- The points of the parties and of the secrets are all different. -/
  nodup_points : ((List.range poly.n).map poly.evalPointsN
    ++ (List.range poly.k).map poly.evalPointsK).Nodup
  /-- There is one polynomial through the shares. -/
  shares : ∀ v, ∃! f, Through poly.evalPointsN poly.n v f
  /-- There is one polynomial through the secrets. -/
  secrets : ∀ v, ∃! f, Through poly.evalPointsK poly.k v f
  /-- From the shares to the secrets, by transforms, by the table, and party by party. -/
  n2k : ∀ v f, Through poly.evalPointsN poly.n v f → ∀ i < poly.k,
    poly.nttEvalN2K v i = f.eval (poly.evalPointsK i) ∧
      poly.nttEvalN2K v i = poly.lagrangeEvalN2K tab v i ∧
      poly.nttEvalN2K v i = ∑ j ∈ range poly.n, lagrangeEvalOne2K tab (v j) j i
  /-- From the secrets to the shares, by transforms and by the table. -/
  k2n : ∀ v f, Through poly.evalPointsK poly.k v f → ∀ i < poly.n,
    poly.nttEvalK2N v i = f.eval (poly.evalPointsN i) ∧
      poly.nttEvalK2N v i = poly.lagrangeEvalK2N tab v i
  /-- Sharing and reconstructing. -/
  roundTrip : ∀ v, ∀ i < poly.k, poly.nttEvalN2K (poly.nttEvalK2N v) i = v i
  /-- From the shares to the values at the even powers. -/
  n2n : ∀ v f, Through poly.evalPointsN poly.n v f → ∀ i < poly.n,
    poly.nttEvalN2N v i = f.eval (poly.unityRoot2N ^ (2 * (i + 1)))

end Model

/-! ## The table of the shares -/

section Tables

variable {F : Type*} [Field F] {poly : Poly F} {tab : LagrangeTables F}

theorem lagrangeTableNByK_eq [DecidableEq F] (h : poly.initLagrangeTable = some tab) :
    ∀ i < poly.n, ∀ j < poly.k, tab.lagrangeTableNByK i j
      = lagCoeff poly.evalPointsK poly.k j (poly.evalPointsN i) := by
  obtain ⟨kByN, -, h⟩ := Option.bind_eq_some_iff.mp h
  obtain ⟨nByK, hnByK, h⟩ := Option.bind_eq_some_iff.mp h
  obtain ⟨kByTp1, -, h⟩ := Option.bind_eq_some_iff.mp h
  obtain ⟨kByTp1Inv, -, rfl⟩ := Option.map_eq_some_iff.mp h
  exact (lagrangeTable_eq_some hnByK (n_pos poly)).2

/-- **The table evaluates at the points of the parties** the polynomial through the secrets. -/
theorem lagrangeEvalK2N_eq_eval [DecidableEq F] (h : poly.initLagrangeTable = some tab) {v : ℕ → F}
    {f : F[X]} (hf : Through poly.evalPointsK poly.k v f) {i : ℕ} (hi : i < poly.n) :
    poly.lagrangeEvalK2N tab v i = f.eval (poly.evalPointsN i) := by
  rw [← sum_lagCoeff_eval (initLagrangeTable_eq_some h).injOnK hf.1]
  refine sum_congr rfl fun j hj => ?_
  rw [lagrangeTableNByK_eq h i hi j (mem_range.mp hj), hf.2 j (mem_range.mp hj), mul_comm]

/-- The same from the shares to the secrets. -/
theorem lagrangeEvalN2K_eq_through (htab : tab.Ok poly) {v : ℕ → F} {f : F[X]}
    (hf : Through poly.evalPointsN poly.n v f) {i : ℕ} (hi : i < poly.k) :
    poly.lagrangeEvalN2K tab v i = f.eval (poly.evalPointsK i) := by
  rw [lagrangeEvalN2K_eq_sum htab v hi, ← sum_lagCoeff_eval htab.injOnN hf.1]
  exact sum_congr rfl fun j hj => by rw [hf.2 j (mem_range.mp hj)]

/-- The polynomial through the shares of a sharing is the one through the secrets. -/
theorem through_nttEvalK2N (h : poly.Ok) (hnegK : poly.unityRoot2K ^ poly.k = -1)
    (hnegN : poly.unityRoot2N ^ poly.n = -1) {v : ℕ → F} {f : F[X]}
    (hf : Through poly.evalPointsK poly.k v f) :
    Through poly.evalPointsN poly.n (poly.nttEvalK2N v) f := by
  have hkn : poly.k ≤ poly.n := Nat.pow_le_pow_right (by decide) h.logK_le
  refine ⟨hf.1.trans_le (by exact_mod_cast hkn), fun i hi => ?_⟩
  exact (nttEvalK2N_eq h hnegK hnegN hf.1 (fun j hj => (hf.2 j hj).symm) hi).symm

end Tables

/-! ## Fewer secrets than parties -/

section Conversions

variable {F : Type*} [Field F] {poly : Poly F} {tab : LagrangeTables F}

/-- The points of the parties and of the secrets, in one list. -/
theorem nodup_points (hN : Set.InjOn poly.evalPointsN (range poly.n))
    (hK : Set.InjOn poly.evalPointsK (range poly.k)) (hsep : poly.Separated) :
    ((List.range poly.n).map poly.evalPointsN
      ++ (List.range poly.k).map poly.evalPointsK).Nodup := by
  refine List.nodup_append'.mpr ⟨?_, ?_, ?_⟩
  · exact List.nodup_range.map_on fun i hi j hj => hN (by simpa using hi) (by simpa using hj)
  · exact List.nodup_range.map_on fun i hi j hj => hK (by simpa using hi) (by simpa using hj)
  · simp only [List.disjoint_left, List.mem_map, List.mem_range]
    rintro x ⟨i, hi, rfl⟩ ⟨m, hm, heq⟩
    exact hsep m hm i hi heq

/-- **The conversions interpolate** where the roots are right and the points different. -/
theorem interpolates [DecidableEq F] (h : poly.Ok) (htab : poly.initLagrangeTable = some tab)
    (hlt : poly.logK < poly.logN) (hsep : poly.Separated)
    (hnegK : poly.unityRoot2K ^ poly.k = -1) (hnegN : poly.unityRoot2N ^ poly.n = -1)
    (hroot : poly.unityRoot2K = poly.unityRoot2N ^ poly.nDivK) : poly.Interpolates tab := by
  have hok := initLagrangeTable_eq_some htab
  have hn2k {v : ℕ → F} {f : F[X]} (hf : Through poly.evalPointsN poly.n v f) {i : ℕ}
      (hi : i < poly.k) : poly.nttEvalN2K v i = f.eval (poly.evalPointsK i) :=
    nttEvalN2K_eq h hnegN hlt hroot hf.1 (fun j hj => (hf.2 j hj).symm) hi
  refine ⟨nodup_points hok.injOnN hok.injOnK hsep, existsUnique_through hok.injOnN,
    existsUnique_through hok.injOnK, ?_, ?_, ?_, ?_⟩
  · intro v f hf i hi
    have heval := lagrangeEvalN2K_eq_through hok hf hi
    refine ⟨hn2k hf hi, (hn2k hf hi).trans heval.symm, ?_⟩
    rw [sum_lagrangeEvalOne2K, heval]
    exact hn2k hf hi
  · intro v f hf i hi
    have heval := (through_nttEvalK2N h hnegK hnegN hf).2 i hi
    exact ⟨heval.symm, heval.symm.trans (lagrangeEvalK2N_eq_eval htab hf hi).symm⟩
  · intro v i hi
    obtain ⟨f, hf, -⟩ := existsUnique_through hok.injOnK v
    rw [hn2k (through_nttEvalK2N h hnegK hnegN hf) hi]
    exact hf.2 i hi
  · intro v f hf i hi
    rw [nttEvalN2N_eq h hnegN hf.1 (fun j hj => (hf.2 j hj).symm) hi, evalPointsN_eq, ← pow_succ',
      mul_add]

/-- **Packed-sharing conversions are interpolation**, for all sizes up to `2 ^ 26` parties with
fewer secrets. -/
theorem conversions_eq {logK logN : ℕ} (hlt : logK < logN) (hle : logN ≤ 26) :
    ∃ poly tab, init logK logN = some poly ∧ poly.initLagrangeTable = some tab ∧
      poly.k = 2 ^ logK ∧ poly.n = 2 ^ logN ∧ poly.Interpolates tab := by
  obtain ⟨poly, tab, hpoly, htab⟩ := init_tables_ok hlt (show logN ≤ 29 by omega)
  obtain ⟨hnegK, hnegN, hroot⟩ := roots_right hpoly hlt hle
  obtain ⟨-, hlogK, hlogN, -, -, hok⟩ := init_eq_some hpoly
  refine ⟨poly, tab, hpoly, htab, by rw [k, hlogK], by rw [n, hlogN], ?_⟩
  exact interpolates hok htab (by rwa [hlogK, hlogN])
    (separated_of_le hpoly hlt (show logN ≤ 29 by omega)) hnegK hnegN hroot

/-- Two secrets, eight parties. -/
theorem conversions_eq_two_eight :
    ∃ poly tab, init 1 3 = some poly ∧ poly.initLagrangeTable = some tab ∧
      poly.k = 2 ^ 1 ∧ poly.n = 2 ^ 3 ∧ poly.Interpolates tab :=
  conversions_eq (by decide) (by decide)

end Conversions

/-! ## As many secrets as parties -/

section Boundary

/-- What the conversions should be when the points coincide: by transforms and by the tables the
same, and sharing and reconstructing leave the vector as it is. -/
def BoundaryExact {F : Type*} [Field F] (poly : Poly F) (tab : LagrangeTables F) (v : ℕ → F) :
    Prop :=
  (∀ i < poly.n, poly.nttEvalN2K v i = poly.lagrangeEvalN2K tab v i) ∧
    (∀ i < poly.n, poly.nttEvalK2N v i = poly.lagrangeEvalK2N tab v i) ∧
    ∀ i < poly.n, poly.nttEvalN2K (poly.nttEvalK2N v) i = v i

variable {logN : ℕ} {poly : Poly (ZMod P59)} {tab : LagrangeTables (ZMod P59)}

/-- The tables of the boundary size are filled. -/
theorem init_boundary_ok (hle : logN ≤ 26) :
    ∃ poly tab, init logN logN = some poly ∧ poly.initLagrangeTable = some tab := by
  obtain ⟨poly, hpoly, hlogK, hlogN, -⟩ := init_ok (le_refl logN)
  have hkn : poly.t = 0 := by
    rw [t, n, k, hlogK, hlogN, Nat.sub_self]
  obtain ⟨tab, htab⟩ := initLagrangeTable_ok (injOn_evalPointsN hpoly (by omega))
    (injOn_evalPointsK hpoly (by omega)) fun mm _ j hj => by omega
  exact ⟨poly, tab, hpoly, htab⟩

section

variable (h : init logN logN = some poly)
include h

theorem boundary_sizes : poly.k = poly.n ∧ poly.nDivK = 1 := by
  obtain ⟨-, hlogK, hlogN, -⟩ := init_eq_some h
  rw [k, n, nDivK, hlogK, hlogN, Nat.sub_self]
  exact ⟨rfl, rfl⟩

/-- The points of the secrets are those of the parties. -/
theorem boundary_points (i : ℕ) : poly.evalPointsK i = poly.evalPointsN i := by
  obtain ⟨-, -, -, hrootK, hrootN, -⟩ := init_eq_some h
  rw [hrootN, Option.some_inj] at hrootK
  rw [evalPointsK, evalPointsN, hrootK]

theorem boundary_root (hle : logN ≤ 26) :
    poly.unityRoot2N ^ poly.n = -1 ∧ poly.unityRoot2K ^ poly.k = -1 := by
  obtain ⟨-, hlogK, hlogN, hrootK, hrootN, -⟩ := init_eq_some h
  rw [n, k, hlogK, hlogN]
  exact ⟨primitiveRoot_half hle hrootN, primitiveRoot_half hle hrootK⟩

/-- **`nttEvalN2K` turns the points once too often**: it evaluates at the even powers. -/
theorem boundary_nttEvalN2K (hle : logN ≤ 26) {v : ℕ → ZMod P59} {f : (ZMod P59)[X]}
    (hf : Through poly.evalPointsN poly.n v f) {i : ℕ} (hi : i < poly.n) :
    poly.nttEvalN2K v i = f.eval (poly.unityRoot2N * poly.evalPointsN i) := by
  obtain ⟨-, -, -, -, -, hok⟩ := init_eq_some h
  obtain ⟨hkn, hdiv⟩ := boundary_sizes h
  rw [nttEvalN2K_eq_offset hok (boundary_root h hle).1 hf.1 (fun j hj => (hf.2 j hj).symm)
    (hkn ▸ hi), hdiv, Nat.mul_one, Nat.sub_eq_zero_of_le (by decide), pow_zero, mul_one]

/-- The powers of the root below `n` are not 1. -/
theorem boundary_pow_ne_one (hle : logN ≤ 26) {j : ℕ} (hj : 0 < j) (hlt : j < poly.n) :
    poly.unityRoot2N ^ j ≠ 1 := by
  obtain ⟨-, -, hlogN, -⟩ := init_eq_some h
  have horder := orderOf_of_half two_ne_zero_P59 (L := logN) (by
    have hneg := (boundary_root h hle).1
    rwa [n, hlogN] at hneg)
  intro hone
  have hle' := Nat.le_of_dvd hj (orderOf_dvd_of_pow_eq_one hone)
  rw [horder, pow_succ] at hle'
  rw [n, hlogN] at hlt
  omega

/-- The polynomial through the input takes the same values at the turned points exactly if the
input is constant. -/
theorem boundary_turn_iff (hle : logN ≤ 26) {v : ℕ → ZMod P59} {f : (ZMod P59)[X]}
    (hf : Through poly.evalPointsN poly.n v f) :
    (∀ i < poly.n, f.eval (poly.unityRoot2N * poly.evalPointsN i) = f.eval (poly.evalPointsN i)) ↔
      ∀ i < poly.n, v i = v 0 := by
  have hinj := injOn_evalPointsN h (show logN ≤ 30 by omega)
  constructor
  · intro heq i hi
    have hconst := eq_C_of_eval_mul_eq hinj (fun j => boundary_pow_ne_one h hle) hf.1 heq
    rw [← hf.2 i hi, ← hf.2 0 (n_pos poly), hconst, eval_C, eval_C]
  · intro hconst i hi
    have hC : Through poly.evalPointsN poly.n v (C (v 0)) := by
      refine ⟨degree_C_le.trans_lt (by exact_mod_cast n_pos poly), fun j hj => ?_⟩
      rw [eval_C, hconst j hj]
    rw [(existsUnique_through hinj v).unique hf hC, eval_C, eval_C]

/-- **Where the boundary conversions are right.** -/
theorem boundaryExact_iff_const (htab : poly.initLagrangeTable = some tab) (hle : logN ≤ 26)
    (v : ℕ → ZMod P59) : poly.BoundaryExact tab v ↔ ∀ i < poly.n, v i = v 0 := by
  have htabOk := initLagrangeTable_eq_some htab
  obtain ⟨-, -, -, -, -, hok⟩ := init_eq_some h
  obtain ⟨hkn, -⟩ := boundary_sizes h
  obtain ⟨hnegN, hnegK⟩ := boundary_root h hle
  have hpoints : poly.evalPointsK = poly.evalPointsN := funext (boundary_points h)
  obtain ⟨f, hf, -⟩ := existsUnique_through htabOk.injOnN v
  have hfK : Through poly.evalPointsK poly.k v f := by rwa [hpoints, hkn]
  have hshare := through_nttEvalK2N hok hnegK hnegN hfK
  -- sharing is right in any case; reconstructing turns the points
  have hk2n : ∀ i < poly.n, poly.nttEvalK2N v i = poly.lagrangeEvalK2N tab v i := fun i hi =>
    (hshare.2 i hi).symm.trans (lagrangeEvalK2N_eq_eval htab hfK hi).symm
  have hn2k : ∀ i < poly.n, (poly.nttEvalN2K v i = poly.lagrangeEvalN2K tab v i ↔
      f.eval (poly.unityRoot2N * poly.evalPointsN i) = f.eval (poly.evalPointsN i)) := by
    intro i hi
    rw [boundary_nttEvalN2K h hle hf hi, lagrangeEvalN2K_eq_through htabOk hf (hkn ▸ hi), hpoints]
  rw [← boundary_turn_iff h hle hf]
  constructor
  · rintro ⟨heq, -, -⟩ i hi
    exact (hn2k i hi).mp (heq i hi)
  · intro hturn
    refine ⟨fun i hi => (hn2k i hi).mpr (hturn i hi), hk2n, fun i hi => ?_⟩
    rw [boundary_nttEvalN2K h hle hshare hi, hturn i hi, hf.2 i hi]

end

/-- **The boundary size converts correctly exactly the constant vectors**: up to `2 ^ 26` parties,
the object and its tables exist, and the conversions agree on a vector if and only if all its
entries are equal. -/
theorem boundary_exact_iff (hle : logN ≤ 26) :
    ∃ poly tab, init logN logN = some poly ∧ poly.initLagrangeTable = some tab ∧
      ∀ v : ℕ → ZMod P59, poly.BoundaryExact tab v ↔ ∀ i < poly.n, v i = v 0 := by
  obtain ⟨poly, tab, hpoly, htab⟩ := init_boundary_ok hle
  exact ⟨poly, tab, hpoly, htab, boundaryExact_iff_const hpoly htab hle⟩

/-- Two secrets, two parties. -/
theorem boundary_exact_iff_two :
    ∃ poly tab, init 1 1 = some poly ∧ poly.initLagrangeTable = some tab ∧
      ∀ v : ℕ → ZMod P59, poly.BoundaryExact tab v ↔ ∀ i < poly.n, v i = v 0 :=
  boundary_exact_iff (by decide)

/-- Of two parties, one has 0 and the other 1. -/
theorem boundary_not_exact :
    ∃ poly tab, init 1 1 = some poly ∧ poly.initLagrangeTable = some tab ∧
      ¬poly.BoundaryExact tab fun i => (i : ZMod P59) := by
  obtain ⟨poly, tab, hpoly, htab⟩ := init_boundary_ok (show 1 ≤ 26 by decide)
  obtain ⟨-, -, hlogN, -⟩ := init_eq_some hpoly
  refine ⟨poly, tab, hpoly, htab, fun h => ?_⟩
  have hconst := (boundaryExact_iff_const hpoly htab (by decide) _).mp h 1 (by
    rw [n, hlogN]
    decide)
  rw [Nat.cast_one, Nat.cast_zero] at hconst
  exact one_ne_zero hconst

end Boundary

end Poly

end VoleZk.Mvzk
