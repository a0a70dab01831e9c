import VoleZk.Mvzk.Tables
import Mathlib.LinearAlgebra.Matrix.ToLinearEquiv

/-!
# What `t = n - k` verifiers learn

Two sharings hide something from any `n - k` parties: the masks of the wires, which the prover
computes from the random shares of all verifiers, and the key of a verifier, which it deals to the
others.  In both, the values at some places and the values at other places of a polynomial of low
degree determine each other, as long as all points are different.  If a secret lies at the point of
a party, that party holds the secret, and the others' shares of it count for nothing.

## What is here

* `mix`, the inputs of all parties; `masks_hidden` — **the masks, from the inputs of any `k` honest
  verifiers**;
* `Verifier.dealMacKey`, the shares a verifier deals, and `Verifier.dealMacKey_eq_eval`;
* `key_hidden` — **the shares of any `n - k` parties are as random as the dealer's coins**, and one
  more determines the key;
* `masks_exposed`, `key_exposed` — `2 ^ 30` parties and four secrets.
-/

set_option autoImplicit false

open Finset Polynomial Interpolation

namespace VoleZk.Mvzk

/-! ## The masks -/

/-- The inputs of all parties: `u` of the honest ones, `c` of the others. -/
def mix {F : Type*} (H : Finset ℕ) (c : ℕ → F) (u : H → F) (i : ℕ) : F :=
  if h : i ∈ H then u ⟨i, h⟩ else c i

section Masks

variable {F : Type*} [Field F] {poly : Poly F} {tab : LagrangeTables F}

/-- Inputs of at most `k` parties that give no secrets are 0. -/
theorem eq_zero_of_lagrangeEvalN2K (htab : tab.Ok poly) (hsep : poly.Separated) (input : ℕ → F)
    {H : Finset ℕ} (hcard : (#H) ≤ poly.k) (hsupp : ∀ i < poly.n, i ∉ H → input i = 0)
    (hzero : ∀ m < poly.k, poly.lagrangeEvalN2K tab input m = 0) {i : ℕ} (hi : i < poly.n) :
    input i = 0 :=
  eq_zero_of_sum_lagCoeff htab.injOnN hsupp hcard htab.injOnK hsep
    (fun m hm => by rw [← Poly.lagrangeEvalN2K_eq_sum htab input hm, hzero m hm]) hi

theorem lagrangeEvalN2K_sub (poly : Poly F) (tab : LagrangeTables F) (a b : ℕ → F) (m : ℕ) :
    poly.lagrangeEvalN2K tab (fun i => a i - b i) m
      = poly.lagrangeEvalN2K tab a m - poly.lagrangeEvalN2K tab b m := by
  simp only [Poly.lagrangeEvalN2K, mul_sub, sum_sub_distrib]

/-- **The masks determine the inputs of any `k` parties.** -/
theorem lagrangeEvalN2K_mix_injective (htab : tab.Ok poly) (hsep : poly.Separated) {H : Finset ℕ}
    (hH : H ⊆ range poly.n) (hcard : (#H) = poly.k) (c : ℕ → F) :
    Function.Injective fun (u : H → F) (m : Fin poly.k) =>
      poly.lagrangeEvalN2K tab (mix H c u) m := by
  intro u u' heq
  funext ⟨i, hi⟩
  have hdiff := eq_zero_of_lagrangeEvalN2K htab hsep
    (fun i => mix H c u i - mix H c u' i) hcard.le
    (fun i _ hout => by rw [mix, mix, dif_neg hout, dif_neg hout, sub_self])
    (fun m hm => by
      rw [lagrangeEvalN2K_sub, sub_eq_zero]
      exact congrFun heq ⟨m, hm⟩) (mem_range.mp (hH hi))
  rwa [mix, mix, dif_pos hi, dif_pos hi, sub_eq_zero] at hdiff

theorem lagrangeEvalN2K_mix_bijective [Finite F] (htab : tab.Ok poly) (hsep : poly.Separated)
    {H : Finset ℕ} (hH : H ⊆ range poly.n) (hcard : (#H) = poly.k) (c : ℕ → F) :
    Function.Bijective fun (u : H → F) (m : Fin poly.k) =>
      poly.lagrangeEvalN2K tab (mix H c u) m := by
  have := Fintype.ofFinite F
  refine (Fintype.bijective_iff_injective_and_card _).mpr
    ⟨lagrangeEvalN2K_mix_injective htab hsep hH hcard c, ?_⟩
  rw [Fintype.card_fun, Fintype.card_fun, Fintype.card_coe, Fintype.card_fin, hcard]

/-- The columns of the parties `e`. -/
def columns (poly : Poly F) (tab : LagrangeTables F) (e : Fin poly.k ↪ Fin poly.n) :
    Matrix (Fin poly.k) (Fin poly.k) F :=
  Matrix.of fun m j => tab.lagrangeTableKByN m (e j)

/-- The columns of the parties, times their inputs. -/
theorem columns_mulVec (poly : Poly F) (tab : LagrangeTables F) (e : Fin poly.k ↪ Fin poly.n)
    (v : Fin poly.k → F) (m : Fin poly.k) :
    (columns poly tab e).mulVec v m
      = poly.lagrangeEvalN2K tab (Function.extend (fun j => (e j : ℕ)) v 0) m := by
  have hinj : Function.Injective fun j => (e j : ℕ) := Fin.val_injective.comp e.injective
  have hsub : univ.image (fun j => (e j : ℕ)) ⊆ range poly.n := fun i hi => by
    obtain ⟨j, -, rfl⟩ := mem_image.mp hi
    exact mem_range.mpr (e j).isLt
  have hout : ∀ i ∈ range poly.n, i ∉ univ.image (fun j => (e j : ℕ)) →
      tab.lagrangeTableKByN m i * Function.extend (fun j => (e j : ℕ)) v 0 i = 0 := fun i _ hi => by
    rw [Function.extend_apply', Pi.zero_apply, mul_zero]
    rintro ⟨j, rfl⟩
    exact hi (mem_image_of_mem _ (mem_univ j))
  rw [Poly.lagrangeEvalN2K, ← sum_subset hsub hout, sum_image fun a _ b _ h => hinj h]
  calc (columns poly tab e).mulVec v m = ∑ j, tab.lagrangeTableKByN m (e j) * v j := rfl
    _ = _ := sum_congr rfl fun j _ => by rw [hinj.extend_apply]

/-- **Any `k` columns are independent** if the points are different. -/
theorem columns_det_ne_zero (htab : tab.Ok poly) (hsep : poly.Separated)
    (e : Fin poly.k ↪ Fin poly.n) : (columns poly tab e).det ≠ 0 := by
  intro hdet
  obtain ⟨v, hv, hzero⟩ := Matrix.exists_mulVec_eq_zero_iff.mpr hdet
  have hinj : Function.Injective fun j => (e j : ℕ) := Fin.val_injective.comp e.injective
  refine hv (funext fun j => ?_)
  have hval := eq_zero_of_lagrangeEvalN2K htab hsep
    (Function.extend (fun j => (e j : ℕ)) v 0) (H := univ.image fun j => (e j : ℕ))
    (card_image_le.trans (card_fin _).le)
    (fun i _ hout => by
      rw [Function.extend_apply', Pi.zero_apply]
      rintro ⟨l, rfl⟩
      exact hout (mem_image_of_mem _ (mem_univ l)))
    (fun m hm => by rw [← columns_mulVec poly tab e v ⟨m, hm⟩, hzero, Pi.zero_apply])
    (e j).isLt
  rwa [hinj.extend_apply] at hval

/-- A secret at the point of a party: the columns of `k` others are dependent. -/
theorem exists_columns_det_eq_zero (htab : tab.Ok poly) (hlt : poly.k < poly.n) {m i : ℕ}
    (hm : m < poly.k) (hi : i < poly.n) (heq : poly.evalPointsK m = poly.evalPointsN i) :
    ∃ e, (columns poly tab e).det = 0 := by
  let skip (j : Fin poly.k) : Fin poly.n := ⟨if (j : ℕ) < i then j else j + 1, by split <;> omega⟩
  have hskip : Function.Injective skip := fun a b hab => by
    have hval := congrArg Fin.val hab
    simp only [skip] at hval
    split at hval <;> split at hval <;> omega
  refine ⟨⟨skip, hskip⟩, Matrix.det_eq_zero_of_row_eq_zero ⟨m, hm⟩ fun j => ?_⟩
  show tab.lagrangeTableKByN m (skip j) = 0
  have hne : (skip j : ℕ) ≠ i := by
    simp only [skip]
    split <;> omega
  rw [htab.kByN m hm _ (skip j).isLt, heq]
  exact lagCoeff_node hi hne

end Masks

/-- **The masks are as random as the inputs of any `k` honest verifiers**: as long as no secret lies
at the point of a party, which is so up to `2 ^ 29` parties, any `k` columns of the table are
independent.  The transforms that the prover runs agree with the table up to `2 ^ 26` parties. -/
theorem masks_hidden (logK logN : ℕ) (hlt : logK < logN) :
    (logN ≤ 29 → ∃ poly tab, Poly.init logK logN = some poly ∧
      poly.initLagrangeTable = some tab) ∧
    ∀ poly tab, Poly.init logK logN = some poly → poly.initLagrangeTable = some tab →
      ((∀ e, IsUnit (columns poly tab e)) ↔ poly.Separated) ∧ (logN ≤ 29 → poly.Separated) ∧
      (logN ≤ 26 →
        (∀ input, ∀ m < poly.k, poly.nttEvalN2K input m = poly.lagrangeEvalN2K tab input m) ∧
        ∀ H ⊆ range poly.n, (#H) = poly.k → ∀ c,
          Function.Bijective fun (u : H → ZMod P59) (m : Fin poly.k) =>
            poly.nttEvalN2K (mix H c u) m) := by
  refine ⟨Poly.init_tables_ok hlt, fun poly tab hpoly htab => ?_⟩
  obtain ⟨-, hlogK, hlogN, -, -, hok⟩ := Poly.init_eq_some hpoly
  have htabOk := Poly.initLagrangeTable_eq_some htab
  have hlt' : poly.logK < poly.logN := by rwa [hlogK, hlogN]
  refine ⟨⟨fun hunit m hm i hi heq => ?_, fun hsep e => ?_⟩, Poly.separated_of_le hpoly hlt,
    fun hle => ?_⟩
  · obtain ⟨e, he⟩ := exists_columns_det_eq_zero htabOk (Poly.k_lt_n hlt') hm hi heq
    have hdet := (Matrix.isUnit_iff_isUnit_det _).mp (hunit e)
    rw [he] at hdet
    exact not_isUnit_zero hdet
  · exact (Matrix.isUnit_iff_isUnit_det _).mpr (columns_det_ne_zero htabOk hsep e).isUnit
  · obtain ⟨-, hneg, hroot⟩ := Poly.roots_right hpoly hlt hle
    have hagree : ∀ input, ∀ m < poly.k,
        poly.nttEvalN2K input m = poly.lagrangeEvalN2K tab input m := fun input m hm =>
      Poly.nttEvalN2K_eq_lagrangeEvalN2K htabOk hok hneg hlt' hroot input hm
    refine ⟨hagree, fun H hH hcard c => ?_⟩
    have hbij := lagrangeEvalN2K_mix_bijective htabOk
      (Poly.separated_of_le hpoly hlt (by omega)) hH hcard c
    convert hbij using 4 with u m
    exact hagree _ _ m.isLt

theorem masks_hidden_two : ∃ poly tab, Poly.init 0 1 = some poly ∧
    poly.initLagrangeTable = some tab ∧ poly.Separated ∧
      Function.Bijective fun (u : ({1} : Finset ℕ) → ZMod P59) (m : Fin poly.k) =>
        poly.nttEvalN2K (mix {1} (fun _ => 5) u) m := by
  obtain ⟨hinit, hall⟩ := masks_hidden 0 1 (by decide)
  obtain ⟨poly, tab, hpoly, htab⟩ := hinit (by decide)
  obtain ⟨-, hsep, hbij⟩ := hall poly tab hpoly htab
  obtain ⟨-, hlogK, hlogN, -⟩ := Poly.init_eq_some hpoly
  refine ⟨poly, tab, hpoly, htab, hsep (by decide), (hbij (by decide)).2 {1} ?_ ?_ fun _ => 5⟩
  · rw [Poly.n, hlogN]
    decide
  · rw [Poly.k, hlogK]
    decide

/-- The last of four secrets and the last share of the values of `X`: they are the same only if an
odd power of the root is 1. -/
theorem pow_eq_one_of_halfTurn {F : Type*} [Field F] {w : F} (hw : w ≠ 0) {D : ℕ} (hD : 2 ≤ D)
    (h : w * w ^ (D - 2) * halfTurn w (2 * D) (3 * D) = halfTurn w (2 * D) (4 * D - 1)) :
    w ^ (D - 1) = 1 := by
  rw [halfTurn, halfTurn, if_neg (by omega), if_neg (by omega), mul_neg, neg_inj, ← pow_succ',
    ← pow_add, show D - 2 + 1 + (2 * (3 * D - 2 * D) + 1) = 3 * D by omega,
    show 2 * (4 * D - 1 - 2 * D) + 1 = 3 * D + (D - 1) by omega, pow_add] at h
  exact (mul_eq_left₀ (pow_ne_zero _ hw)).mp h.symm

/-- With `2 ^ 30` parties and four secrets, the transform and the table disagree on the values of
`X`. -/
theorem nttEvalN2K_ne_wide {poly : Poly (ZMod P59)} {tab : LagrangeTables (ZMod P59)}
    (hpoly : Poly.init 2 30 = some poly) (htab : tab.Ok poly) :
    poly.nttEvalN2K (halfTurn poly.unityRoot2N (2 ^ 29)) 3
      ≠ poly.lagrangeEvalN2K tab (halfTurn poly.unityRoot2N (2 ^ 29)) 3 := by
  intro hval
  obtain ⟨-, hlogK, hlogN, -, hrootN, hok⟩ := Poly.init_eq_some hpoly
  have hn : poly.n = 2 ^ 30 := by rw [Poly.n, hlogN]
  have hdiv : poly.nDivK = 2 ^ 28 := by rw [Poly.nDivK, hlogK, hlogN]
  have hlast : 2 ^ 30 - 1 < poly.n := by rw [hn]; decide
  rw [Poly.lagrangeEvalN2K_eq_eval htab _ (by rw [Poly.k, hlogK]; decide),
    Poly.evalPointsK_three hpoly, eval_interp_node htab.injOnN _ hlast,
    Poly.nttEvalN2K_eq_of_two hok (L := 29) hlogN 0 1
      (fun i _ => by rw [one_mul, zero_add]) (by rw [hdiv, hn]; decide), zero_add, one_mul,
    hdiv] at hval
  have hone := pow_eq_one_of_halfTurn hok.nttN.root_ne (D := 2 ^ 28) (by decide) hval
  refine odd_pow_pow_ne_one (orderOf_wide (by decide) le_rfl hrootN) (i := 2 ^ 27 - 1)
    (by decide) ?_
  rw [show 2 * (2 ^ 27 - 1) + 1 = 2 ^ 28 - 1 by decide, hone, one_pow]

/-- With `2 ^ 30` parties and four secrets, the last secret is the input of the last party: the
columns of other parties are dependent, and the transforms return something else. -/
theorem masks_exposed : ∃ poly tab, Poly.init 2 30 = some poly ∧
    poly.initLagrangeTable = some tab ∧ (¬∀ e, IsUnit (columns poly tab e)) ∧
      ¬∀ input, ∀ m < poly.k, poly.nttEvalN2K input m = poly.lagrangeEvalN2K tab input m := by
  obtain ⟨poly, tab, hpoly, htab⟩ := Poly.init_tables_wide
  obtain ⟨-, hlogK, hlogN, -⟩ := Poly.init_eq_some hpoly
  have htabOk := Poly.initLagrangeTable_eq_some htab
  have hk : poly.k = 2 ^ 2 := by rw [Poly.k, hlogK]
  have hn : poly.n = 2 ^ 30 := by rw [Poly.n, hlogN]
  have heq := Poly.evalPointsK_three hpoly
  refine ⟨poly, tab, hpoly, htab, fun hunit => ?_, fun hagree =>
    nttEvalN2K_ne_wide hpoly htabOk (hagree _ 3 (by rw [hk]; decide))⟩
  · obtain ⟨e, he⟩ := exists_columns_det_eq_zero htabOk (by rw [hk, hn]; decide)
      (by rw [hk]; decide) (by rw [hn]; decide) heq
    have hdet := (Matrix.isUnit_iff_isUnit_det _).mp (hunit e)
    rw [he] at hdet
    exact not_isUnit_zero hdet

/-! ## The key -/

section Key

variable {F : Type*} [Field F]

/-- The dealing in `Verifier::shareMacKey`: the share `out[m][j]`, where `rand m j` is what the
generator returned for it if `j` is below the degree. -/
def Verifier.dealMacKey (poly : Poly F) (tab : LagrangeTables F) (delta : F) (rand : ℕ → ℕ → F)
    (m j : ℕ) : F :=
  let degree := poly.t
  if j < degree then rand m j
  else tab.lagrangeTableKByTp1 m (j - degree) 0 * delta
    + ∑ l ∈ range degree, tab.lagrangeTableKByTp1 m (j - degree) (l + 1) * rand m l

/-- The key and the random shares. -/
def keyVals (delta : F) (rand : ℕ → ℕ → F) (m l : ℕ) : F := if l = 0 then delta else rand m (l - 1)

/-- The polynomial through the key and the random shares. -/
noncomputable def keyPoly (poly : Poly F) (delta : F) (rand : ℕ → ℕ → F) (m : ℕ) : F[X] :=
  interp (poly.keyPoints m) (poly.t + 1) (keyVals delta rand m)

variable {poly : Poly F} {tab : LagrangeTables F} (htab : tab.Ok poly) {m : ℕ} (hm : m < poly.k)
include htab hm

theorem degree_keyPoly_lt (delta : F) (rand : ℕ → ℕ → F) :
    (keyPoly poly delta rand m).degree < (poly.t + 1 : ℕ) :=
  degree_interp_lt (htab.injOnKey m hm) _

/-- The key is the value at the point of the secret. -/
theorem eval_keyPoly (delta : F) (rand : ℕ → ℕ → F) :
    (keyPoly poly delta rand m).eval (poly.evalPointsK m) = delta :=
  eval_interp_node (htab.injOnKey m hm) (keyVals delta rand m) (Nat.succ_pos _)

/-- **The shares are the values at the points of the parties.** -/
theorem Verifier.dealMacKey_eq_eval (delta : F) (rand : ℕ → ℕ → F) {j : ℕ} (hj : j < poly.n) :
    dealMacKey poly tab delta rand m j
      = (keyPoly poly delta rand m).eval (poly.evalPointsN j) := by
  rw [dealMacKey]
  split
  · rename_i hlow
    exact (eval_interp_node (htab.injOnKey m hm) (keyVals delta rand m)
      (Nat.succ_lt_succ hlow)).symm
  · rename_i hhigh
    have hrow : j - poly.t < poly.k := by
      rw [Poly.t] at hhigh ⊢
      omega
    have hpoint : poly.evalPointsN j = poly.evalPointsN (poly.t + (j - poly.t)) := by
      rw [Nat.add_sub_of_le (not_lt.mp hhigh)]
    rw [keyPoly, eval_interp, sum_range_succ', hpoint, add_comm,
      htab.kByTp1 m hm _ hrow 0 (Nat.succ_pos _), mul_comm _ delta]
    congr 1
    refine sum_congr rfl fun l hl => ?_
    rw [htab.kByTp1 m hm _ hrow _ (Nat.succ_lt_succ (mem_range.mp hl)), mul_comm]
    rfl

/-- **One more share determines the key.** -/
theorem delta_eq_of_dealMacKey {C : Finset ℕ} (hC : C ⊆ range poly.n) (hcard : (#C) = poly.t + 1)
    {delta delta' : F} {rand rand' : ℕ → ℕ → F}
    (h : ∀ j ∈ C, Verifier.dealMacKey poly tab delta rand m j
      = Verifier.dealMacKey poly tab delta' rand' m j) : delta = delta' := by
  have hpoly : keyPoly poly delta rand m = keyPoly poly delta' rand' m := by
    refine eq_of_degrees_lt_of_eval_index_eq C (htab.injOnN.mono (coe_subset.mpr hC))
      (hcard ▸ degree_keyPoly_lt htab hm delta rand)
      (hcard ▸ degree_keyPoly_lt htab hm delta' rand') fun j hj => ?_
    rw [← Verifier.dealMacKey_eq_eval htab hm _ _ (mem_range.mp (hC hj)),
      ← Verifier.dealMacKey_eq_eval htab hm _ _ (mem_range.mp (hC hj)), h j hj]
  rw [← eval_keyPoly htab hm delta rand, hpoly, eval_keyPoly htab hm]

omit htab hm in
/-- What the parties `C` see of slot `m`, from the coins of the dealer. -/
def keyView (poly : Poly F) (tab : LagrangeTables F) (m : ℕ) (C : Finset ℕ) (delta : F)
    (coins : Fin poly.t → F) (j : C) : F :=
  Verifier.dealMacKey poly tab delta (fun _ l => if h : l < poly.t then coins ⟨l, h⟩ else 0) m j

/-- **The shares of `t` parties determine the coins**, if their points are not that of the key. -/
theorem keyView_injective (hsep : poly.Separated) {C : Finset ℕ} (hC : C ⊆ range poly.n)
    (hcard : (#C) = poly.t) (delta : F) : Function.Injective (keyView poly tab m C delta) := by
  intro coins coins' heq
  have hplaces : Set.InjOn (fun o : Option ℕ => o.elim (poly.evalPointsK m) poly.evalPointsN)
      (insertNone C) := by
    rintro (_ | a) ha (_ | b) hb h
    · rfl
    · exact absurd h (hsep m hm b (mem_range.mp (hC (some_mem_insertNone.mp hb))))
    · exact absurd h.symm (hsep m hm a (mem_range.mp (hC (some_mem_insertNone.mp ha))))
    · exact congrArg some (htab.injOnN (hC (some_mem_insertNone.mp ha))
        (hC (some_mem_insertNone.mp hb)) h)
  have hsize : (#(insertNone C)) = poly.t + 1 := by rw [card_insertNone, hcard]
  have hpoly := eq_of_degrees_lt_of_eval_index_eq (insertNone C) hplaces
    (hsize ▸ degree_keyPoly_lt htab hm delta _) (hsize ▸ degree_keyPoly_lt htab hm delta _)
    (f := keyPoly poly delta (fun _ l => if h : l < poly.t then coins ⟨l, h⟩ else 0) m)
    (g := keyPoly poly delta (fun _ l => if h : l < poly.t then coins' ⟨l, h⟩ else 0) m) (by
      rintro (_ | j) hj
      · exact (eval_keyPoly htab hm _ _).trans (eval_keyPoly htab hm _ _).symm
      · have hj' := some_mem_insertNone.mp hj
        have hval := congrFun heq ⟨j, hj'⟩
        rwa [keyView, keyView, Verifier.dealMacKey_eq_eval htab hm _ _ (mem_range.mp (hC hj')),
          Verifier.dealMacKey_eq_eval htab hm _ _ (mem_range.mp (hC hj'))] at hval)
  -- the coins are the values at the first points
  funext ⟨l, hl⟩
  have hln : l < poly.n := hl.trans_le (Nat.sub_le _ _)
  have hval : ∀ c : Fin poly.t → F,
      (keyPoly poly delta (fun _ l => if h : l < poly.t then c ⟨l, h⟩ else 0) m).eval
        (poly.evalPointsN l) = c ⟨l, hl⟩ := fun c => by
    rw [← Verifier.dealMacKey_eq_eval htab hm _ _ hln, Verifier.dealMacKey, if_pos hl, dif_pos hl]
  rw [← hval coins, hpoly, hval coins']

theorem keyView_bijective [Finite F] (hsep : poly.Separated) {C : Finset ℕ}
    (hC : C ⊆ range poly.n) (hcard : (#C) = poly.t) (delta : F) :
    Function.Bijective (keyView poly tab m C delta) := by
  have := Fintype.ofFinite F
  refine (Fintype.bijective_iff_injective_and_card _).mpr
    ⟨keyView_injective htab hm hsep hC hcard delta, ?_⟩
  rw [Fintype.card_fun, Fintype.card_fun, Fintype.card_coe, Fintype.card_fin, hcard]

/-- A party at the point of the secret is given the key itself. -/
theorem dealMacKey_eq_delta {i : ℕ} (hi : i < poly.n)
    (heq : poly.evalPointsK m = poly.evalPointsN i) (delta : F) (rand : ℕ → ℕ → F) :
    Verifier.dealMacKey poly tab delta rand m i = delta := by
  rw [Verifier.dealMacKey_eq_eval htab hm _ _ hi, ← heq, eval_keyPoly htab hm]

/-- Then some `t` parties do not see everything. -/
theorem exists_not_bijective (hlt : poly.k < poly.n) {i : ℕ} (hi : i < poly.n)
    (heq : poly.evalPointsK m = poly.evalPointsN i) :
    ∃ C ⊆ range poly.n, (#C) = poly.t ∧ ¬Function.Bijective (keyView poly tab m C 0) := by
  have ht : (#({i} : Finset ℕ)) ≤ poly.t := by
    rw [card_singleton, Poly.t]
    omega
  obtain ⟨C, hiC, hC, hcard⟩ := exists_subsuperset_card_eq
    (singleton_subset_iff.mpr (mem_range.mpr hi)) ht (by
      rw [card_range]
      exact Nat.sub_le _ _)
  refine ⟨C, hC, hcard, fun hbij => ?_⟩
  obtain ⟨coins, hcoins⟩ := hbij.2 fun _ => 1
  have hone := congrFun hcoins ⟨i, hiC (mem_singleton_self i)⟩
  rw [keyView, dealMacKey_eq_delta htab hm hi heq] at hone
  exact zero_ne_one hone

end Key

/-- **The shares of any `n - k` parties are as random as the coins of the dealer, whatever the
key**, exactly if no secret lies at the point of a party, which is so up to `2 ^ 29` parties; the
shares of one party more determine the key. -/
theorem key_hidden (logK logN : ℕ) (hlt : logK < logN) :
    (logN ≤ 29 → ∃ poly tab, Poly.init logK logN = some poly ∧
      poly.initLagrangeTable = some tab) ∧
    ∀ poly tab, Poly.init logK logN = some poly → poly.initLagrangeTable = some tab →
      ((∀ m < poly.k, ∀ C ⊆ range poly.n, (#C) = poly.t → ∀ delta,
        Function.Bijective (keyView poly tab m C delta)) ↔ poly.Separated) ∧
      (logN ≤ 29 → poly.Separated) ∧
      (poly.Separated → ∀ m < poly.k, ∀ C ⊆ range poly.n, (#C) = poly.t → ∀ delta delta' view,
        Nat.card {coins // keyView poly tab m C delta coins = view}
          = Nat.card {coins // keyView poly tab m C delta' coins = view}) ∧
      ∀ m < poly.k, ∀ C ⊆ range poly.n, (#C) = poly.t + 1 → ∀ delta delta' rand rand',
        (∀ j ∈ C, Verifier.dealMacKey poly tab delta rand m j
          = Verifier.dealMacKey poly tab delta' rand' m j) → delta = delta' := by
  refine ⟨Poly.init_tables_ok hlt, fun poly tab hpoly htab => ?_⟩
  obtain ⟨-, hlogK, hlogN, -, -, -⟩ := Poly.init_eq_some hpoly
  have htabOk := Poly.initLagrangeTable_eq_some htab
  refine ⟨⟨fun hbij m hm i hi heq => ?_, fun hsep m hm C hC hcard delta =>
    keyView_bijective htabOk hm hsep hC hcard delta⟩, Poly.separated_of_le hpoly hlt,
    fun hsep m hm C hC hcard delta delta' view => ?_, fun m hm C hC hcard delta delta' _ _ h =>
      delta_eq_of_dealMacKey htabOk hm hC hcard h⟩
  · obtain ⟨C, hC, hcard, hnot⟩ := exists_not_bijective htabOk hm
      (Poly.k_lt_n (by rwa [hlogK, hlogN])) hi heq
    exact hnot (hbij m hm C hC hcard 0)
  · have hone : ∀ d, Nat.card {coins // keyView poly tab m C d coins = view} = 1 := fun d => by
      obtain ⟨coins, hcoins, huniq⟩ :=
        (keyView_bijective htabOk hm hsep hC hcard d).existsUnique view
      exact Nat.card_eq_one_iff_exists.mpr
        ⟨⟨coins, hcoins⟩, fun c => Subtype.ext (huniq c.1 c.2)⟩
    rw [hone, hone]

theorem key_hidden_two : ∃ poly tab, Poly.init 0 1 = some poly ∧
    poly.initLagrangeTable = some tab ∧ poly.Separated ∧
      Function.Bijective (keyView poly tab 0 {1} 7) := by
  obtain ⟨hinit, hall⟩ := key_hidden 0 1 (by decide)
  obtain ⟨poly, tab, hpoly, htab⟩ := hinit (by decide)
  obtain ⟨hiff, hsep, -⟩ := hall poly tab hpoly htab
  obtain ⟨-, hlogK, hlogN, -⟩ := Poly.init_eq_some hpoly
  have hk : poly.k = 1 := by rw [Poly.k, hlogK, pow_zero]
  have hn : poly.n = 2 := by rw [Poly.n, hlogN, pow_one]
  refine ⟨poly, tab, hpoly, htab, hsep (by decide),
    hiff.mpr (hsep (by decide)) 0 (Poly.k_pos poly) {1} ?_ ?_ 7⟩
  · rw [hn]
    decide
  · rw [Poly.t, hn, hk]
    decide

/-- With `2 ^ 30` parties and four secrets, the last party is given the key of the last slot. -/
theorem key_exposed : ∃ poly tab, Poly.init 2 30 = some poly ∧ poly.initLagrangeTable = some tab ∧
    (∀ delta rand, Verifier.dealMacKey poly tab delta rand 3 (2 ^ 30 - 1) = delta) ∧
      ¬∀ m < poly.k, ∀ C ⊆ range poly.n, (#C) = poly.t → ∀ delta,
        Function.Bijective (keyView poly tab m C delta) := by
  obtain ⟨poly, tab, hpoly, htab⟩ := Poly.init_tables_wide
  obtain ⟨-, hlogK, hlogN, -⟩ := Poly.init_eq_some hpoly
  have htabOk := Poly.initLagrangeTable_eq_some htab
  have hm : 3 < poly.k := by
    rw [Poly.k, hlogK]
    decide
  have hi : 2 ^ 30 - 1 < poly.n := by
    rw [Poly.n, hlogN]
    decide
  have heq := Poly.evalPointsK_three hpoly
  refine ⟨poly, tab, hpoly, htab, dealMacKey_eq_delta htabOk hm hi heq, fun hbij => ?_⟩
  obtain ⟨C, hC, hcard, hnot⟩ := exists_not_bijective htabOk hm
    (Poly.k_lt_n (by rw [hlogK, hlogN]; decide)) hi heq
  exact hnot (hbij 3 hm C hC hcard 0)

end VoleZk.Mvzk
