import VoleZk.Bool.F2k
import VoleZk.Lib.ProductTest

/-!
# The permutation proof

`ZKPermProof` compares two lists of authenticated elements as multisets.  An element of one wire
goes straight into the compressed list; a longer one waits until `compress` folds it into one wire,
with coefficients drawn for that call.  `check_eq` folds what is left, multiplies up `r - e` on both
sides, four factors at a time and the rest one by one, and compares the two products.

The challenges are arguments here, so that a statement about all of them is about every transcript.

## What is here

* `PermProof`, its operations, and `PermProof.run`;
* `Folds` — the elements added since the last check, by the call that folds them;
* `F2kSession.eval_spec` — **the product, for a list of any length**;
* `PermProof.checkEq_run` — **what the check accepts**: the products, permutations, and how many
  challenges if the lists are no permutations.
-/

set_option autoImplicit false

open Finset

namespace VoleZk

/-! ## The object -/

/-- `n_blocks`, the wires of an element. -/
def nBlocksFor (payloadBits : ℕ) : ℕ := (payloadBits + 127) / 128

/-- The two lists of one multiset: `a_pending` and `a_elems_compressed`, or those of `b`. -/
structure PermSide where
  /-- Wires that wait for compression. -/
  pending : List F2kLabel
  /-- Elements of one wire. -/
  elems : List F2kLabel

namespace PermSide

/-- Before anything is added. -/
def empty : PermSide := ⟨[], []⟩

/-- `add_A` and `add_B`. -/
def add {n : ℕ} (s : PermSide) (e : Fin n → F2kLabel) : PermSide :=
  if n = 1 then { s with elems := s.elems ++ List.ofFn e }
  else { s with pending := s.pending ++ List.ofFn e }

/-- One turn of `fold_`: the wires `e`, combined. -/
def foldElem (C : BoolConfig) (n : ℕ) (coeff : ℕ → Block) (e : ℕ → F2kLabel) : F2kLabel :=
  (List.range (n - 1)).foldl
    (fun acc j => BoolConfig.f2kAdd acc (C.f2kMulConst (e (j + 1)) (coeff (j + 1))))
    (C.f2kMulConst (e 0) (coeff 0))

/-- `fold_`, and the `clear` after it. -/
def fold (C : BoolConfig) (n : ℕ) (coeff : ℕ → Block) (s : PermSide) : PermSide where
  pending := []
  elems := s.elems ++ (List.range (s.pending.length / n)).map fun i =>
    foldElem C n coeff fun j => s.pending.getD (i * n + j) ⟨⟨0, 0⟩, ⟨0, 0⟩⟩

end PermSide

/-- The two parties' `ZKPermProof`. -/
structure PermProof where
  /-- The engines, and the buffers of `polyprdt`. -/
  session : F2kSession
  /-- `a_pending` and `a_elems_compressed`. -/
  a : PermSide
  /-- `b_pending` and `b_elems_compressed`. -/
  b : PermSide

namespace F2kSession

variable (C : F2kConfig)

/-- The second loop of `eval_`: one factor at a time. -/
def evalRest (r : Block) : F2kSession → F2kLabel → List F2kLabel → F2kSession × F2kLabel
  | s, acc, [] => (s, acc)
  | s, acc, x :: xs =>
    let (s, acc) := s.f2kMul C acc (C.bool.f2kAddConst x r)
    evalRest r s acc xs

/-- The two loops of `eval_`: four factors at a time while there are four, then the rest. -/
def evalLoop (r : Block) : F2kSession → F2kLabel → List F2kLabel → Option (F2kSession × F2kLabel)
  | s, acc, x₀ :: x₁ :: x₂ :: x₃ :: xs =>
    (s.mulPoly C acc (C.bool.f2kAddConst x₀ r) [C.bool.f2kAddConst x₁ r, C.bool.f2kAddConst x₂ r,
      C.bool.f2kAddConst x₃ r]).bind fun p => evalLoop r p.1 p.2 xs
  | s, acc, xs => some (evalRest C r s acc xs)

/-- `eval_`, of a first element and the others. -/
def eval (r : Block) (s : F2kSession) (x : F2kLabel) (xs : List F2kLabel) :
    Option (F2kSession × F2kLabel) :=
  evalLoop C r s (C.bool.f2kAddConst x r) xs

end F2kSession

namespace PermProof

variable (C : F2kConfig) (n : ℕ)

/-- `compress`. -/
def compress (coeff : ℕ → Block) (s : PermProof) : PermProof :=
  if n = 1 ∨ (s.a.pending = [] ∧ s.b.pending = []) then s
  else { s with a := s.a.fold C.bool n coeff, b := s.b.fold C.bool n coeff }

/-- `open_eq_`: the prover's MACs folded into the verifier's keys. -/
def openEq (pa pb : F2kLabel) : Prop :=
  pa.verifier.mac ^^^ pa.prover.mac = pb.verifier.mac ^^^ pb.prover.mac

instance (pa pb : F2kLabel) : Decidable (openEq pa pb) :=
  inferInstanceAs
    (Decidable (pa.verifier.mac ^^^ pa.prover.mac = pb.verifier.mac ^^^ pb.prover.mac))

/-- What `check_eq` does with two lists that are not empty. -/
def compare (r : Block) (s : F2kSession) (a : F2kLabel) (as : List F2kLabel) (b : F2kLabel)
    (bs : List F2kLabel) : Option F2kSession :=
  (s.eval C r a as).bind fun p => (p.1.eval C r b bs).bind fun q =>
    if openEq p.2 q.2 then q.1.batchCheck C else none

/-- `check_eq`. -/
def checkEq (coeff : ℕ → Block) (r : Block) (s : PermProof) : Option PermProof :=
  let s := s.compress C n coeff
  if s.a.elems.length ≠ s.b.elems.length then none
  else
    match s.a.elems, s.b.elems with
    | a :: as, b :: bs => (compare C r s.session a as b bs).map fun t => ⟨t, .empty, .empty⟩
    | _, _ => some ⟨s.session, .empty, .empty⟩

end PermProof

/-- A call on the object.  The challenges a call draws come with it. -/
inductive PermOp (n : ℕ) where
  /-- `add_A(e)`. -/
  | addA (e : Fin n → F2kLabel)
  /-- `add_B(e)`. -/
  | addB (e : Fin n → F2kLabel)
  /-- `compress()`. -/
  | compress (coeff : ℕ → Block)
  /-- `check_eq()`. -/
  | checkEq (coeff : ℕ → Block) (r : Block)

namespace PermProof

variable (C : F2kConfig) {n : ℕ}

/-- One call. -/
def step (s : PermProof) : PermOp n → Option PermProof
  | .addA e => some { s with a := s.a.add e }
  | .addB e => some { s with b := s.b.add e }
  | .compress coeff => some (s.compress C n coeff)
  | .checkEq coeff r => s.checkEq C n coeff r

/-- A list of calls. -/
def run : PermProof → List (PermOp n) → Option PermProof
  | s, [] => some s
  | s, o :: os => (s.step C o).bind fun s => run s os

/-- A new object, on engines that have drawn `drawn` COTs and `voles` correlations. -/
def init (prover verifier : ZKBool) (voles : ℕ) : PermProof where
  session := ⟨prover, verifier, voles, [], 0⟩
  a := .empty
  b := .empty

end PermProof

/-! ## The values -/

/-- The elements that one call of `compress` folds, by value. -/
structure Batch (n : ℕ) where
  /-- Those of `A`. -/
  a : List (Fin n → Block)
  /-- Those of `B`. -/
  b : List (Fin n → Block)
  /-- The coefficients of the call. -/
  coeff : ℕ → Block

/-- The elements added since the last check. -/
structure Folds (n : ℕ) where
  /-- The batches folded. -/
  done : List (Batch n)
  /-- The elements of `A` that are not folded yet. -/
  a : List (Fin n → Block)
  /-- Those of `B`. -/
  b : List (Fin n → Block)

/-- The value of an element, on the prover's side. -/
def elemVal {n : ℕ} (e : Fin n → F2kLabel) (j : Fin n) : Block := (e j).prover.val

namespace Folds

variable {n : ℕ}

/-- Nothing added. -/
def empty : Folds n := ⟨[], [], []⟩

/-- The batches, if the rest is folded with these coefficients. -/
def close (f : Folds n) (coeff : ℕ → Block) : List (Batch n) := f.done ++ [⟨f.a, f.b, coeff⟩]

/-- One call. -/
def step (f : Folds n) : PermOp n → Folds n
  | .addA e => { f with a := f.a ++ [elemVal e] }
  | .addB e => { f with b := f.b ++ [elemVal e] }
  | .compress coeff => ⟨f.close coeff, [], []⟩
  | .checkEq _ _ => empty

/-- A list of calls. -/
def run (f : Folds n) (os : List (PermOp n)) : Folds n := os.foldl step f

end Folds

/-- The value of a compressed element. -/
def foldVal (C : BoolConfig) {n : ℕ} (coeff : ℕ → Block) (e : Fin n → Block) : Block :=
  let wire := fun j => if h : j < n then e ⟨j, h⟩ else 0
  if n = 1 then wire 0
  else (List.range (n - 1)).foldl (fun acc j => acc ^^^ C.G.gfmul (coeff (j + 1)) (wire (j + 1)))
    (C.G.gfmul (coeff 0) (wire 0))

/-- The compressed elements of a list of batches, of one side. -/
def compressed (C : BoolConfig) {n : ℕ} (side : Batch n → List (Fin n → Block))
    (bs : List (Batch n)) : List Block :=
  bs.flatMap fun b => (side b).map (foldVal C b.coeff)

/-! ## The product -/

namespace F2kSession

variable {R : Type*} [CommRing R] {C : F2kConfig} {φ : Block → R}

/-- The factor of an element. -/
theorem map_factor (hG : C.bool.G.Lawful φ) (v r : Block) : φ (v ^^^ r) = φ r - φ v := by
  rw [hG.xor]
  linear_combination hG.add_self (φ v)

/-- The product of the factors of a list. -/
def factors (φ : Block → R) (r : Block) (vs : List Block) : R := (vs.map fun v => φ r - φ v).prod

theorem evalRest_spec (hG : C.bool.G.Lawful φ) (hC : C.Valid) {r : Block} {xs : List F2kLabel}
    {vs : List Block} (hxs : List.Forall₂ (F2kLabel.Holds C.bool) xs vs) {s : F2kSession}
    (hs : s.Ok C φ) {acc : F2kLabel} {x : Block} (hacc : acc.Holds C.bool x) :
    (evalRest C r s acc xs).1.Ok C φ ∧
      ∃ z, (evalRest C r s acc xs).2.Holds C.bool z ∧ φ z = φ x * factors φ r vs := by
  induction hxs generalizing s acc x with
  | nil => exact ⟨hs, x, hacc, by simp [factors]⟩
  | cons hv _ ih =>
    obtain ⟨hs', hacc'⟩ := f2kMul_spec hG hC hs hacc (hv.f2kAddConst hG r)
    obtain ⟨hok, z, hz, hval⟩ := ih hs' hacc'
    refine ⟨hok, z, hz, ?_⟩
    rw [hval, hG.gfmul, map_factor hG, factors, factors, List.map_cons, List.prod_cons, mul_assoc]

/-- Fewer than four factors are left. -/
theorem evalLoop_of_lt {r : Block} {s : F2kSession} {acc : F2kLabel} {xs : List F2kLabel}
    (h : xs.length < 4) : evalLoop C r s acc xs = some (evalRest C r s acc xs) := by
  match xs, h with
  | [], _ => rfl
  | [_], _ => rfl
  | [_, _], _ => rfl
  | [_, _, _], _ => rfl
  | _ :: _ :: _ :: _ :: _, h => exact absurd h (by simp)

theorem evalLoop_short (hG : C.bool.G.Lawful φ) (hC : C.Valid) {r : Block} {xs : List F2kLabel}
    {vs : List Block} {s : F2kSession} {acc : F2kLabel} {x : Block} (hlt : xs.length < 4)
    (hxs : List.Forall₂ (F2kLabel.Holds C.bool) xs vs) (hs : s.Ok C φ)
    (hacc : acc.Holds C.bool x) :
    ∃ s' w z, evalLoop C r s acc xs = some (s', w) ∧ s'.Ok C φ ∧ w.Holds C.bool z ∧
      φ z = φ x * factors φ r vs := by
  obtain ⟨hok, z, hz, hval⟩ := evalRest_spec hG hC (r := r) hxs hs hacc
  exact ⟨_, _, z, evalLoop_of_lt hlt, hok, hz, hval⟩

/-- **The two loops multiply up all factors**, however many there are. -/
theorem evalLoop_spec (hG : C.bool.G.Lawful φ) (hC : C.Valid) {r : Block} :
    ∀ {xs : List F2kLabel} {vs : List Block} {s : F2kSession} {acc : F2kLabel} {x : Block},
      List.Forall₂ (F2kLabel.Holds C.bool) xs vs → s.Ok C φ → acc.Holds C.bool x →
        ∃ s' w z, evalLoop C r s acc xs = some (s', w) ∧ s'.Ok C φ ∧ w.Holds C.bool z ∧
          φ z = φ x * factors φ r vs
  | x₀ :: x₁ :: x₂ :: x₃ :: xs, _, s, acc, x, h, hs, hacc => by
    obtain _ | ⟨h₀, h⟩ := h
    obtain _ | ⟨h₁, h⟩ := h
    obtain _ | ⟨h₂, h⟩ := h
    obtain _ | ⟨h₃, h⟩ := h
    have hrest := List.Forall₂.cons (h₁.f2kAddConst hG r) (List.Forall₂.cons
      (h₂.f2kAddConst hG r) (List.Forall₂.cons (h₃.f2kAddConst hG r) List.Forall₂.nil))
    obtain ⟨s₁, acc₁, hmul, hs₁, hacc₁⟩ := mulPoly_spec hG hC hs hacc (h₀.f2kAddConst hG r) hrest
      (List.cons_ne_nil _ _) le_rfl
    obtain ⟨s', w, z, heval, hok, hw, hval⟩ := evalLoop_spec hG hC h hs₁ hacc₁
    refine ⟨s', w, z, ?_, hok, hw, ?_⟩
    · rw [evalLoop, hmul, Option.bind_some, heval]
    · rw [hval, map_f2kMulV hG]
      simp only [factors, List.map_cons, List.map_nil, List.prod_cons, List.prod_nil, mul_one,
        map_factor hG]
      ring
  | [], _, _, _, _, h, hs, hacc => evalLoop_short hG hC (by decide) h hs hacc
  | [_], _, _, _, _, h, hs, hacc => evalLoop_short hG hC (by simp) h hs hacc
  | [_, _], _, _, _, _, h, hs, hacc => evalLoop_short hG hC (by simp) h hs hacc
  | [_, _, _], _, _, _, _, h, hs, hacc => evalLoop_short hG hC (by simp) h hs hacc

/-- **`eval_`** gives a wire of the product. -/
theorem eval_spec (hG : C.bool.G.Lawful φ) (hC : C.Valid) {r : Block} {x : F2kLabel}
    {xs : List F2kLabel} {v : Block} {vs : List Block} {s : F2kSession} (hs : s.Ok C φ)
    (hx : x.Holds C.bool v) (hxs : List.Forall₂ (F2kLabel.Holds C.bool) xs vs) :
    ∃ s' w z, s.eval C r x xs = some (s', w) ∧ s'.Ok C φ ∧ w.Holds C.bool z ∧
      φ z = factors φ r (v :: vs) := by
  obtain ⟨s', w, z, heval, hok, hw, hval⟩ := evalLoop_spec hG hC (r := r) hxs hs
    (hx.f2kAddConst hG r)
  refine ⟨s', w, z, heval, hok, hw, ?_⟩
  rw [hval, map_factor hG, factors, factors, List.map_cons, List.prod_cons]

end F2kSession

/-! ## The comparison -/

namespace PermProof

variable {R : Type*} [CommRing R] {C : F2kConfig} {φ : Block → R}

open F2kSession

/-- The key is not zero. -/
theorem map_delta_ne_zero (hG : C.bool.G.Lawful φ) (hC : C.Valid) : φ C.bool.delta ≠ 0 := by
  intro hzero
  have hdelta : C.bool.delta = 0 := hG.injective (hzero.trans (Gf2k.map_zero hG.xor).symm)
  have hlsb := hC.bool.delta_lsb
  rw [hdelta] at hlsb
  exact absurd hlsb (by decide)

variable [IsDomain R]

/-- **Opening two wires** compares their values. -/
theorem openEq_iff (hG : C.bool.G.Lawful φ) (hC : C.Valid) {pa pb : F2kLabel} {x y : Block}
    (ha : pa.Holds C.bool x) (hb : pb.Holds C.bool y) : openEq pa pb ↔ φ x = φ y := by
  have hopen : ∀ {w : F2kLabel} {v : Block}, w.Holds C.bool v →
      φ (w.verifier.mac ^^^ w.prover.mac) = φ v * φ C.bool.delta := fun {w v} h => by
    rw [hG.xor, h.map_mac hG, ← add_assoc, hG.add_self, zero_add]
  rw [openEq, ← hG.injective.eq_iff, hopen ha, hopen hb]
  exact ⟨fun h => mul_right_cancel₀ (map_delta_ne_zero hG hC) h, fun h => by rw [h]⟩

/-- **What is compared are the products.** -/
theorem compare_spec (hG : C.bool.G.Lawful φ) (hC : C.Valid) {r : Block} {s : F2kSession}
    (hs : s.Ok C φ) {a b : F2kLabel} {as bs : List F2kLabel} {x y : Block} {xs ys : List Block}
    (ha : a.Holds C.bool x) (has : List.Forall₂ (F2kLabel.Holds C.bool) as xs)
    (hb : b.Holds C.bool y) (hbs : List.Forall₂ (F2kLabel.Holds C.bool) bs ys) :
    (∀ t, compare C r s a as b bs = some t → t.Ok C φ) ∧
      ((compare C r s a as b bs).isSome
        ↔ factors φ r (x :: xs) = factors φ r (y :: ys)) := by
  obtain ⟨s₁, pa, z, heval, hs₁, hpa, hz⟩ := eval_spec hG hC (r := r) hs ha has
  obtain ⟨s₂, pb, z', heval', hs₂, hpb, hz'⟩ := eval_spec hG hC (r := r) hs₁ hb hbs
  obtain ⟨t, hcheck, ht⟩ := batchCheck_ok hG hs₂
  have hcompare : compare C r s a as b bs = if openEq pa pb then some t else none := by
    rw [compare, heval, Option.bind_some, heval', Option.bind_some, hcheck]
  rw [hcompare, ← hz, ← hz', ← openEq_iff hG hC hpa hpb]
  constructor
  · intro t' ht'
    split at ht'
    · exact Option.some_inj.mp ht' ▸ ht
    · exact absurd ht' (by simp)
  · split
    · exact iff_of_true rfl ‹_›
    · exact iff_of_false (by simp) ‹_›

end PermProof

/-! ## One side -/

/-- A list of elements, one wire after the other: wire `j` of element `i`. -/
theorem getElem?_flatMap_ofFn {α : Type*} {n : ℕ} (cur : List (Fin n → α)) (i : ℕ) (j : Fin n) :
    (cur.flatMap List.ofFn)[i * n + j]? = cur[i]?.map fun e => e j := by
  induction cur generalizing i with
  | nil => rfl
  | cons e cur ih =>
    rw [List.flatMap_cons]
    cases i with
    | zero =>
      rw [Nat.zero_mul, Nat.zero_add, List.getElem?_append_left (by simp), List.getElem?_ofFn,
        dif_pos j.isLt]
      rfl
    | succ i =>
      have hidx : (i + 1) * n + j = n + (i * n + j) := by ring
      rw [List.getElem?_append_right (by rw [List.length_ofFn, hidx]; exact Nat.le_add_right _ _),
        List.length_ofFn, hidx, Nat.add_sub_cancel_left, ih]
      rfl

theorem length_flatMap_ofFn {α : Type*} {n : ℕ} (cur : List (Fin n → α)) :
    (cur.flatMap List.ofFn).length = cur.length * n := by
  induction cur with
  | nil => simp
  | cons e cur ih => rw [List.flatMap_cons, List.length_append, ih, List.length_ofFn,
      List.length_cons, Nat.succ_mul, Nat.add_comm]

namespace PermSide

variable {R : Type*} [CommRing R] {C : BoolConfig} {φ : Block → R} {n : ℕ}

/-- The elements of one side: `done` are compressed, `cur` wait, or are of one wire. -/
structure Holds (C : BoolConfig) (s : PermSide) (done : List Block) (cur : List (Fin n → Block)) :
    Prop where
  /-- Elements of one wire are in the list. -/
  one : n = 1 → s.pending = [] ∧
    List.Forall₂ (F2kLabel.Holds C) s.elems (done ++ cur.map (foldVal C fun _ => 0))
  /-- Longer ones wait. -/
  many : n ≠ 1 → List.Forall₂ (F2kLabel.Holds C) s.elems done ∧
    List.Forall₂ (F2kLabel.Holds C) s.pending (cur.flatMap List.ofFn)

theorem holds_empty (C : BoolConfig) (n : ℕ) : empty.Holds C [] ([] : List (Fin n → Block)) where
  one _ := ⟨rfl, .nil⟩
  many _ := ⟨.nil, .nil⟩

/-- An element of authenticated wires. -/
def ElemOk (C : BoolConfig) (e : Fin n → F2kLabel) : Prop := ∀ j, (e j).Holds C (elemVal e j)

theorem forall₂_ofFn {e : Fin n → F2kLabel} (he : ElemOk C e) :
    List.Forall₂ (F2kLabel.Holds C) (List.ofFn e) (List.ofFn (elemVal e)) := by
  rw [List.forall₂_iff_get]
  refine ⟨by simp, fun i hi _ => ?_⟩
  simp only [List.get_eq_getElem, List.getElem_ofFn]
  exact he _

/-- `add_A` and `add_B`. -/
theorem Holds.add {s : PermSide} {done : List Block} {cur : List (Fin n → Block)}
    (h : s.Holds C done cur) {e : Fin n → F2kLabel} (he : ElemOk C e) :
    (s.add e).Holds C done (cur ++ [elemVal e]) where
  one hn := by
    obtain ⟨hpending, helems⟩ := h.one hn
    rw [PermSide.add, if_pos hn]
    refine ⟨hpending, ?_⟩
    rw [List.map_append, ← List.append_assoc]
    subst hn
    exact List.rel_append helems (forall₂_ofFn he)
  many hn := by
    obtain ⟨helems, hpending⟩ := h.many hn
    rw [PermSide.add, if_neg hn]
    refine ⟨helems, ?_⟩
    rw [List.flatMap_append, List.flatMap_singleton]
    exact List.rel_append hpending (forall₂_ofFn he)

/-- **`fold_`, one element**: the wires combine as their values do. -/
theorem foldElem_holds (hG : C.G.Lawful φ) (hn : 0 < n) (coeff : ℕ → Block)
    {e : ℕ → F2kLabel} (wire : ℕ → Block) (he : ∀ j < n, (e j).Holds C (wire j)) :
    (foldElem C n coeff e).Holds C ((List.range (n - 1)).foldl
      (fun acc j => acc ^^^ C.G.gfmul (coeff (j + 1)) (wire (j + 1)))
      (C.G.gfmul (coeff 0) (wire 0))) := by
  have hterms : ∀ k ≤ n - 1, ((List.range k).foldl
      (fun acc j => BoolConfig.f2kAdd acc (C.f2kMulConst (e (j + 1)) (coeff (j + 1))))
        (C.f2kMulConst (e 0) (coeff 0))).Holds C ((List.range k).foldl
          (fun acc j => acc ^^^ C.G.gfmul (coeff (j + 1)) (wire (j + 1)))
          (C.G.gfmul (coeff 0) (wire 0))) := by
    intro k
    induction k with
    | zero => exact fun _ => (he 0 hn).f2kMulConst hG (coeff 0)
    | succ k ih =>
      intro hk
      rw [List.range_succ, List.foldl_append, List.foldl_append]
      exact (ih (Nat.le_of_succ_le hk)).f2kAdd hG
        ((he (k + 1) (by omega)).f2kMulConst hG (coeff (k + 1)))
  exact hterms (n - 1) le_rfl

/-- **`fold_`**: every element that waits becomes one wire. -/
theorem Holds.fold (hG : C.G.Lawful φ) (hn : 0 < n) (hne : n ≠ 1) {s : PermSide}
    {done : List Block} {cur : List (Fin n → Block)} (h : s.Holds C done cur) (coeff : ℕ → Block) :
    (s.fold C n coeff).Holds C (done ++ cur.map (foldVal C coeff))
      ([] : List (Fin n → Block)) where
  one hn1 := absurd hn1 hne
  many _ := by
    obtain ⟨helems, hpending⟩ := h.many hne
    refine ⟨List.rel_append helems ?_, .nil⟩
    have hlen : s.pending.length = cur.length * n :=
      hpending.length_eq.trans (length_flatMap_ofFn cur)
    rw [hlen, Nat.mul_div_cancel _ hn, List.forall₂_iff_get]
    refine ⟨by simp, fun i hi hi' => ?_⟩
    rw [List.length_map] at hi'
    simp only [List.get_eq_getElem, List.getElem_map, List.getElem_range]
    rw [foldVal]
    simp only [if_neg hne]
    refine foldElem_holds hG hn coeff (fun j => if h : j < n then cur[i] ⟨j, h⟩ else 0)
      fun j hj => ?_
    have hidx : i * n + j < s.pending.length := by
      rw [hlen]
      calc i * n + j < i * n + n := Nat.add_lt_add_left hj _
        _ = (i + 1) * n := (Nat.succ_mul i n).symm
        _ ≤ cur.length * n := Nat.mul_le_mul_right n hi'
    have hwire := hpending.get hidx (hpending.length_eq ▸ hidx)
    have hval := getElem?_flatMap_ofFn cur i ⟨j, hj⟩
    rw [List.getElem?_eq_getElem hi', List.getElem?_eq_getElem (hpending.length_eq ▸ hidx),
      Option.map_some, Option.some_inj] at hval
    rw [List.getD_eq_getElem _ _ hidx, dif_pos hj, ← hval]
    exact hwire

/-- An element of one wire does not depend on the coefficients. -/
theorem foldVal_one (C : BoolConfig) (hn : n = 1) (coeff coeff' : ℕ → Block) (e : Fin n → Block) :
    foldVal C coeff e = foldVal C coeff' e := by
  rw [foldVal, foldVal, if_pos hn, if_pos hn]

/-- With one wire an element there is nothing to compress. -/
theorem Holds.of_one {s : PermSide} {done : List Block} {cur : List (Fin n → Block)}
    (h : s.Holds C done cur) (hn : n = 1) (coeff : ℕ → Block) :
    s.Holds C (done ++ cur.map (foldVal C coeff)) ([] : List (Fin n → Block)) where
  one _ := by
    obtain ⟨hpending, helems⟩ := h.one hn
    rw [List.map_nil, List.append_nil, List.map_congr_left fun e _ => foldVal_one C hn coeff _ e]
    exact ⟨hpending, helems⟩
  many hne := absurd hn hne

/-- Nor with nothing that waits. -/
theorem Holds.of_pending (hn : 0 < n) (hne : n ≠ 1) {s : PermSide} {done : List Block}
    {cur : List (Fin n → Block)} (h : s.Holds C done cur) (hpending : s.pending = [])
    (coeff : ℕ → Block) :
    s.Holds C (done ++ cur.map (foldVal C coeff)) ([] : List (Fin n → Block)) := by
  have hlen := (h.many hne).2.length_eq
  rw [hpending, length_flatMap_ofFn, List.length_nil, eq_comm, Nat.mul_eq_zero] at hlen
  have hcur : cur = [] := List.eq_nil_of_length_eq_zero (hlen.resolve_right hn.ne')
  rw [hcur, List.map_nil, List.append_nil, ← hcur]
  exact hcur ▸ h

/-- The compressed elements, when nothing waits. -/
theorem Holds.elems {s : PermSide} {done : List Block}
    (h : s.Holds C done ([] : List (Fin n → Block))) :
    List.Forall₂ (F2kLabel.Holds C) s.elems done := by
  by_cases hn : n = 1
  · simpa using (h.one hn).2
  · exact (h.many hn).1

end PermSide

namespace PermProof

variable {R : Type*} [CommRing R] {C : F2kConfig} {φ : Block → R} {n : ℕ}

/-- What holds between two calls. -/
structure Inv (C : F2kConfig) (φ : Block → R) (s : PermProof) (f : Folds n) : Prop where
  /-- The engines. -/
  session : s.session.Ok C φ
  /-- The elements of `A`. -/
  a : s.a.Holds C.bool (compressed C.bool Batch.a f.done) f.a
  /-- The elements of `B`. -/
  b : s.b.Holds C.bool (compressed C.bool Batch.b f.done) f.b

theorem inv_init (C : F2kConfig) (φ : Block → R) {prover verifier : ZKBool}
    (hdrawn : prover.drawn = verifier.drawn) (voles : ℕ) :
    (init prover verifier voles).Inv C φ (Folds.empty : Folds n) where
  session := ⟨hdrawn, fun _ hrow => absurd hrow List.not_mem_nil⟩
  a := PermSide.holds_empty C.bool n
  b := PermSide.holds_empty C.bool n

theorem compressed_close (C : BoolConfig) (side : Batch n → List (Fin n → Block)) (f : Folds n)
    (coeff : ℕ → Block) : compressed C side (f.close coeff)
      = compressed C side f.done ++ (side ⟨f.a, f.b, coeff⟩).map (foldVal C coeff) := by
  rw [compressed, Folds.close, List.flatMap_append, List.flatMap_singleton, ← compressed]

/-- **`compress`** leaves nothing waiting. -/
theorem Inv.compress (hG : C.bool.G.Lawful φ) (hn : 0 < n) {s : PermProof} {f : Folds n}
    (h : s.Inv C φ f) (coeff : ℕ → Block) :
    (s.compress C n coeff).Inv C φ (⟨f.close coeff, [], []⟩ : Folds n) := by
  by_cases hn1 : n = 1
  · rw [PermProof.compress, if_pos (Or.inl hn1)]
    refine ⟨h.session, ?_, ?_⟩
    · exact compressed_close C.bool Batch.a f coeff ▸ h.a.of_one hn1 coeff
    · exact compressed_close C.bool Batch.b f coeff ▸ h.b.of_one hn1 coeff
  · by_cases hempty : s.a.pending = [] ∧ s.b.pending = []
    · rw [PermProof.compress, if_pos (Or.inr hempty)]
      refine ⟨h.session, ?_, ?_⟩
      · exact compressed_close C.bool Batch.a f coeff ▸ h.a.of_pending hn hn1 hempty.1 coeff
      · exact compressed_close C.bool Batch.b f coeff ▸ h.b.of_pending hn hn1 hempty.2 coeff
    · rw [PermProof.compress, if_neg (not_or.mpr ⟨hn1, hempty⟩)]
      refine ⟨h.session, ?_, ?_⟩
      · exact compressed_close C.bool Batch.a f coeff ▸ h.a.fold hG hn hn1 coeff
      · exact compressed_close C.bool Batch.b f coeff ▸ h.b.fold hG hn hn1 coeff

variable [IsDomain R]

/-- **`check_eq`**: what it accepts, and that it leaves the object as new. -/
theorem Inv.checkEq (hG : C.bool.G.Lawful φ) (hC : C.Valid) (hn : 0 < n) {s : PermProof}
    {f : Folds n} (h : s.Inv C φ f) (coeff : ℕ → Block) (r : Block) :
    (∀ t, s.checkEq C n coeff r = some t → t.Inv C φ (Folds.empty : Folds n)) ∧
      ((s.checkEq C n coeff r).isSome ↔
        (compressed C.bool Batch.a (f.close coeff)).length
            = (compressed C.bool Batch.b (f.close coeff)).length ∧
          F2kSession.factors φ r (compressed C.bool Batch.a (f.close coeff))
            = F2kSession.factors φ r (compressed C.bool Batch.b (f.close coeff))) := by
  have hempty : ∀ {t : F2kSession}, t.Ok C φ →
      (⟨t, .empty, .empty⟩ : PermProof).Inv C φ (Folds.empty : Folds n) := fun ht =>
    ⟨ht, PermSide.holds_empty C.bool n, PermSide.holds_empty C.bool n⟩
  have hfold := h.compress hG hn coeff
  have ha := hfold.a.elems
  have hb := hfold.b.elems
  have hsession := hfold.session
  rw [PermProof.checkEq]
  generalize s.compress C n coeff = s' at ha hb hsession
  simp only [] at ha hb
  generalize compressed C.bool Batch.a (f.close coeff) = xs at ha
  generalize compressed C.bool Batch.b (f.close coeff) = ys at hb
  rw [ha.length_eq, hb.length_eq]
  by_cases hlen : xs.length = ys.length
  · rw [if_neg (not_not.mpr hlen)]
    cases hea : s'.a.elems with
    | nil =>
      obtain rfl : xs = [] := by simpa [hea] using ha
      obtain rfl : ys = [] := List.eq_nil_of_length_eq_zero hlen.symm
      exact ⟨fun t ht => Option.some_inj.mp ht ▸ hempty hsession, iff_of_true rfl ⟨rfl, rfl⟩⟩
    | cons a as =>
      cases heb : s'.b.elems with
      | nil =>
        rw [hea] at ha
        rw [heb] at hb
        have hcount := (ha.length_eq.trans hlen).trans hb.length_eq.symm
        exact absurd hcount (by simp)
      | cons b bs =>
        rw [hea] at ha
        rw [heb] at hb
        obtain _ | ⟨hx, hxs⟩ := ha
        obtain _ | ⟨hy, hys⟩ := hb
        obtain ⟨hok, hiff⟩ := compare_spec hG hC (r := r) hsession hx hxs hy hys
        refine ⟨fun t ht => ?_, ?_⟩
        · obtain ⟨u, hu, rfl⟩ := Option.map_eq_some_iff.mp ht
          exact hempty (hok u hu)
        · rw [Option.isSome_map, hiff]
          exact ⟨fun heq => ⟨hlen, heq⟩, fun heq => heq.2⟩
  · rw [if_pos hlen]
    exact ⟨fun t ht => absurd ht (by simp), iff_of_false (by simp) fun heq => hlen heq.1⟩

/-- A call whose elements are authenticated. -/
def OpOk (C : BoolConfig) : PermOp n → Prop
  | .addA e => PermSide.ElemOk C e
  | .addB e => PermSide.ElemOk C e
  | _ => True

theorem Inv.step (hG : C.bool.G.Lawful φ) (hC : C.Valid) (hn : 0 < n) {s s' : PermProof}
    {f : Folds n} (h : s.Inv C φ f) {o : PermOp n} (ho : OpOk C.bool o)
    (hstep : s.step C o = some s') : s'.Inv C φ (f.step o) := by
  cases o with
  | addA e =>
    obtain rfl := Option.some_inj.mp hstep
    exact ⟨h.session, h.a.add ho, h.b⟩
  | addB e =>
    obtain rfl := Option.some_inj.mp hstep
    exact ⟨h.session, h.a, h.b.add ho⟩
  | compress coeff =>
    obtain rfl := Option.some_inj.mp hstep
    exact h.compress hG hn coeff
  | checkEq coeff r => exact (h.checkEq hG hC hn coeff r).1 s' hstep

theorem Inv.run (hG : C.bool.G.Lawful φ) (hC : C.Valid) (hn : 0 < n) {os : List (PermOp n)}
    (hos : ∀ o ∈ os, OpOk C.bool o) {s s' : PermProof} {f : Folds n} (h : s.Inv C φ f)
    (hrun : s.run C os = some s') : s'.Inv C φ (f.run os) := by
  induction os generalizing s f with
  | nil => exact Option.some_inj.mp hrun ▸ h
  | cons o os ih =>
    rw [PermProof.run, Option.bind_eq_some_iff] at hrun
    obtain ⟨t, hstep, hrest⟩ := hrun
    exact ih (fun o' ho' => hos o' (List.mem_cons_of_mem _ ho'))
      (h.step hG hC hn (hos o List.mem_cons_self) hstep) hrest

/-- Batches that are permutations have compressed lists that are. -/
theorem compressed_perm (C : BoolConfig) {bs : List (Batch n)} (h : ∀ b ∈ bs, b.a.Perm b.b) :
    (compressed C Batch.a bs).Perm (compressed C Batch.b bs) := by
  induction bs with
  | nil => exact .nil
  | cons b bs ih =>
    rw [compressed, compressed, List.flatMap_cons, List.flatMap_cons]
    exact ((h b List.mem_cons_self).map _).append
      (ih fun b' hb' => h b' (List.mem_cons_of_mem _ hb'))

theorem length_compressed (C : BoolConfig) (side : Batch n → List (Fin n → Block))
    (bs : List (Batch n)) :
    (compressed C side bs).length = (bs.map fun b => (side b).length).sum := by
  rw [compressed, List.length_flatMap]
  simp only [List.length_map]

/-- **The check accepts permutations.** -/
theorem Inv.accepts (hG : C.bool.G.Lawful φ) (hC : C.Valid) (hn : 0 < n) {s : PermProof}
    {f : Folds n} (h : s.Inv C φ f) {coeff : ℕ → Block} (hperm : ∀ b ∈ f.close coeff, b.a.Perm b.b)
    (r : Block) : (s.checkEq C n coeff r).isSome := by
  have hlists := compressed_perm C.bool hperm
  exact (h.checkEq hG hC hn coeff r).2.mpr ⟨hlists.length_eq, (hlists.map _).prod_eq⟩

/-- **The permutation check, after any run of calls.**  It accepts exactly if the compressed lists
are of one length and have the same product at the challenge; so it accepts if the elements of each
call of `compress` are permutations, it accepts fewer challenges than there are elements if the
compressed lists are none, and it rejects lists of different lengths. -/
theorem checkEq_run (hG : C.bool.G.Lawful φ) (hC : C.Valid) {payloadBits : ℕ}
    (hbits : 0 < payloadBits) {prover verifier : ZKBool} (hdrawn : prover.drawn = verifier.drawn)
    (voles : ℕ) {os : List (PermOp (nBlocksFor payloadBits))} (hos : ∀ o ∈ os, OpOk C.bool o)
    {s : PermProof} (hrun : (init prover verifier voles).run C os = some s) (coeff : ℕ → Block) :
    let bs := ((Folds.empty : Folds (nBlocksFor payloadBits)).run os).close coeff
    let as' := compressed C.bool Batch.a bs
    let bs' := compressed C.bool Batch.b bs
    let check := s.checkEq C (nBlocksFor payloadBits) coeff
    (∀ r, (check r).isSome ↔ as'.length = bs'.length ∧
        (as'.map fun a => φ r - φ a).prod = (bs'.map fun b => φ r - φ b).prod) ∧
      ((∀ b ∈ bs, b.a.Perm b.b) → ∀ r, (check r).isSome) ∧
      (¬as'.Perm bs' → ∀ rs : Finset Block, (∀ r ∈ rs, (check r).isSome) →
        rs.card ≤ as'.length - 1) ∧
      ((bs.map fun b => b.a.length).sum ≠ (bs.map fun b => b.b.length).sum →
        ∀ r, check r = none) := by
  intro bs as' bs' check
  have hn : 0 < nBlocksFor payloadBits := Nat.div_pos (by omega) (by decide)
  have hinv := (inv_init C φ hdrawn voles).run hG hC hn hos hrun
  have hiff : ∀ r, (check r).isSome ↔ as'.length = bs'.length ∧
      (as'.map fun a => φ r - φ a).prod = (bs'.map fun b => φ r - φ b).prod := fun r =>
    (hinv.checkEq hG hC hn coeff r).2
  refine ⟨hiff, fun hperm r => hinv.accepts hG hC hn hperm r, fun hperm rs hrs => ?_,
    fun hne r => ?_⟩
  · by_cases hlen : as'.length = bs'.length
    · have hperm' : ¬(as'.map φ).Perm (bs'.map φ) := fun h =>
        hperm ((List.map_perm_map_iff hG.injective).mp h)
      have hlen' : (as'.map φ).length = (bs'.map φ).length := by
        rw [List.length_map, List.length_map, hlen]
      have hcard := ProductTest.card_le_of_not_perm hlen' hperm' (rs.map ⟨φ, hG.injective⟩)
        fun r hr => ?_
      · rwa [Finset.card_map, List.length_map] at hcard
      · obtain ⟨r', hr', rfl⟩ := Finset.mem_map.mp hr
        rw [List.map_map, List.map_map]
        exact ((hiff r').mp (hrs r' hr')).2
    · have hnone : rs = ∅ := Finset.eq_empty_of_forall_notMem fun r hr =>
        hlen ((hiff r).mp (hrs r hr)).1
      rw [hnone, Finset.card_empty]
      exact Nat.zero_le _
  · rw [← Option.not_isSome_iff_eq_none, hiff r]
    rintro ⟨hlen, -⟩
    rw [length_compressed, length_compressed] at hlen
    exact hne hlen

/-- A configuration whose buffer has room for one row. -/
def smallF2k : F2kConfig where
  bool := BoolSession.smallConfig
  vole _ := ⟨⟨0, 0⟩, ⟨0, 0⟩⟩
  bufferSz := 1
  chi _ i := BitVec.ofNat 128 i

theorem smallF2k_valid : smallF2k.Valid where
  bool := BoolSession.smallConfig_valid
  vole _ := by
    have hzero : (0 : Block) = 0 ^^^ GfOps.std.gfmul 0 3 := by decide +kernel
    exact hzero

/-- Two wires of the value `x`, with key 5. -/
def smallElem (x : Block) (_ : Fin 2) : F2kLabel := ⟨⟨x, 5 ^^^ GfOps.std.gfmul x 3⟩, ⟨0, 5⟩⟩

/-- Two elements of two wires, in two orders. -/
theorem checkEq_run_two : ∃ s, (init ZKBool.init ZKBool.init 0).run smallF2k
      ([.addA (smallElem 1), .addA (smallElem 2), .addB (smallElem 2), .addB (smallElem 1)] :
        List (PermOp (nBlocksFor 200))) = some s ∧
    (s.checkEq smallF2k (nBlocksFor 200) (fun _ => 7) 9).isSome := by
  have helem : ∀ x, PermSide.ElemOk smallF2k.bool (n := 2) (smallElem x) :=
    fun _ _ => ⟨rfl, rfl, rfl⟩
  have hos : ∀ o ∈ ([.addA (smallElem 1), .addA (smallElem 2), .addB (smallElem 2),
      .addB (smallElem 1)] : List (PermOp (nBlocksFor 200))), OpOk smallF2k.bool o := by
    simp only [List.forall_mem_cons]
    exact ⟨helem 1, helem 2, helem 2, helem 1, fun o ho => absurd ho List.not_mem_nil⟩
  refine ⟨_, rfl, (checkEq_run GfOps.std_lawful smallF2k_valid (by decide) rfl 0 hos rfl
    fun _ => 7).2.1 (List.forall_mem_singleton.mpr (List.Perm.swap _ _ _)) 9⟩

end PermProof

end VoleZk
