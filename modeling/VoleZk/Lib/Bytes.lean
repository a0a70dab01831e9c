import Mathlib.Data.List.Basic
import Mathlib.Data.List.Flatten
import Mathlib.Algebra.Ring.Nat

/-!
# Byte strings that can be read back

What goes into a hash is one byte string, put together from parts.  It determines the parts where
their lengths are known.

## What is here

* `Bytes.le`, `Bytes.ofLe` — words, lowest byte first;
* `Bytes.le_inj` — a word is determined by its bytes;
* `Bytes.flatten_inj` — so is a list of strings of one length;
* `Bytes.flatMap_eq_iff` — so are the strings of two lists that agree in their lengths.
-/

set_option autoImplicit false

namespace Bytes

/-- The `k` low bytes of a number, lowest first. -/
def le : ℕ → ℕ → List UInt8
  | 0, _ => []
  | k + 1, x => UInt8.ofNat x :: le k (x / 256)

/-- The number with these bytes, lowest first. -/
def ofLe : List UInt8 → ℕ
  | [] => 0
  | b :: bs => b.toNat + 256 * ofLe bs

@[simp] theorem length_le (k x : ℕ) : (le k x).length = k := by
  induction k generalizing x with
  | zero => rfl
  | succ k ih => rw [le, List.length_cons, ih]

theorem ofLe_le {k x : ℕ} (hx : x < 256 ^ k) : ofLe (le k x) = x := by
  induction k generalizing x with
  | zero => exact (Nat.lt_one_iff.mp hx).symm
  | succ k ih =>
    have hdiv : x / 256 < 256 ^ k :=
      Nat.div_lt_of_lt_mul (by rwa [Nat.pow_succ, Nat.mul_comm] at hx)
    rw [le, ofLe, ih hdiv, UInt8.toNat_ofNat']
    exact Nat.mod_add_div x 256

theorem le_inj {k x y : ℕ} (hx : x < 256 ^ k) (hy : y < 256 ^ k) (h : le k x = le k y) : x = y := by
  rw [← ofLe_le hx, h, ofLe_le hy]

/-- Strings of one length, one after the other. -/
theorem flatten_inj {α : Type*} {w : ℕ} (hw : 0 < w) {xs ys : List {l : List α // l.length = w}}
    (h : (xs.map Subtype.val).flatten = (ys.map Subtype.val).flatten) : xs = ys := by
  induction xs generalizing ys with
  | nil =>
    cases ys with
    | nil => rfl
    | cons y ys =>
      have hlen := congrArg List.length h
      rw [List.map_cons, List.flatten_cons, List.length_append, y.2] at hlen
      simp only [List.map_nil, List.flatten_nil, List.length_nil] at hlen
      omega
  | cons x xs ih =>
    cases ys with
    | nil =>
      have hlen := congrArg List.length h
      rw [List.map_cons, List.flatten_cons, List.length_append, x.2] at hlen
      simp only [List.map_nil, List.flatten_nil, List.length_nil] at hlen
      omega
    | cons y ys =>
      rw [List.map_cons, List.flatten_cons, List.map_cons, List.flatten_cons] at h
      obtain ⟨hhead, htail⟩ := List.append_inj h (x.2.trans y.2.symm)
      rw [Subtype.ext hhead, ih htail]

/-- Strings of the same lengths, one after the other. -/
theorem flatMap_eq_iff {ι α : Type*} {l : List ι} {f g : ι → List α}
    (hlen : ∀ x ∈ l, (f x).length = (g x).length) :
    l.flatMap f = l.flatMap g ↔ ∀ x ∈ l, f x = g x := by
  induction l with
  | nil => simp
  | cons x l ih =>
    rw [List.flatMap_cons, List.flatMap_cons, List.forall_mem_cons,
      ← ih fun y hy => hlen y (List.mem_cons_of_mem x hy)]
    constructor
    · exact fun h => List.append_inj h (hlen x List.mem_cons_self)
    · rintro ⟨hx, hl⟩
      rw [hx, hl]

end Bytes
