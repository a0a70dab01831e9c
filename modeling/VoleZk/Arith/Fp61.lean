import Mathlib.NumberTheory.LucasLehmer
import Mathlib.Data.ZMod.Basic
import Mathlib.Tactic.Ring
import Mathlib.Tactic.LinearCombination

/-!
# Labels over the field of order `2 ^ 61 - 1`

The arithmetic engine works on 64-bit words holding residues modulo `PR`, and its labels pair such
a word with a MAC.  The word routines (`add_mod`, `mult_mod`, `mod` and their lane-wise forms)
belong to emp-tool: here they are the fields of `FpOps`, and what the engine relies on is
`FpOps.Canonical`.

## What is here

* `PR`, `PR_prime`;
* `FpOps`, `FpOps.Canonical`, and `FpOps.residues`, which reduces every result;
* `AuthVal`, one party's half of a label, and `Auth Δ M K v`, the two halves of a label of
  value `v`;
* `Auth.mac_cast`, `Auth.of_cast` — the equation of the MACs in `ZMod PR`.
-/

set_option autoImplicit false

namespace VoleZk

/-! ## The field -/

/-- The Mersenne prime `2 ^ 61 - 1`. -/
def PR : ℕ := 2 ^ 61 - 1

theorem PR_prime : PR.Prime :=
  (lucas_lehmer_sufficiency _ (by norm_num) (by norm_num) : (mersenne 61).Prime)

instance : Fact PR.Prime := ⟨PR_prime⟩

theorem PR_pos : 0 < PR := PR_prime.pos

/-- The word and lane routines of emp-tool.  A lane pair is `(val, mac)`. -/
structure FpOps where
  /-- `add_mod(a, b)`. -/
  addMod : ℕ → ℕ → ℕ
  /-- `mult_mod(a, b)`. -/
  multMod : ℕ → ℕ → ℕ
  /-- `mod(a)`, on a word. -/
  mod : ℕ → ℕ
  /-- `mod(a, pr)`, on a 128-bit integer. -/
  mod128 : ℕ → ℕ
  /-- `mult_mod(block, c)`, on both lanes. -/
  multModBlock : ℕ × ℕ → ℕ → ℕ × ℕ

/-- What the engine relies on: results are canonical residues.  The operand ranges are those of
the engine's calls: `PR - x` is `PR` when `x` is 0, so a summand may be `PR` itself. -/
structure FpOps.Canonical (F : FpOps) : Prop where
  /-- The sum of two residues, one of which may be `PR`. -/
  addMod_eq : ∀ a b, a ≤ PR → b ≤ PR → a + b < 2 * PR → F.addMod a b = (a + b) % PR
  /-- The product of two residues. -/
  multMod_eq : ∀ a b, a < PR → b < PR → F.multMod a b = a * b % PR
  /-- Reduction of a word. -/
  mod_eq : ∀ a, a < 2 ^ 64 → F.mod a = a % PR
  /-- Reduction of a sum of two residues. -/
  mod128_eq : ∀ a, a ≤ 2 * PR → F.mod128 a = a % PR
  /-- The product of a pair of residues with a residue. -/
  multModBlock_eq : ∀ a c, a.1 < PR → a.2 < PR → c < PR →
    F.multModBlock a c = (a.1 * c % PR, a.2 * c % PR)

/-- The routines that reduce every result. -/
def FpOps.residues : FpOps where
  addMod a b := (a + b) % PR
  multMod a b := a * b % PR
  mod a := a % PR
  mod128 a := a % PR
  multModBlock a c := (a.1 * c % PR, a.2 * c % PR)

theorem FpOps.residues_canonical : FpOps.residues.Canonical where
  addMod_eq _ _ _ _ _ := rfl
  multMod_eq _ _ _ _ := rfl
  mod_eq _ _ := rfl
  mod128_eq _ _ := rfl
  multModBlock_eq _ _ _ _ _ := rfl

namespace FpOps.Canonical

variable {F : FpOps} (hF : F.Canonical) {a b : ℕ}

include hF

theorem addMod_lt (ha : a ≤ PR) (hb : b ≤ PR) (hab : a + b < 2 * PR) : F.addMod a b < PR := by
  rw [hF.addMod_eq a b ha hb hab]
  exact Nat.mod_lt _ PR_pos

theorem multMod_lt (ha : a < PR) (hb : b < PR) : F.multMod a b < PR := by
  rw [hF.multMod_eq a b ha hb]
  exact Nat.mod_lt _ PR_pos

theorem addMod_cast (ha : a ≤ PR) (hb : b ≤ PR) (hab : a + b < 2 * PR) :
    (F.addMod a b : ZMod PR) = a + b := by
  rw [hF.addMod_eq a b ha hb hab, ZMod.natCast_mod, Nat.cast_add]

theorem mod128_lt (ha : a ≤ 2 * PR) : F.mod128 a < PR := by
  rw [hF.mod128_eq a ha]
  exact Nat.mod_lt _ PR_pos

theorem mod128_cast (ha : a ≤ 2 * PR) : (F.mod128 a : ZMod PR) = a := by
  rw [hF.mod128_eq a ha, ZMod.natCast_mod]

theorem multMod_cast (ha : a < PR) (hb : b < PR) : (F.multMod a b : ZMod PR) = a * b := by
  rw [hF.multMod_eq a b ha hb, ZMod.natCast_mod, Nat.cast_mul]

end FpOps.Canonical

/-- Residues are determined by their class. -/
theorem eq_of_cast_eq {a b : ℕ} (ha : a < PR) (hb : b < PR) (h : (a : ZMod PR) = b) : a = b := by
  rw [ZMod.natCast_eq_natCast_iff'] at h
  rwa [Nat.mod_eq_of_lt ha, Nat.mod_eq_of_lt hb] at h

/-! ## Labels -/

/-- One party's half of a label: `VAL` is the low word, `MAC` the high one. -/
structure AuthVal where
  /-- The value on the prover's side; 0 on the verifier's. -/
  val : ℕ
  /-- The MAC on the prover's side, the key on the verifier's. -/
  mac : ℕ
  deriving DecidableEq

/-- A label of value `v`: the prover's half `M` carries `v` and a MAC, the verifier's half `K` the
key, all of them canonical residues, and `MAC = key + v * Δ`. -/
structure Auth (Δ : ℕ) (M K : AuthVal) (v : ℕ) : Prop where
  /-- The prover holds the value. -/
  val_eq : M.val = v
  /-- The value is a residue. -/
  val_lt : v < PR
  /-- The verifier's value lane is empty. -/
  key_val : K.val = 0
  /-- The MAC is a residue. -/
  mac_lt : M.mac < PR
  /-- The key is a residue. -/
  key_lt : K.mac < PR
  /-- The MAC relation. -/
  mac_eq : M.mac = (K.mac + v * Δ) % PR

/-- The MAC relation in the field. -/
theorem Auth.mac_cast {Δ : ℕ} {M K : AuthVal} {v : ℕ} (h : Auth Δ M K v) :
    (M.mac : ZMod PR) = K.mac + v * Δ := by
  rw [h.mac_eq, ZMod.natCast_mod, Nat.cast_add, Nat.cast_mul]

/-- A label, from residues that satisfy the MAC relation in the field. -/
theorem Auth.of_cast {Δ : ℕ} {M K : AuthVal} {v : ℕ} (hval : M.val = v) (hv : v < PR)
    (hkey : K.val = 0) (hmac : M.mac < PR) (hk : K.mac < PR)
    (h : (M.mac : ZMod PR) = K.mac + v * Δ) : Auth Δ M K v where
  val_eq := hval
  val_lt := hv
  key_val := hkey
  mac_lt := hmac
  key_lt := hk
  mac_eq := by
    refine eq_of_cast_eq hmac (Nat.mod_lt _ PR_pos) ?_
    rw [h, ZMod.natCast_mod, Nat.cast_add, Nat.cast_mul]

end VoleZk
