import Mathlib.Algebra.BigOperators.Ring.Finset
import Mathlib.Algebra.Field.Basic
import Mathlib.Algebra.Module.BigOperators
import Mathlib.Algebra.Module.Prod
import Mathlib.Tactic.Ring
import Mathlib.Tactic.LinearCombination

/-!
# Authenticated shares of the multi-verifier engine

A wire of the multi-verifier engine is known to the prover as a value and to each of the `n`
verifiers as an `AuthShare`.  The verifiers' keys add up to a global key that none of them knows,
and the shares of a wire add up to its value, to its MAC and to its key.

## What is here

* `AuthShare`, one verifier's share, and its componentwise operations;
* `Shared n delta sh v` — the shares `sh` of the `n` verifiers are shares of `v`;
* `Shared.add`, `Shared.smul`, `Shared.sub`, `Shared.sum` — **what every verifier computes linearly
  from its shares is shared**.
-/

set_option autoImplicit false

open Finset

namespace VoleZk.Mvzk

/-- `AuthShareT`: a verifier's additive share of an authenticated value. -/
@[ext] structure AuthShare (T : Type*) where
  /-- The share of the MAC. -/
  mac : T
  /-- The share of the key. -/
  key : T
  /-- The share of the value. -/
  share : T
  deriving DecidableEq

/-! ## Componentwise operations -/

namespace AuthShare

variable {F : Type*}

/-- The three components. -/
def toProd (a : AuthShare F) : F × F × F := (a.mac, a.key, a.share)

theorem toProd_injective : Function.Injective (toProd : AuthShare F → F × F × F) := by
  rintro ⟨_, _, _⟩ ⟨_, _, _⟩ h
  cases h
  rfl

section Ring

variable [Ring F]

instance : Zero (AuthShare F) := ⟨⟨0, 0, 0⟩⟩

instance : Add (AuthShare F) := ⟨fun a b => ⟨a.mac + b.mac, a.key + b.key, a.share + b.share⟩⟩

instance : Neg (AuthShare F) := ⟨fun a => ⟨-a.mac, -a.key, -a.share⟩⟩

instance : Sub (AuthShare F) := ⟨fun a b => ⟨a.mac - b.mac, a.key - b.key, a.share - b.share⟩⟩

instance {S : Type*} [SMul S F] : SMul S (AuthShare F) :=
  ⟨fun c a => ⟨c • a.mac, c • a.key, c • a.share⟩⟩

instance : AddCommGroup (AuthShare F) :=
  toProd_injective.addCommGroup toProd rfl (fun _ _ => rfl) (fun _ => rfl) (fun _ _ => rfl)
    (fun _ _ => rfl) fun _ _ => rfl

/-- The three components, as a homomorphism. -/
def toProdHom : AuthShare F →+ F × F × F where
  toFun := toProd
  map_zero' := rfl
  map_add' _ _ := rfl

instance : Module F (AuthShare F) := toProd_injective.module F toProdHom fun _ _ => rfl

variable (a b : AuthShare F) (c : F)

@[simp] theorem mac_zero : (0 : AuthShare F).mac = 0 := rfl
@[simp] theorem key_zero : (0 : AuthShare F).key = 0 := rfl
@[simp] theorem share_zero : (0 : AuthShare F).share = 0 := rfl
@[simp] theorem mac_add : (a + b).mac = a.mac + b.mac := rfl
@[simp] theorem key_add : (a + b).key = a.key + b.key := rfl
@[simp] theorem share_add : (a + b).share = a.share + b.share := rfl
@[simp] theorem mac_sub : (a - b).mac = a.mac - b.mac := rfl
@[simp] theorem key_sub : (a - b).key = a.key - b.key := rfl
@[simp] theorem share_sub : (a - b).share = a.share - b.share := rfl
@[simp] theorem mac_smul : (c • a).mac = c * a.mac := rfl
@[simp] theorem key_smul : (c • a).key = c * a.key := rfl
@[simp] theorem share_smul : (c • a).share = c * a.share := rfl

end Ring

end AuthShare

/-! ## Shared values -/

variable {F : Type*} [Field F]

/-- The shares of the `n` verifiers are shares of `v` under the verifiers' keys `delta`. -/
structure Shared (n : ℕ) (delta : ℕ → F) (sh : ℕ → AuthShare F) (v : F) : Prop where
  /-- The shares add up to the value. -/
  share_sum : ∑ i ∈ range n, (sh i).share = v
  /-- The MACs add up to the key plus the global key times the value. -/
  mac_sum : ∑ i ∈ range n, (sh i).mac
    = ∑ i ∈ range n, (sh i).key + (∑ i ∈ range n, delta i) * v

namespace Shared

variable {n : ℕ} {delta : ℕ → F} {a b : ℕ → AuthShare F} {u v : F}

protected theorem zero : Shared n delta (fun _ => 0) 0 where
  share_sum := sum_const_zero
  mac_sum := by simp

protected theorem add (ha : Shared n delta a u) (hb : Shared n delta b v) :
    Shared n delta (fun i => a i + b i) (u + v) where
  share_sum := by simp only [AuthShare.share_add, sum_add_distrib, ha.share_sum, hb.share_sum]
  mac_sum := by
    simp only [AuthShare.mac_add, AuthShare.key_add, sum_add_distrib, ha.mac_sum, hb.mac_sum]
    ring

protected theorem smul (ha : Shared n delta a u) (c : F) :
    Shared n delta (fun i => c • a i) (c * u) where
  share_sum := by simp only [AuthShare.share_smul, ← mul_sum, ha.share_sum]
  mac_sum := by
    simp only [AuthShare.mac_smul, AuthShare.key_smul, ← mul_sum, ha.mac_sum]
    ring

protected theorem sub (ha : Shared n delta a u) (hb : Shared n delta b v) :
    Shared n delta (fun i => a i - b i) (u - v) where
  share_sum := by simp only [AuthShare.share_sub, sum_sub_distrib, ha.share_sum, hb.share_sum]
  mac_sum := by
    simp only [AuthShare.mac_sub, AuthShare.key_sub, sum_sub_distrib, ha.mac_sum, hb.mac_sum]
    ring

/-- **Sums of shared values are shared.** -/
protected theorem sum {ι : Type*} {s : Finset ι} {sh : ι → ℕ → AuthShare F} {val : ι → F}
    (h : ∀ j ∈ s, Shared n delta (sh j) (val j)) :
    Shared n delta (fun i => ∑ j ∈ s, sh j i) (∑ j ∈ s, val j) := by
  classical
  induction s using Finset.induction_on with
  | empty => exact Shared.zero
  | insert j s hj ih =>
    simp only [sum_insert hj]
    exact (h j (mem_insert_self j s)).add (ih fun l hl => h l (mem_insert_of_mem hl))

/-- Only the shares of the verifiers count. -/
protected theorem congr (ha : Shared n delta a u) (h : ∀ i < n, b i = a i) :
    Shared n delta b u where
  share_sum := by
    rw [← ha.share_sum]
    exact sum_congr rfl fun i hi => by rw [h i (mem_range.mp hi)]
  mac_sum := by
    have hmac : ∑ i ∈ range n, (b i).mac = ∑ i ∈ range n, (a i).mac :=
      sum_congr rfl fun i hi => by rw [h i (mem_range.mp hi)]
    have hkey : ∑ i ∈ range n, (b i).key = ∑ i ∈ range n, (a i).key :=
      sum_congr rfl fun i hi => by rw [h i (mem_range.mp hi)]
    rw [hmac, hkey, ha.mac_sum]

end Shared

end VoleZk.Mvzk
