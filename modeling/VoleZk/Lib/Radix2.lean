import Mathlib.Algebra.BigOperators.Ring.Finset
import Mathlib.Algebra.BigOperators.Intervals
import Mathlib.Data.List.ProdSigma
import Mathlib.Tactic.Ring
import Mathlib.Tactic.LinearCombination

/-!
# Radix-2 butterfly networks, in place

A pass over an array of `2 * t * m` cells pairs, in each of its `m` blocks, the cells at distance
`t`, and replaces the two by functions of both.  The forward network makes passes with ever smaller
blocks, the backward network with ever larger ones; a third network grows the values of a
polynomial from its coefficients.

Nothing is assumed about the factors of the butterflies to see that the forward and backward
networks undo each other, up to `2 ^ L`.  When the factors are consistent square roots, the forward
network evaluates the polynomial of its coefficients.

## What is here

* `blockPass` and `blockPass_apply` — **what a pass leaves in each cell**;
* `forward`, `backward`, `backward_forward`, `forward_backward` — **the networks are inverse**;
* `forward_eq_eval` — **with consistent factors, the values of a polynomial**;
* `forward_eq_of_two` — the values of `c₀ + c₁ X`, whatever the factors;
* `grow`, `grow_eq_eval` — the third network.
-/

set_option autoImplicit false

open Finset

namespace Radix2

/-! ## Passes -/

section Pass

variable {V : Type*}

/-- Replace the cells `p` and `p + t` by a pair computed from both. -/
def pairUpdate (f : V → V → V × V) (t p : ℕ) (res : ℕ → V) : ℕ → V :=
  let uv := f (res p) (res (p + t))
  Function.update (Function.update res p uv.1) (p + t) uv.2

/-- A pass over `m` blocks of `2 * t` cells. -/
def blockPass (f : ℕ → ℕ → V → V → V × V) (m t : ℕ) (res : ℕ → V) : ℕ → V :=
  (List.range m).foldl (fun res i =>
    (List.range t).foldl (fun res j => pairUpdate (f i j) t (2 * t * i + j) res) res) res

theorem pairUpdate_low (f : V → V → V × V) {t : ℕ} (ht : 0 < t) (p : ℕ) (res : ℕ → V) :
    pairUpdate f t p res p = (f (res p) (res (p + t))).1 := by
  rw [pairUpdate, Function.update_of_ne (by omega), Function.update_self]

theorem pairUpdate_high (f : V → V → V × V) (t p : ℕ) (res : ℕ → V) :
    pairUpdate f t p res (p + t) = (f (res p) (res (p + t))).2 :=
  Function.update_self _ _ _

theorem pairUpdate_of_ne (f : V → V → V × V) {t p x : ℕ} (hp : x ≠ p) (hpt : x ≠ p + t)
    (res : ℕ → V) : pairUpdate f t p res x = res x := by
  rw [pairUpdate, Function.update_of_ne hpt, Function.update_of_ne hp]

/-- A pass over equal cells that stay what they are. -/
theorem blockPass_const {f : ℕ → ℕ → V → V → V × V} {x : V} (h : ∀ i j, f i j x x = (x, x))
    (m t : ℕ) : blockPass f m t (fun _ => x) = fun _ => x := by
  have hpair : ∀ i j p, pairUpdate (f i j) t p (fun _ => x) = fun _ => x := fun i j p => by
    rw [pairUpdate, h]
    exact (congrArg (Function.update · (p + t) x) (Function.update_eq_self p fun _ => x)).trans
      (Function.update_eq_self (p + t) fun _ => x)
  exact List.foldl_fixed' (fun i => List.foldl_fixed' (fun j => hpair i j _) _) _

/-- The pairs at `p` and `q` have no cell in common. -/
def Apart (t p q : ℕ) : Prop := p ≠ q ∧ p ≠ q + t ∧ p + t ≠ q

variable {ι : Type*} {f : ι → V → V → V × V} {pos : ι → ℕ} {t : ℕ}

/-- Pairs apart from the pair at `p` leave its cells alone. -/
theorem foldl_pairUpdate_of_apart {jobs : List ι} {p : ℕ} (h : ∀ b ∈ jobs, Apart t p (pos b))
    (res : ℕ → V) :
    jobs.foldl (fun res a => pairUpdate (f a) t (pos a) res) res p = res p ∧
      jobs.foldl (fun res a => pairUpdate (f a) t (pos a) res) res (p + t) = res (p + t) := by
  induction jobs generalizing res with
  | nil => exact ⟨rfl, rfl⟩
  | cons b jobs ih =>
    obtain ⟨hb, hbt, htb⟩ := h b List.mem_cons_self
    have ih := ih (fun c hc => h c (List.mem_cons_of_mem b hc)) (pairUpdate (f b) t (pos b) res)
    rw [pairUpdate_of_ne _ hb hbt, pairUpdate_of_ne _ htb (fun heq => hb (by omega))] at ih
    exact ih

/-- Each pair of a list of pairs apart is replaced once, from the cells it started with. -/
theorem foldl_pairUpdate (ht : 0 < t) {jobs : List ι}
    (hjobs : jobs.Pairwise fun a b => Apart t (pos a) (pos b)) (res : ℕ → V) {a : ι}
    (ha : a ∈ jobs) :
    jobs.foldl (fun res a => pairUpdate (f a) t (pos a) res) res (pos a)
        = (f a (res (pos a)) (res (pos a + t))).1 ∧
      jobs.foldl (fun res a => pairUpdate (f a) t (pos a) res) res (pos a + t)
        = (f a (res (pos a)) (res (pos a + t))).2 := by
  induction jobs generalizing res with
  | nil => cases ha
  | cons b jobs ih =>
    rw [List.pairwise_cons] at hjobs
    rcases List.mem_cons.mp ha with rfl | ha
    · obtain ⟨hlow, hhigh⟩ :=
        foldl_pairUpdate_of_apart (f := f) hjobs.1 (pairUpdate (f a) t (pos a) res)
      rw [List.foldl_cons, hlow, hhigh, pairUpdate_low _ ht, pairUpdate_high]
      exact ⟨rfl, rfl⟩
    · obtain ⟨hb, hbt, htb⟩ := hjobs.1 a ha
      have ih := ih hjobs.2 (pairUpdate (f b) t (pos b) res) ha
      rw [pairUpdate_of_ne _ hb.symm htb.symm, pairUpdate_of_ne _ hbt.symm (by omega)] at ih
      exact ih

/-- The pairs of a pass are apart. -/
theorem apart_of_ne {t : ℕ} {a b : ℕ × ℕ} (ha : a.2 < t) (hb : b.2 < t) (hne : a ≠ b) :
    Apart t (2 * t * a.1 + a.2) (2 * t * b.1 + b.2) := by
  have hdiv : ∀ i r, r < 2 * t → (2 * t * i + r) / (2 * t) = i := fun i r hr => by
    rw [Nat.mul_add_div (by omega), Nat.div_eq_of_lt hr, Nat.add_zero]
  -- two cells of the array determine their block and their place in it
  have hkey : ∀ i j r s, r < 2 * t → s < 2 * t → 2 * t * i + r = 2 * t * j + s → i = j ∧ r = s := by
    intro i j r s hr hs heq
    have hij : i = j := by rw [← hdiv i r hr, heq, hdiv j s hs]
    subst hij
    exact ⟨rfl, Nat.add_left_cancel heq⟩
  refine ⟨fun heq => ?_, fun heq => ?_, fun heq => ?_⟩
  · obtain ⟨h1, h2⟩ := hkey _ _ _ _ (by omega) (by omega) heq
    exact hne (Prod.ext h1 h2)
  · obtain ⟨-, h2⟩ := hkey a.1 b.1 a.2 (b.2 + t) (by omega) (by omega) (by omega)
    omega
  · obtain ⟨-, h2⟩ := hkey a.1 b.1 (a.2 + t) b.2 (by omega) (by omega) (by omega)
    omega

/-- **What a pass leaves in the cells of a pair.** -/
theorem blockPass_apply (f : ℕ → ℕ → V → V → V × V) {m t i j : ℕ} (hi : i < m) (hj : j < t)
    (res : ℕ → V) :
    blockPass f m t res (2 * t * i + j)
        = (f i j (res (2 * t * i + j)) (res (2 * t * i + j + t))).1 ∧
      blockPass f m t res (2 * t * i + j + t)
        = (f i j (res (2 * t * i + j)) (res (2 * t * i + j + t))).2 := by
  have hflat : blockPass f m t res
      = (List.range m ×ˢ List.range t).foldl
          (fun res a => pairUpdate (f a.1 a.2) t (2 * t * a.1 + a.2) res) res := by
    simp only [blockPass, SProd.sprod, List.product, List.foldl_flatMap, List.foldl_map]
  have hapart : (List.range m ×ˢ List.range t).Pairwise
      fun a b => Apart t (2 * t * a.1 + a.2) (2 * t * b.1 + b.2) :=
    (List.nodup_range.product List.nodup_range).pairwise_of_forall_ne fun a ha b hb hne =>
      apart_of_ne (List.mem_range.mp (List.mem_product.mp ha).2)
        (List.mem_range.mp (List.mem_product.mp hb).2) hne
  rw [hflat]
  exact foldl_pairUpdate (f := fun a : ℕ × ℕ => f a.1 a.2) (by omega) hapart res
    (a := (i, j)) (List.mem_product.mpr ⟨List.mem_range.mpr hi, List.mem_range.mpr hj⟩)

/-- Every cell belongs to a pair. -/
theorem cell_cases {m t p : ℕ} (hp : p < 2 * t * m) :
    ∃ i < m, ∃ j < t, p = 2 * t * i + j ∨ p = 2 * t * i + j + t := by
  have hpos : 0 < 2 * t := Nat.pos_of_mul_pos_right (Nat.zero_lt_of_lt hp)
  have hmod : p % (2 * t) < 2 * t := Nat.mod_lt p hpos
  have hdiv : 2 * t * (p / (2 * t)) + p % (2 * t) = p := Nat.div_add_mod p (2 * t)
  refine ⟨p / (2 * t), Nat.div_lt_of_lt_mul hp, ?_⟩
  by_cases hlow : p % (2 * t) < t
  · exact ⟨_, hlow, .inl hdiv.symm⟩
  · exact ⟨p % (2 * t) - t, by omega, .inr (by omega)⟩

end Pass

/-! ## The two networks -/

variable {R : Type*} [CommRing R]

/-- A pass that multiplies first: `u`, `v` become `u + v w`, `u - v w`. -/
def mulPass (w : ℕ → ℕ → R) (m t : ℕ) (res : ℕ → R) : ℕ → R :=
  blockPass (fun i j u v => (u + v * w i j, u - v * w i j)) m t res

/-- A pass that multiplies last: `u`, `v` become `u + v`, `(u - v) w`. -/
def sumPass (w : ℕ → ℕ → R) (m t : ℕ) (res : ℕ → R) : ℕ → R :=
  blockPass (fun i j u v => (u + v, (u - v) * w i j)) m t res

/-- The first `d` passes of the forward network on `2 ^ L` cells.  Block `i` of pass `s` has the
factor `θ (2 ^ s + i)`. -/
def forward (θ : ℕ → R) (L d : ℕ) (res : ℕ → R) : ℕ → R :=
  (List.range d).foldl
    (fun res s => mulPass (fun i _ => θ (2 ^ s + i)) (2 ^ s) (2 ^ (L - 1 - s)) res) res

/-- The first `d` passes of the backward network on `2 ^ L` cells. -/
def backward (θ : ℕ → R) (L d : ℕ) (res : ℕ → R) : ℕ → R :=
  (List.range d).foldl
    (fun res s => sumPass (fun i _ => θ (2 ^ (L - 1 - s) + i)) (2 ^ (L - 1 - s)) (2 ^ s) res) res

section Passes

variable {w w' : ℕ → ℕ → R} {m t i j : ℕ}

theorem mulPass_low (hi : i < m) (hj : j < t) (res : ℕ → R) :
    mulPass w m t res (2 * t * i + j)
      = res (2 * t * i + j) + res (2 * t * i + j + t) * w i j :=
  (blockPass_apply _ hi hj res).1

theorem mulPass_high (hi : i < m) (hj : j < t) (res : ℕ → R) :
    mulPass w m t res (2 * t * i + j + t)
      = res (2 * t * i + j) - res (2 * t * i + j + t) * w i j :=
  (blockPass_apply _ hi hj res).2

theorem sumPass_low (hi : i < m) (hj : j < t) (res : ℕ → R) :
    sumPass w m t res (2 * t * i + j) = res (2 * t * i + j) + res (2 * t * i + j + t) :=
  (blockPass_apply _ hi hj res).1

theorem sumPass_high (hi : i < m) (hj : j < t) (res : ℕ → R) :
    sumPass w m t res (2 * t * i + j + t)
      = (res (2 * t * i + j) - res (2 * t * i + j + t)) * w i j :=
  (blockPass_apply _ hi hj res).2

/-- A cell of a pair, and its partner, are cells of the array. -/
theorem cell_lt (hi : i < m) (hj : j < t) : 2 * t * i + j + t < 2 * t * m := by
  have h : 2 * t * (i + 1) ≤ 2 * t * m := Nat.mul_le_mul_left _ hi
  rw [Nat.mul_add, Nat.mul_one] at h
  omega

/-- A pass reads the cells of the array only. -/
theorem mulPass_congr {x y : ℕ → R} (h : ∀ p < 2 * t * m, x p = y p) {p : ℕ}
    (hp : p < 2 * t * m) : mulPass w m t x p = mulPass w m t y p := by
  obtain ⟨i, hi, j, hj, hcell⟩ := cell_cases hp
  have hcells := cell_lt hi hj
  have hlow := h (2 * t * i + j) (by omega)
  have hhigh := h (2 * t * i + j + t) hcells
  rcases hcell with rfl | rfl
  · rw [mulPass_low hi hj, mulPass_low hi hj, hlow, hhigh]
  · rw [mulPass_high hi hj, mulPass_high hi hj, hlow, hhigh]

/-- A pass commutes with a common factor. -/
theorem sumPass_mul_right {k : R} {x y : ℕ → R} (h : ∀ p < 2 * t * m, x p = y p * k) {p : ℕ}
    (hp : p < 2 * t * m) : sumPass w m t x p = sumPass w m t y p * k := by
  obtain ⟨i, hi, j, hj, hcell⟩ := cell_cases hp
  have hcells := cell_lt hi hj
  have hlow := h (2 * t * i + j) (by omega)
  have hhigh := h (2 * t * i + j + t) hcells
  rcases hcell with rfl | rfl
  · rw [sumPass_low hi hj, sumPass_low hi hj, hlow, hhigh]
    ring
  · rw [sumPass_high hi hj, sumPass_high hi hj, hlow, hhigh]
    ring

/-- The pass that multiplies last undoes the pass that multiplies first, up to a factor 2. -/
theorem sumPass_mulPass (hw : ∀ i < m, ∀ j < t, w i j * w' i j = 1) {k : R} {x y : ℕ → R}
    (hx : ∀ p < 2 * t * m, x p = k * mulPass w m t y p) {p : ℕ} (hp : p < 2 * t * m) :
    sumPass w' m t x p = k * 2 * y p := by
  obtain ⟨i, hi, j, hj, hcell⟩ := cell_cases hp
  have hcells := cell_lt hi hj
  have hlow := hx (2 * t * i + j) (by omega)
  have hhigh := hx (2 * t * i + j + t) hcells
  rw [mulPass_low hi hj] at hlow
  rw [mulPass_high hi hj] at hhigh
  rcases hcell with rfl | rfl
  · rw [sumPass_low hi hj, hlow, hhigh]
    ring
  · rw [sumPass_high hi hj, hlow, hhigh]
    linear_combination 2 * k * y (2 * t * i + j + t) * hw i hi j hj

/-- The pass that multiplies first undoes the pass that multiplies last, up to a factor 2. -/
theorem mulPass_sumPass (hw : ∀ i < m, ∀ j < t, w i j * w' i j = 1) {k : R} {x y : ℕ → R}
    (hx : ∀ p < 2 * t * m, x p = k * sumPass w' m t y p) {p : ℕ} (hp : p < 2 * t * m) :
    mulPass w m t x p = k * 2 * y p := by
  obtain ⟨i, hi, j, hj, hcell⟩ := cell_cases hp
  have hcells := cell_lt hi hj
  have hlow := hx (2 * t * i + j) (by omega)
  have hhigh := hx (2 * t * i + j + t) hcells
  rw [sumPass_low hi hj] at hlow
  rw [sumPass_high hi hj] at hhigh
  have hinv := hw i hi j hj
  rcases hcell with rfl | rfl
  · rw [mulPass_low hi hj, hlow, hhigh]
    linear_combination k * (y (2 * t * i + j) - y (2 * t * i + j + t)) * hinv
  · rw [mulPass_high hi hj, hlow, hhigh]
    linear_combination -(k * (y (2 * t * i + j) - y (2 * t * i + j + t))) * hinv

end Passes

/-! ### The networks are inverse -/

theorem forward_succ (θ : ℕ → R) (L d : ℕ) (res : ℕ → R) :
    forward θ L (d + 1) res
      = mulPass (fun i _ => θ (2 ^ d + i)) (2 ^ d) (2 ^ (L - 1 - d)) (forward θ L d res) := by
  rw [forward, List.range_succ, List.foldl_append]
  rfl

theorem backward_succ (θ : ℕ → R) (L d : ℕ) (res : ℕ → R) :
    backward θ L (d + 1) res
      = sumPass (fun i _ => θ (2 ^ (L - 1 - d) + i)) (2 ^ (L - 1 - d)) (2 ^ d)
          (backward θ L d res) := by
  rw [backward, List.range_succ, List.foldl_append]
  rfl

section Inverse

variable {θ θ' : ℕ → R} {L : ℕ}

/-- The array, as blocks of a pass. -/
theorem blocks_eq {d e : ℕ} (h : d + 1 + e = L) : 2 * 2 ^ e * 2 ^ d = 2 ^ L := by
  rw [← h, pow_add, pow_succ]
  ring

/-- The forward network reads the cells of the array only. -/
theorem forward_congr (θ : ℕ → R) {x y : ℕ → R} (h : ∀ p < 2 ^ L, x p = y p) {d : ℕ}
    (hd : d ≤ L) : ∀ p < 2 ^ L, forward θ L d x p = forward θ L d y p := by
  induction d with
  | zero => exact h
  | succ d ih =>
    have hblocks : 2 * 2 ^ (L - 1 - d) * 2 ^ d = 2 ^ L := blocks_eq (by omega)
    intro p hp
    rw [forward_succ, forward_succ]
    exact mulPass_congr (fun q hq => ih (by omega) q (hblocks ▸ hq)) (hblocks ▸ hp)

/-- The backward network is linear, and reads the cells of the array only. -/
theorem backward_mul_right (θ : ℕ → R) (k : R) (x : ℕ → R) {d : ℕ} (hd : d ≤ L) :
    ∀ p < 2 ^ L, backward θ L d (fun i => x i * k) p = backward θ L d x p * k := by
  induction d with
  | zero => exact fun _ _ => rfl
  | succ d ih =>
    have hblocks : 2 * 2 ^ d * 2 ^ (L - 1 - d) = 2 ^ L := blocks_eq (by omega)
    intro p hp
    rw [backward_succ, backward_succ]
    exact sumPass_mul_right (fun q hq => ih (by omega) q (hblocks ▸ hq)) (hblocks ▸ hp)

theorem backward_congr (θ : ℕ → R) {x y : ℕ → R} (h : ∀ p < 2 ^ L, x p = y p) {d : ℕ}
    (hd : d ≤ L) : ∀ p < 2 ^ L, backward θ L d x p = backward θ L d y p := by
  induction d with
  | zero => exact h
  | succ d ih =>
    have hblocks : 2 * 2 ^ d * 2 ^ (L - 1 - d) = 2 ^ L := blocks_eq (by omega)
    intro p hp
    rw [backward_succ, backward_succ]
    have hpass := sumPass_mul_right (w := fun i _ => θ (2 ^ (L - 1 - d) + i)) (k := 1)
      (fun q hq => (ih (by omega) q (hblocks ▸ hq)).trans (mul_one _).symm) (hblocks ▸ hp)
    rwa [mul_one] at hpass

theorem factor_inv (hθ : ∀ p, 0 < p → p < 2 ^ L → θ p * θ' p = 1) {d i : ℕ} (hd : d < L)
    (hi : i < 2 ^ d) : θ (2 ^ d + i) * θ' (2 ^ d + i) = 1 := by
  have h2 : 2 ^ (d + 1) ≤ 2 ^ L := Nat.pow_le_pow_right (by omega) hd
  have hpos : 0 < 2 ^ d := Nat.two_pow_pos d
  rw [pow_succ] at h2
  exact hθ _ (by omega) (by omega)

/-- **The backward network undoes the forward network**, up to a factor 2 for each pass. -/
theorem backward_forward (hθ : ∀ p, 0 < p → p < 2 ^ L → θ p * θ' p = 1) (c : ℕ → R) {p : ℕ}
    (hp : p < 2 ^ L) : backward θ' L L (forward θ L L c) p = 2 ^ L * c p := by
  have hpasses : ∀ d ≤ L, ∀ p < 2 ^ L,
      backward θ' L d (forward θ L L c) p = 2 ^ d * forward θ L (L - d) c p := by
    intro d
    induction d with
    | zero => intro _ p _; rw [pow_zero, one_mul]; rfl
    | succ d ih =>
      intro hd p hp
      have hblocks : 2 * 2 ^ d * 2 ^ (L - 1 - d) = 2 ^ L := blocks_eq (by omega)
      have hlast : forward θ L (L - d) c
          = mulPass (fun i _ => θ (2 ^ (L - 1 - d) + i)) (2 ^ (L - 1 - d)) (2 ^ d)
              (forward θ L (L - (d + 1)) c) := by
        rw [show L - d = L - 1 - d + 1 by omega, forward_succ,
          show L - 1 - (L - 1 - d) = d by omega, show L - (d + 1) = L - 1 - d by omega]
      rw [backward_succ, pow_succ]
      refine sumPass_mulPass (fun i hi _ _ => factor_inv hθ (by omega) hi) (fun q hq => ?_)
        (hblocks ▸ hp)
      rw [ih (by omega) q (hblocks ▸ hq), hlast]
  rw [hpasses L le_rfl p hp, Nat.sub_self]
  rfl

/-- **The forward network undoes the backward network**, up to a factor 2 for each pass. -/
theorem forward_backward (hθ : ∀ p, 0 < p → p < 2 ^ L → θ p * θ' p = 1) (c : ℕ → R) {p : ℕ}
    (hp : p < 2 ^ L) : forward θ L L (backward θ' L L c) p = 2 ^ L * c p := by
  have hpasses : ∀ d ≤ L, ∀ p < 2 ^ L,
      forward θ L d (backward θ' L L c) p = 2 ^ d * backward θ' L (L - d) c p := by
    intro d
    induction d with
    | zero => intro _ p _; rw [pow_zero, one_mul]; rfl
    | succ d ih =>
      intro hd p hp
      have hblocks : 2 * 2 ^ (L - 1 - d) * 2 ^ d = 2 ^ L := blocks_eq (by omega)
      have hlast : backward θ' L (L - d) c
          = sumPass (fun i _ => θ' (2 ^ d + i)) (2 ^ d) (2 ^ (L - 1 - d))
              (backward θ' L (L - (d + 1)) c) := by
        rw [show L - d = L - 1 - d + 1 by omega, backward_succ,
          show L - 1 - (L - 1 - d) = d by omega, show L - (d + 1) = L - 1 - d by omega]
      rw [forward_succ, pow_succ]
      refine mulPass_sumPass (fun i hi _ _ => factor_inv hθ (by omega) hi) (fun q hq => ?_)
        (hblocks ▸ hp)
      rw [ih (by omega) q (hblocks ▸ hq), hlast]
  rw [hpasses L le_rfl p hp, Nat.sub_self]
  rfl

end Inverse

/-! ### Values of polynomials -/

/-- Terms of even and of odd index. -/
theorem sum_range_two_mul (n : ℕ) (f : ℕ → R) :
    ∑ h ∈ range (2 * n), f h = ∑ h ∈ range n, (f (2 * h) + f (2 * h + 1)) := by
  induction n with
  | zero => rfl
  | succ n ih => rw [Nat.mul_succ, sum_range_succ, sum_range_succ, ih, sum_range_succ, add_assoc]

/-- A polynomial, from its terms of even and of odd index. -/
theorem sum_terms (c : ℕ → R) (step off d : ℕ) (y : R) :
    ∑ g ∈ range (2 ^ d), c (step * (2 * g) + off) * (y ^ 2) ^ g
        + (∑ g ∈ range (2 ^ d), c (step * (2 * g + 1) + off) * (y ^ 2) ^ g) * y
      = ∑ g ∈ range (2 ^ (d + 1)), c (step * g + off) * y ^ g := by
  rw [pow_succ' 2 d, sum_range_two_mul, sum_mul, ← sum_add_distrib]
  refine sum_congr rfl fun g _ => ?_
  rw [pow_succ y, pow_mul]
  ring

/-- A block, or its left or right half. -/
theorem half_cases {d q : ℕ} (hq : q < 2 ^ (d + 1)) : ∃ i < 2 ^ d, q = 2 * i ∨ q = 2 * i + 1 := by
  rw [pow_succ] at hq
  exact ⟨q / 2, by omega, by omega⟩

/-- The factors are square roots: `node d i` belongs to block `i` after `d` passes, its square root
is the factor of the next pass, and belongs to the left half of the block, its negative to the
right half. -/
structure Consistent (θ : ℕ → R) (node : ℕ → ℕ → R) (L : ℕ) : Prop where
  /-- Factors are square roots. -/
  sq : ∀ d < L, ∀ i < 2 ^ d, θ (2 ^ d + i) ^ 2 = node d i
  /-- Left halves. -/
  low : ∀ d < L, ∀ i < 2 ^ d, node (d + 1) (2 * i) = θ (2 ^ d + i)
  /-- Right halves. -/
  high : ∀ d < L, ∀ i < 2 ^ d, node (d + 1) (2 * i + 1) = -θ (2 ^ d + i)

variable {θ : ℕ → R} {node : ℕ → ℕ → R} {L : ℕ}

/-- A pass of the forward network: block `i` holds the polynomial modulo `X ^ (2 ^ e) - node d i`,
its halves hold the residues modulo the two factors. -/
theorem forward_eq_residue (h : Consistent θ node L) (c : ℕ → R) :
    ∀ {d e : ℕ}, d + e = L → ∀ {i j : ℕ}, i < 2 ^ d → j < 2 ^ e →
      forward θ L d c (2 ^ e * i + j) = ∑ g ∈ range (2 ^ d), c (2 ^ e * g + j) * node d i ^ g := by
  intro d
  induction d with
  | zero =>
    intro e he i j hi hj
    obtain rfl : i = 0 := by omega
    simp [forward]
  | succ d ih =>
    intro e he q j hq hj
    obtain ⟨i, hi, hhalf⟩ := half_cases hq
    have ht : L - 1 - d = e := by omega
    have hd : d < L := by omega
    have hu : forward θ L d c (2 * 2 ^ e * i + j)
        = ∑ g ∈ range (2 ^ d), c (2 ^ e * (2 * g) + j) * (θ (2 ^ d + i) ^ 2) ^ g := by
      rw [show 2 * 2 ^ e * i + j = 2 ^ (e + 1) * i + j by ring,
        ih (e := e + 1) (by omega) hi (by rw [pow_succ]; omega), h.sq d hd i hi]
      refine sum_congr rfl fun g _ => ?_
      rw [show 2 ^ (e + 1) * g + j = 2 ^ e * (2 * g) + j by ring]
    have hv : forward θ L d c (2 * 2 ^ e * i + j + 2 ^ e)
        = ∑ g ∈ range (2 ^ d), c (2 ^ e * (2 * g + 1) + j) * (θ (2 ^ d + i) ^ 2) ^ g := by
      rw [show 2 * 2 ^ e * i + j + 2 ^ e = 2 ^ (e + 1) * i + (j + 2 ^ e) by ring,
        ih (e := e + 1) (by omega) hi (by rw [pow_succ]; omega), h.sq d hd i hi]
      refine sum_congr rfl fun g _ => ?_
      rw [show 2 ^ (e + 1) * g + (j + 2 ^ e) = 2 ^ e * (2 * g + 1) + j by ring]
    rw [forward_succ, ht]
    rcases hhalf with rfl | rfl
    · rw [show 2 ^ e * (2 * i) + j = 2 * 2 ^ e * i + j by ring, mulPass_low hi hj, hu, hv,
        h.low d hd i hi]
      exact sum_terms c (2 ^ e) j d _
    · have hneg := sum_terms c (2 ^ e) j d (-θ (2 ^ d + i))
      rw [neg_sq] at hneg
      rw [show 2 ^ e * (2 * i + 1) + j = 2 * 2 ^ e * i + j + 2 ^ e by ring, mulPass_high hi hj, hu,
        hv, h.high d hd i hi, ← hneg]
      ring

/-- **With consistent factors, the forward network evaluates the polynomial of its
coefficients.** -/
theorem forward_eq_eval (h : Consistent θ node L) (c : ℕ → R) {x : ℕ} (hx : x < 2 ^ L) :
    forward θ L L c x = ∑ g ∈ range (2 ^ L), c g * node L x ^ g := by
  have hres := forward_eq_residue h c (Nat.add_zero L) hx (Nat.zero_lt_one)
  simpa using hres

/-- Up to the last pass, the blocks of an array with two coefficients are copies of the first. -/
theorem forward_copies (θ : ℕ → R) {c : ℕ → R} (hc : ∀ p, 2 ≤ p → p < 2 ^ (L + 1) → c p = 0) :
    ∀ {d e : ℕ}, d + e = L → ∀ {i j : ℕ}, i < 2 ^ d → j < 2 ^ (e + 1) →
      forward θ (L + 1) d c (2 ^ (e + 1) * i + j) = c j := by
  intro d
  induction d with
  | zero =>
    intro e _ i j hi _
    obtain rfl : i = 0 := by omega
    rw [Nat.mul_zero, Nat.zero_add]
    rfl
  | succ d ih =>
    intro e he q j hq hj
    obtain ⟨i, hi, hhalf⟩ := half_cases hq
    have ht : L + 1 - 1 - d = e + 1 := by omega
    have htwo : 2 ≤ j + 2 ^ (e + 1) := (Nat.le_self_pow (by omega) 2).trans (Nat.le_add_left _ _)
    have hsize : j + 2 ^ (e + 1) < 2 ^ (L + 1) := by
      have : 2 ^ (e + 1 + 1) ≤ 2 ^ (L + 1) := Nat.pow_le_pow_right (by omega) (by omega)
      rw [pow_succ _ (e + 1)] at this
      omega
    have hu := ih (e := e + 1) (by omega) hi (j := j) (by rw [pow_succ]; omega)
    have hv := ih (e := e + 1) (by omega) hi (j := j + 2 ^ (e + 1)) (by rw [pow_succ]; omega)
    rw [show 2 ^ (e + 1 + 1) * i + j = 2 * 2 ^ (e + 1) * i + j by ring] at hu
    rw [show 2 ^ (e + 1 + 1) * i + (j + 2 ^ (e + 1)) = 2 * 2 ^ (e + 1) * i + j + 2 ^ (e + 1) by
      ring, hc _ htwo hsize] at hv
    rw [forward_succ, ht]
    rcases hhalf with rfl | rfl
    · rw [show 2 ^ (e + 1) * (2 * i) + j = 2 * 2 ^ (e + 1) * i + j by ring, mulPass_low hi hj, hu,
        hv, zero_mul, add_zero]
    · rw [show 2 ^ (e + 1) * (2 * i + 1) + j = 2 * 2 ^ (e + 1) * i + j + 2 ^ (e + 1) by ring,
        mulPass_high hi hj, hu, hv, zero_mul, sub_zero]

/-- **Whatever the factors**, two coefficients are combined in the last pass only. -/
theorem forward_eq_of_two (θ : ℕ → R) {c : ℕ → R}
    (hc : ∀ p, 2 ≤ p → p < 2 ^ (L + 1) → c p = 0) {i : ℕ} (hi : i < 2 ^ L) :
    forward θ (L + 1) (L + 1) c (2 * i) = c 0 + c 1 * θ (2 ^ L + i) ∧
      forward θ (L + 1) (L + 1) c (2 * i + 1) = c 0 - c 1 * θ (2 ^ L + i) := by
  have hu := forward_copies θ hc (Nat.add_zero L) hi (j := 0) (by decide)
  have hv := forward_copies θ hc (Nat.add_zero L) hi (j := 1) (by decide)
  have hlow := mulPass_low (w := fun i _ => θ (2 ^ L + i)) (t := 1) hi Nat.zero_lt_one
    (forward θ (L + 1) L c)
  have hhigh := mulPass_high (w := fun i _ => θ (2 ^ L + i)) (t := 1) hi Nat.zero_lt_one
    (forward θ (L + 1) L c)
  rw [forward_succ, show 2 ^ (L + 1 - 1 - L) = 1 by simp]
  simp only [Nat.mul_one, Nat.add_zero, zero_add, pow_one] at hlow hhigh hu hv
  rw [hlow, hhigh, hu, hv]
  exact ⟨rfl, rfl⟩

/-! ### Growing values from coefficients -/

/-- The first `d` passes of the network that grows `dup * 2 ^ K` values from `2 ^ K` coefficients,
each of them given `dup` times.  Place `j` of a block of pass `s` has the factor `x s j`. -/
def grow (x : ℕ → ℕ → R) (dup K d : ℕ) (res : ℕ → R) : ℕ → R :=
  (List.range d).foldl
    (fun res s => mulPass (fun _ j => x s j) (2 ^ (K - 1 - s)) (dup * 2 ^ s) res) res

theorem grow_succ (x : ℕ → ℕ → R) (dup K d : ℕ) (res : ℕ → R) :
    grow x dup K (d + 1) res
      = mulPass (fun _ j => x d j) (2 ^ (K - 1 - d)) (dup * 2 ^ d) (grow x dup K d res) := by
  rw [grow, List.range_succ, List.foldl_append]
  rfl

/-- The factors are evaluation points: those of a pass are the points of its left halves, their
negatives those of the right halves, and their squares those of the pass before. -/
structure Points (x pt : ℕ → ℕ → R) (dup K : ℕ) : Prop where
  /-- Squares. -/
  sq : ∀ d < K, ∀ j < dup * 2 ^ d, x d j ^ 2 = pt d j
  /-- Left halves. -/
  low : ∀ d < K, ∀ j < dup * 2 ^ d, pt (d + 1) j = x d j
  /-- Right halves. -/
  high : ∀ d < K, ∀ j < dup * 2 ^ d, pt (d + 1) (j + dup * 2 ^ d) = -x d j

/-- A numbering of the blocks of every pass, in the order in which the coefficients come. -/
structure Numbering (ρ : ℕ → ℕ → ℕ) : Prop where
  /-- Left blocks have the terms of even index. -/
  even : ∀ e i, ρ (e + 1) (2 * i) = ρ e i
  /-- Right blocks have the terms of odd index. -/
  odd : ∀ e i, ρ (e + 1) (2 * i + 1) = 2 ^ e + ρ e i

/-- A pass of the growing network: block `i` holds the values of the terms whose index is
`ρ e i` modulo `2 ^ e`. -/
theorem grow_eq_partial {x pt : ℕ → ℕ → R} {dup K : ℕ} (h : Points x pt dup K) {ρ : ℕ → ℕ → ℕ}
    (hρ : Numbering ρ) {c res : ℕ → R}
    (hres : ∀ i < 2 ^ K, ∀ j < dup, res (dup * i + j) = c (ρ K i)) :
    ∀ {d e : ℕ}, d + e = K → ∀ {i j : ℕ}, i < 2 ^ e → j < dup * 2 ^ d →
      grow x dup K d res (dup * 2 ^ d * i + j)
        = ∑ g ∈ range (2 ^ d), c (2 ^ e * g + ρ e i) * pt d j ^ g := by
  intro d
  induction d with
  | zero =>
    intro e he i j hi hj
    obtain rfl : e = K := by omega
    have := hres i hi j (by omega)
    simpa [grow] using this
  | succ d ih =>
    intro e he i q hi hq
    have hm : K - 1 - d = e := by omega
    have hd : d < K := by omega
    have hleft : ∀ j < dup * 2 ^ d, grow x dup K d res (2 * (dup * 2 ^ d) * i + j)
        = ∑ g ∈ range (2 ^ d), c (2 ^ e * (2 * g) + ρ e i) * (x d j ^ 2) ^ g := by
      intro j hj
      rw [show 2 * (dup * 2 ^ d) * i + j = dup * 2 ^ d * (2 * i) + j by ring,
        ih (e := e + 1) (by omega) (by rw [pow_succ]; omega) hj, hρ.even, h.sq d hd j hj]
      refine sum_congr rfl fun g _ => ?_
      rw [show 2 ^ (e + 1) * g + ρ e i = 2 ^ e * (2 * g) + ρ e i by ring]
    have hright : ∀ j < dup * 2 ^ d, grow x dup K d res (2 * (dup * 2 ^ d) * i + j + dup * 2 ^ d)
        = ∑ g ∈ range (2 ^ d), c (2 ^ e * (2 * g + 1) + ρ e i) * (x d j ^ 2) ^ g := by
      intro j hj
      rw [show 2 * (dup * 2 ^ d) * i + j + dup * 2 ^ d = dup * 2 ^ d * (2 * i + 1) + j by ring,
        ih (e := e + 1) (by omega) (by rw [pow_succ]; omega) hj, hρ.odd, h.sq d hd j hj]
      refine sum_congr rfl fun g _ => ?_
      rw [show 2 ^ (e + 1) * g + (2 ^ e + ρ e i) = 2 ^ e * (2 * g + 1) + ρ e i by ring]
    rw [grow_succ, hm]
    by_cases hhalf : q < dup * 2 ^ d
    · rw [show dup * 2 ^ (d + 1) * i + q = 2 * (dup * 2 ^ d) * i + q by ring, mulPass_low hi hhalf,
        h.low d hd q hhalf]
      rw [hleft q hhalf, hright q hhalf]
      exact sum_terms c (2 ^ e) (ρ e i) d (x d q)
    · obtain ⟨j, hj, rfl⟩ : ∃ j < dup * 2 ^ d, q = j + dup * 2 ^ d :=
        ⟨q - dup * 2 ^ d, by rw [pow_succ, ← mul_assoc] at hq; omega, by omega⟩
      have hneg := sum_terms c (2 ^ e) (ρ e i) d (-x d j)
      rw [neg_sq] at hneg
      rw [show dup * 2 ^ (d + 1) * i + (j + dup * 2 ^ d)
          = 2 * (dup * 2 ^ d) * i + j + dup * 2 ^ d by ring, mulPass_high hi hj, hleft j hj,
        hright j hj, h.high d hd j hj, ← hneg]
      ring

/-- **The growing network evaluates the polynomial of its coefficients.** -/
theorem grow_eq_eval {x pt : ℕ → ℕ → R} {dup K : ℕ} (h : Points x pt dup K) {ρ : ℕ → ℕ → ℕ}
    (hρ : Numbering ρ) (hzero : ρ 0 0 = 0) {c res : ℕ → R}
    (hres : ∀ i < 2 ^ K, ∀ j < dup, res (dup * i + j) = c (ρ K i)) {j : ℕ}
    (hj : j < dup * 2 ^ K) :
    grow x dup K K res j = ∑ g ∈ range (2 ^ K), c g * pt K j ^ g := by
  have hval := grow_eq_partial h hρ hres (Nat.add_zero K) Nat.zero_lt_one hj
  simpa [hzero] using hval

end Radix2
