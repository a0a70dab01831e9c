import VoleZk.Mvzk.CheckComplete
import VoleZk.Mvzk.Fp59Mixed
import VoleZk.Mvzk.Fp59x2
import VoleZk.Mvzk.Lazy
import VoleZk.Mvzk.Reveal

/-!
# The masked checks of the verifiers

Whatever the verifiers check together ends in `macCheckZero`: each of them has words that should add
up to 0, masks them with its part of a sharing of 0, commits to the result, opens it, and adds up
what all of them opened.  Two callers prepare the words: `checkPublic`, for wires that should have
public values, and `openAndCheck`, for the triple at the end of the multiplication check.

Public constants reach these checks through the keys: `pubShare` has no MAC, and a key that makes up
for it, so the words of a wire stay those of the value its shares authenticate.

`checkPublic` multiplies the claimed words as they are.  `revealCheck` hands it canonical ones;
`reveal` hands it what the prover sent, and a word whose multiples `mult_mod` gets wrong is rejected
although it stands for the value of the wire.

## What is here

* `Verifier.macCheckZero`, `Verifier.checkPublic`, `Verifier.openAndCheck`, at one verifier, with
  the exchanges between honest verifiers;
* `Verifier.macCheckZero_iff`, `Verifier.checkPublic_iff`, `Verifier.openAndCheck_iff` — what each
  of them accepts;
* `Verifier.openAndCheck_iff_opening` — the same as the opening of the multiplication check;
* `Verifier.masked_checks_iff` — **the claimed words with which all three check what they should**,
  at every verifier, for all masks.
-/

set_option autoImplicit false

open Finset

namespace VoleZk.Mvzk

/-- A vector, from its entries. -/
def vec {α : Type*} (len : ℕ) (f : ℕ → α) : List α := (List.range len).map f

namespace Verifier

section Model

variable {Com Dig Salt : Type} [DecidableEq Com] [DecidableEq Dig]

/-- What verifier `i` opens: its masked words and a salt. -/
def opening (n cnt : ℕ) (salt : ℕ → Salt) (deal : ℕ → ℕ → ℕ → ℕ) (o : ℕ → ℕ → ℕ) (i : ℕ) :
    List ℕ × Salt :=
  (vec cnt fun c => FP59.addMod (o i c) (zeroShare n (deal c) i), salt i)

/-- `macCheckZero` at verifier `id`, with `cnt` words a verifier.  The first exchange brings it the
commitments of the others, and the second their openings. -/
def macCheckZero (n cnt : ℕ) (hash : List ℕ × Salt → Com) (salt : ℕ → Salt)
    (deal : ℕ → ℕ → ℕ → ℕ) (o : ℕ → ℕ → ℕ) (id : ℕ) : Bool :=
  let got := opening n cnt salt deal o
  let coms := fun j => hash (got j)
  (others n id).all (fun j => hash (got j) == coms j) &&
    (List.range cnt).all fun c => Mvzk.macCheckZero n (deal c) (fun i => o i c) id

/-- `checkPublic` at verifier `id`: the sizes, the digests of the claimed values, and the masked
check of one combination with the coefficients `chi` of the coin. -/
def checkPublic (n : ℕ) (digest : List ℕ → Dig) (hash : List ℕ × Salt → Com) (salt : ℕ → Salt)
    (deal : ℕ → ℕ → ℕ → ℕ) (sh : ℕ → List (AuthShare ℕ)) (claimed : ℕ → List ℕ) (chi : List ℕ)
    (delta : ℕ → ℕ) (id : ℕ) : Bool :=
  (claimed id).length == (sh id).length &&
    (others n id).all (fun j => digest (claimed j) == digest (claimed id)) &&
    macCheckZero n 1 hash salt deal
      (fun i _ => checkPublicShare (sh i) (claimed i) chi (delta i)) id

/-- `open[c]` at verifier `id`: its own value, and those of the others. -/
def opened (n : ℕ) (vals : ℕ → ℕ → ℕ) (c id : ℕ) : ℕ :=
  (others n id).foldl (fun acc j => FP59.addMod acc (vals j c)) (vals id c)

/-- `openAndCheck` at verifier `id`: of each component, the MAC is in the high lane of `macs` and
the key in the low one. -/
def openAndCheck (n : ℕ) (hash : List ℕ × Salt → Com) (salt : ℕ → Salt)
    (deal : ℕ → ℕ → ℕ → ℕ) (vals : ℕ → ℕ → ℕ) (macs : ℕ → ℕ → Lanes) (delta : ℕ → ℕ) (id : ℕ) :
    Bool :=
  let o := fun i c => FP59.sub (FP59.sub (macs i c).high (macs i c).low)
    (FP59.multMod (opened n vals c i) (delta i))
  macCheckZero n 3 hash salt deal o id &&
    opened n vals 2 id == FP59.multMod (opened n vals 0 id) (opened n vals 1 id)

end Model

/-! ## What is accepted -/

section Accept

variable {Com Dig Salt : Type} [DecidableEq Com] [DecidableEq Dig] {n id : ℕ}
  {hash : List ℕ × Salt → Com} {salt : ℕ → Salt} {deal : ℕ → ℕ → ℕ → ℕ}

variable (hash salt) in
/-- **The masked check** of `cnt` words: the words of all verifiers add up to 0 in each. -/
theorem macCheckZero_iff (cnt : ℕ) {o : ℕ → ℕ → ℕ} (hdeal : ∀ c i j, deal c i j < P59)
    (ho : ∀ i c, o i c < P59) (hid : id < n) :
    macCheckZero n cnt hash salt deal o id = true
      ↔ ∀ c < cnt, ∑ i ∈ range n, (o i c : ZMod P59) = 0 := by
  have hcomp : ∀ c, Mvzk.macCheckZero n (deal c) (fun i => o i c) id = true
      ↔ ∑ i ∈ range n, (o i c : ZMod P59) = 0 := fun c =>
    Mvzk.macCheckZero_iff (hdeal c) (fun i => ho i c) hid
  simp [macCheckZero, hcomp]

/-! ### Public values -/

/-- One of the three sums of `checkPublic`: the words `f` with the coefficients `chi`. -/
def combination (f chi : ℕ → ℕ) : ℕ → ℕ
  | 0 => 0
  | len + 1 => FP59.addMod (combination f chi len) (FP59.multMod (f len) (chi len))

/-- The loop of `checkPublic`. -/
theorem checkPublicShare_vec (sh : ℕ → AuthShare ℕ) (claimed chi : ℕ → ℕ) (delta len : ℕ) :
    checkPublicShare (vec len sh) (vec len claimed) (vec len chi) delta
      = FP59.sub (FP59.sub (combination (fun j => (sh j).mac) chi len)
          (combination (fun j => (sh j).key) chi len))
        (FP59.multMod (combination claimed chi len) delta) := by
  -- the body of the loop, with the fields of what it reads
  have hloop : ∀ {g : ℕ × ℕ × ℕ → AuthShare ℕ × ℕ × ℕ → ℕ × ℕ × ℕ},
      (∀ sum wire, g sum wire = (FP59.addMod sum.1 (FP59.multMod wire.1.mac wire.2.2),
        FP59.addMod sum.2.1 (FP59.multMod wire.1.key wire.2.2),
        FP59.addMod sum.2.2 (FP59.multMod wire.2.1 wire.2.2))) →
      ((vec len sh).zip ((vec len claimed).zip (vec len chi))).foldl g (0, 0, 0)
        = (combination (fun j => (sh j).mac) chi len, combination (fun j => (sh j).key) chi len,
          combination claimed chi len) := by
    intro g hg
    rw [vec, vec, vec, List.zip_map', List.zip_map', List.foldl_map]
    induction len with
    | zero => rfl
    | succ len ih =>
      rw [List.range_succ, List.foldl_append, ih, List.foldl_cons, hg]
      rfl
  rw [checkPublicShare, hloop fun _ _ => rfl]

section Combination

variable {f chi : ℕ → ℕ}

/-- Products that are exact add up to the combination in the field. -/
theorem residue_combination {len : ℕ}
    (hprod : ∀ j < len, FP59.Residue (FP59.multMod (f j) (chi j)) (f j * chi j)) :
    FP59.Residue (combination f chi len) (∑ j ∈ range len, f j * chi j) := by
  induction len with
  | zero => exact ⟨P59_pos, by simp [combination]⟩
  | succ len ih =>
    obtain ⟨hlt, hcast⟩ := ih fun j hj => hprod j (hj.trans len.lt_succ_self)
    obtain ⟨hlt', hcast'⟩ := hprod len len.lt_succ_self
    exact ⟨FP59.addMod_lt hlt hlt', by
      rw [combination, FP59.addMod_cast hlt hlt', hcast, hcast', sum_range_succ]⟩

theorem residue_combination_of_lt (len : ℕ) (hf : ∀ j, f j < P59) (hchi : ∀ j, chi j < P59) :
    FP59.Residue (combination f chi len) (∑ j ∈ range len, f j * chi j) :=
  residue_combination fun j _ =>
    ⟨FP59.multMod_lt (hf j) (hchi j), FP59.multMod_cast (hf j) (hchi j)⟩

theorem addMod_zero_right {a : ℕ} (ha : a < 2 ^ 64) :
    FP59.addMod a 0 < 2 ^ 64 ∧ (FP59.addMod a 0 : ZMod P59) = a := by
  rw [FP59.addMod, Nat.add_zero, word_of_lt ha]
  exact ⟨by split <;> omega, FP59.ite_sub_cast a⟩

/-- A combination with one coefficient that is not 0, whatever `mult_mod` makes of it. -/
theorem combination_single (len : ℕ) {j : ℕ} (hchi : ∀ i ≠ j, chi i = 0) :
    combination f chi len < 2 ^ 64 ∧
      (combination f chi len : ZMod P59) = if j < len then FP59.multMod (f j) (chi j) else 0 := by
  have hnil : ∀ m ≤ j, combination f chi m = 0 := by
    intro m hm
    induction m with
    | zero => rfl
    | succ m ih =>
      rw [combination, ih (by omega), hchi m (by omega), FP59.multMod_zero_right]
      rfl
  induction len with
  | zero => exact ⟨by rw [hnil 0 (Nat.zero_le j)]; decide, by simp [combination]⟩
  | succ len ih =>
    rcases eq_or_ne len j with rfl | hne
    · have hword := FP59.multMod_lt_word (f len) (chi len)
      rw [if_pos len.lt_succ_self, combination, hnil len le_rfl, FP59.addMod, Nat.zero_add,
        word_of_lt hword]
      exact ⟨by split <;> omega, FP59.ite_sub_cast _⟩
    · obtain ⟨hlt, hcast⟩ := ih
      obtain ⟨hlt', hcast'⟩ := addMod_zero_right hlt
      rw [combination, hchi len hne, FP59.multMod_zero_right]
      have hiff : j < len + 1 ↔ j < len := by omega
      exact ⟨hlt', by rw [hcast', hcast, if_congr hiff rfl rfl]⟩

end Combination

section Public

variable {sh : ℕ → AuthShare ℕ} {claimed chi : ℕ → ℕ} {delta len : ℕ}

/-- The claimed values, times the key. -/
theorem residue_value
    (hprod : ∀ j < len, FP59.Residue (FP59.multMod (claimed j) (chi j)) (claimed j * chi j))
    (hdelta : delta < P59) :
    FP59.Residue (FP59.multMod (combination claimed chi len) delta)
      ((∑ j ∈ range len, claimed j * chi j : ZMod P59) * delta) := by
  obtain ⟨hv, hcast⟩ := residue_combination hprod
  exact ⟨FP59.multMod_lt hv hdelta, by rw [FP59.multMod_cast hv hdelta, hcast]⟩

/-- The word of one verifier, if the claimed values come to `V`. -/
theorem checkPublicShare_spec (hmac : ∀ j, (sh j).mac < P59) (hkey : ∀ j, (sh j).key < P59)
    (hchi : ∀ j, chi j < P59) {V : ZMod P59}
    (hV : FP59.Residue (FP59.multMod (combination claimed chi len) delta) (V * delta)) :
    FP59.Residue (checkPublicShare (vec len sh) (vec len claimed) (vec len chi) delta)
      (∑ j ∈ range len, chi j * ((sh j).mac - (sh j).key : ZMod P59) - V * delta) := by
  obtain ⟨hm, hmcast⟩ := residue_combination_of_lt len hmac hchi
  obtain ⟨hk, hkcast⟩ := residue_combination_of_lt len hkey hchi
  obtain ⟨hv, hvcast⟩ := hV
  rw [checkPublicShare_vec]
  refine ⟨FP59.sub_lt (FP59.sub_lt hm hk) hv, ?_⟩
  rw [FP59.sub_cast (FP59.sub_lt hm hk) hv, FP59.sub_cast hm hk, hmcast, hkcast, hvcast,
    ← sum_sub_distrib]
  exact congrArg (· - _) (sum_congr rfl fun j _ => by ring)

end Public

/-- What the verifiers hold when values are claimed for their wires: shares of the values `x`, and
the coefficients of the coin. -/
structure Claim (n len : ℕ) (delta : ℕ → ℕ) (sh : ℕ → ℕ → AuthShare ℕ) (x : ℕ → ZMod P59)
    (chi : ℕ → ℕ) : Prop where
  /-- MACs are canonical. -/
  mac_lt : ∀ i j, (sh i j).mac < P59
  /-- Keys are canonical. -/
  key_lt : ∀ i j, (sh i j).key < P59
  /-- The coefficients are canonical. -/
  chi_lt : ∀ j, chi j < P59
  /-- The verifiers' parts of the global key are canonical. -/
  delta_lt : ∀ i, delta i < P59
  /-- The shares of the verifiers authenticate the values. -/
  shared : ∀ j < len, Shared n (fun i => (delta i : ZMod P59)) (fun i => (sh i j).cast) (x j)

section Public

variable {len : ℕ} {delta : ℕ → ℕ} {sh : ℕ → ℕ → AuthShare ℕ} {x : ℕ → ZMod P59}
  {claimed chi : ℕ → ℕ}

/-- Wires that `evalLinear` makes of shared ones, and of public constants: they authenticate the
values of the combinations. -/
theorem Claim.of_evalLinear {C : BackendConfig (ZMod P59)} {base : ℕ → ℕ → AuthShare (ZMod P59)}
    {pv c : ℕ → ZMod P59} {terms : ℕ → List (ZMod P59 × ℕ)}
    (h : Claim n 0 delta sh x chi) (hn : C.poly.n = n)
    (hdelta : ∀ i, C.delta i = delta i)
    (hbase : ∀ j < len, ∀ t ∈ terms j, Shared C.poly.n C.delta (fun i => base i t.2) (pv t.2))
    (hsh : ∀ i j, (sh i j).cast = evalLinear C i (base i) (terms j) (c j)) :
    Claim n len delta sh (fun j => (terms j).foldl (fun acc t => acc + t.1 * pv t.2) (c j))
      chi := by
  refine ⟨h.mac_lt, h.key_lt, h.chi_lt, h.delta_lt, fun j hj => ?_⟩
  have hshared := evalLinear_shared base (hbase j hj) (c j)
  rw [hn, funext hdelta] at hshared
  exact hshared.congr fun i _ => hsh i j

/-- `checkPublic` is the masked check of the words of the verifiers. -/
theorem checkPublic_eq_macCheckZero (digest : List ℕ → Dig) (sh : ℕ → ℕ → AuthShare ℕ)
    (claimed chi : ℕ → ℕ) (delta : ℕ → ℕ) (len : ℕ) :
    checkPublic n digest hash salt deal (fun i => vec len (sh i)) (fun _ => vec len claimed)
        (vec len chi) delta id
      = macCheckZero n 1 hash salt deal (fun i _ => checkPublicShare (vec len (sh i))
          (vec len claimed) (vec len chi) (delta i)) id := by
  simp [checkPublic, vec]

/-- What `checkPublic` accepts, if the claimed values come to `V`. -/
theorem checkPublic_iff_value {digest : List ℕ → Dig} (hdeal : ∀ c i j, deal c i j < P59)
    (hid : id < n) (h : Claim n len delta sh x chi) {V : ZMod P59}
    (hV : ∀ i, FP59.Residue (FP59.multMod (combination claimed chi len) (delta i)) (V * delta i)) :
    checkPublic n digest hash salt deal (fun i => vec len (sh i)) (fun _ => vec len claimed)
        (vec len chi) delta id = true
      ↔ (∑ i ∈ range n, (delta i : ZMod P59)) * (∑ j ∈ range len, chi j * x j - V) = 0 := by
  have hword := fun i => checkPublicShare_spec (h.mac_lt i) (h.key_lt i) h.chi_lt (hV i)
  have hsum : ∑ i ∈ range n,
      (checkPublicShare (vec len (sh i)) (vec len claimed) (vec len chi) (delta i) : ZMod P59)
      = (∑ i ∈ range n, (delta i : ZMod P59)) * (∑ j ∈ range len, chi j * x j - V) := by
    simp only [(hword _).2]
    rw [sum_sub_distrib, sum_comm, ← mul_sum, mul_sub, mul_comm V, mul_sum]
    refine congrArg (· - _) (sum_congr rfl fun j hj => ?_)
    -- the MAC relation of wire `j`
    have hmac : ∑ i ∈ range n, ((sh i j).mac : ZMod P59)
        = ∑ i ∈ range n, ((sh i j).key : ZMod P59) + (∑ i ∈ range n, (delta i : ZMod P59)) * x j :=
      (h.shared j (mem_range.mp hj)).mac_sum
    rw [← mul_sum, sum_sub_distrib, hmac]
    ring
  rw [checkPublic_eq_macCheckZero, macCheckZero_iff hash salt 1 hdeal (fun i _ => (hword i).1) hid,
    ← hsum]
  exact ⟨fun hall => hall 0 Nat.one_pos, fun hsum _ _ => hsum⟩

/-- **`checkPublic` accepts** exactly if the global key times the combination of the errors is 0,
if the products of the claimed words are exact. -/
theorem checkPublic_iff {digest : List ℕ → Dig} (hdeal : ∀ c i j, deal c i j < P59)
    (hid : id < n) (h : Claim n len delta sh x chi)
    (hprod : ∀ j < len, FP59.Residue (FP59.multMod (claimed j) (chi j)) (claimed j * chi j)) :
    checkPublic n digest hash salt deal (fun i => vec len (sh i)) (fun _ => vec len claimed)
        (vec len chi) delta id = true
      ↔ (∑ i ∈ range n, (delta i : ZMod P59))
          * ∑ j ∈ range len, chi j * (x j - claimed j : ZMod P59) = 0 := by
  rw [checkPublic_iff_value hdeal hid h fun i => residue_value hprod (h.delta_lt i),
    ← sum_sub_distrib]
  simp only [mul_sub, mul_comm (claimed _ : ZMod P59)]

/-- The wires of the values that the words stand for, which verifier 0 holds alone, and a single
coefficient that is not 0. -/
theorem Claim.alone (hn : 0 < n) (claimed : ℕ → ℕ) {c : ℕ} (hc : c < P59) (len j : ℕ) :
    Claim n len aloneDelta (fun i k => aloneShare (claimed k % P59) i) (fun k => claimed k)
      (fun k => if k = j then c else 0) := by
  have w := fun k => Wire.alone hn (Nat.mod_lt (claimed k) P59_pos)
  refine ⟨fun i k => (w k).mac_lt i, fun i k => (w k).key_lt i, fun k => ?_, (w 0).delta_lt,
    fun k _ => ?_⟩
  · split
    · exact hc
    · exact P59_pos
  · have hshared := (w k).shared
    rwa [ZMod.natCast_mod] at hshared

/-- **A right claim is rejected** if `mult_mod` gets a multiple of one of its words wrong. -/
theorem checkPublic_reject (hn : 0 < n) (digest : List ℕ → Dig)
    (hdeal : ∀ c i j, deal c i j < P59) (hid : id < n) {j c : ℕ} (hj : j < len)
    (hword : claimed j < 2 ^ 64) (hc : c < P59) (hfits : ¬FP59.HighFits (claimed j * c)) :
    ¬checkPublic n digest hash salt deal
        (fun i => vec len fun k => aloneShare (claimed k % P59) i) (fun _ => vec len claimed)
        (vec len fun k => if k = j then c else 0) aloneDelta id = true := by
  have h := Claim.alone hn claimed hc len j
  have hzero : ∀ k ≠ j, (if k = j then c else 0) = 0 := fun k hk => if_neg hk
  -- the wrong product is all that there is to the sum
  obtain ⟨hvlt, hvcast⟩ := combination_single (f := claimed) len hzero
  have hp : claimed j * c < 2 ^ 123 := by
    rw [Nat.mul_comm]
    exact FP59.word_mul_lt hc hword
  rw [if_pos hj, if_pos rfl, FP59.multMod_cast_of_not_highFits hp hfits] at hvcast
  have hV : ∀ i, FP59.Residue (FP59.multMod
      (combination claimed (fun k => if k = j then c else 0) len) (aloneDelta i))
      (((claimed j * c : ℕ) + 2 ^ 64) * aloneDelta i) := by
    intro i
    rw [aloneDelta]
    split
    · rw [FP59.multMod_one hvlt, Nat.cast_one, mul_one, ← hvcast]
      exact FP59.residue_mod _
    · rw [FP59.multMod_zero_right, Nat.cast_zero, mul_zero]
      exact ⟨P59_pos, Nat.cast_zero⟩
  have hDelta : ∑ i ∈ range n, (aloneDelta i : ZMod P59) ≠ 0 :=
    (Wire.alone hn P59_pos).delta_ne
  have hright : ∑ k ∈ range len, ((if k = j then c else 0 : ℕ) * claimed k : ZMod P59)
      = (claimed j * c : ℕ) := by
    rw [sum_eq_single_of_mem j (mem_range.mpr hj) fun k _ hk => by
      rw [if_neg hk, Nat.cast_zero, zero_mul], if_pos rfl, Nat.cast_mul, mul_comm]
  rw [checkPublic_iff_value hdeal hid h hV, hright, mul_eq_zero, or_iff_right hDelta,
    sub_add_cancel_left, neg_eq_zero]
  exact FP59.two_pow_word_ne_zero

end Public

/-! ### The opened triple -/

section Opened

variable {vals : ℕ → ℕ → ℕ} {macs : ℕ → ℕ → Lanes} {delta : ℕ → ℕ}

theorem opened_lt (hvals : ∀ i c, vals i c < P59) (c id : ℕ) : opened n vals c id < P59 :=
  foldl_addMod_lt (fun j => hvals j c) _ (hvals id c)

/-- Every verifier opens the same values. -/
theorem opened_cast (hvals : ∀ i c, vals i c < P59) (c : ℕ) (hid : id < n) :
    (opened n vals c id : ZMod P59) = ∑ i ∈ range n, (vals i c : ZMod P59) := by
  rw [opened, foldl_addMod_cast (fun j => hvals j c) _ (hvals id c),
    sum_others hid fun j => (vals j c : ZMod P59)]
  ring

/-- **`openAndCheck` accepts** exactly if the MACs of the opened values are right, and the third is
the product of the other two. -/
theorem openAndCheck_iff (hdeal : ∀ c i j, deal c i j < P59) (hid : id < n)
    (hvals : ∀ i c, vals i c < P59) (hmacs : ∀ i c, (macs i c).Canonical)
    (hdelta : ∀ i, delta i < P59) :
    openAndCheck n hash salt deal vals macs delta id = true
      ↔ (∀ c < 3, ∑ i ∈ range n, ((macs i c).high : ZMod P59)
            = ∑ i ∈ range n, ((macs i c).low : ZMod P59)
              + (∑ i ∈ range n, (delta i : ZMod P59)) * ∑ i ∈ range n, (vals i c : ZMod P59)) ∧
          ∑ i ∈ range n, (vals i 2 : ZMod P59)
            = (∑ i ∈ range n, (vals i 0 : ZMod P59)) * ∑ i ∈ range n, (vals i 1 : ZMod P59) := by
  have hhigh : ∀ i c, (macs i c).high < P59 := fun i c => hmacs i c true
  have hlow : ∀ i c, (macs i c).low < P59 := fun i c => hmacs i c false
  have hprod := fun i c => FP59.multMod_lt (opened_lt (n := n) hvals c i) (hdelta i)
  have hmask := macCheckZero_iff hash salt 3 (o := fun i c =>
    FP59.sub (FP59.sub (macs i c).high (macs i c).low)
      (FP59.multMod (opened n vals c i) (delta i))) hdeal
    (fun i c => FP59.sub_lt (FP59.sub_lt (hhigh i c) (hlow i c)) (hprod i c)) hid
  have hsum : ∀ c, ∑ i ∈ range n, ((FP59.sub (FP59.sub (macs i c).high (macs i c).low)
        (FP59.multMod (opened n vals c i) (delta i)) : ℕ) : ZMod P59)
      = ∑ i ∈ range n, ((macs i c).high : ZMod P59) - (∑ i ∈ range n, ((macs i c).low : ZMod P59)
        + (∑ i ∈ range n, (delta i : ZMod P59)) * ∑ i ∈ range n, (vals i c : ZMod P59)) := by
    intro c
    rw [sum_mul, ← sum_add_distrib, ← sum_sub_distrib]
    refine sum_congr rfl fun i hi => ?_
    rw [FP59.sub_cast (FP59.sub_lt (hhigh i c) (hlow i c)) (hprod i c),
      FP59.sub_cast (hhigh i c) (hlow i c), FP59.multMod_cast (opened_lt hvals c i) (hdelta i),
      opened_cast hvals c (mem_range.mp hi)]
    ring
  have hmul := FP59.multMod_lt (opened_lt (n := n) hvals 0 id) (opened_lt (n := n) hvals 1 id)
  have hcast : ((FP59.multMod (opened n vals 0 id) (opened n vals 1 id) : ℕ) : ZMod P59)
      = (∑ i ∈ range n, (vals i 0 : ZMod P59)) * ∑ i ∈ range n, (vals i 1 : ZMod P59) := by
    rw [FP59.multMod_cast (opened_lt hvals 0 id) (opened_lt hvals 1 id), opened_cast hvals 0 hid,
      opened_cast hvals 1 hid]
  rw [openAndCheck, Bool.and_eq_true, hmask, beq_iff_eq]
  refine and_congr (forall₂_congr fun c _ => by rw [hsum c, sub_eq_zero]) ?_
  rw [← hcast, ← opened_cast hvals 2 hid]
  exact ⟨fun h => by rw [h], FP59.eq_of_cast_eq (opened_lt hvals 2 id) hmul⟩

/-- The triple of verifier `i`, in the field. -/
def tripleShare (vals : ℕ → ℕ → ℕ) (macs : ℕ → ℕ → Lanes) (i : ℕ) :
    Triple (AuthShare (ZMod P59)) :=
  let entry := fun c => ⟨(macs i c).high, (macs i c).low, vals i c⟩
  ⟨entry 0, entry 1, entry 2⟩

/-- **It is the opening of the multiplication check**, with masks of its own. -/
theorem openAndCheck_iff_opening (hdeal : ∀ c i j, deal c i j < P59) (hid : id < n)
    (hvals : ∀ i c, vals i c < P59) (hmacs : ∀ i c, (macs i c).Canonical)
    (hdelta : ∀ i, delta i < P59) (deal' : ℕ → ℕ → ℕ → ZMod P59) :
    openAndCheck n hash salt deal vals macs delta id
      = Mvzk.openAndCheck n (fun i => (delta i : ZMod P59)) deal' (tripleShare vals macs) := by
  have hsum : ∀ c l, ∑ i ∈ range n, (((macs i c).high : ZMod P59) - (macs i c).low
        - (∑ i ∈ range n, (vals i c : ZMod P59)) * delta i + dealtZero n (deal' l) i) = 0
      ↔ ∑ i ∈ range n, ((macs i c).high : ZMod P59) = ∑ i ∈ range n, ((macs i c).low : ZMod P59)
        + (∑ i ∈ range n, (delta i : ZMod P59)) * ∑ i ∈ range n, (vals i c : ZMod P59) := by
    intro c l
    rw [sum_add_distrib, sum_dealtZero, add_zero, sum_sub_distrib, sum_sub_distrib, ← mul_sum,
      sub_sub, sub_eq_zero, mul_comm (∑ i ∈ range n, (vals i c : ZMod P59))]
  rw [Bool.eq_iff_iff, openAndCheck_iff hdeal hid hvals hmacs hdelta, Mvzk.openAndCheck,
    decide_eq_true_iff]
  refine and_congr ?_ Iff.rfl
  refine Iff.trans ?_ (and_congr (hsum 0 0) (and_congr (hsum 1 1) (hsum 2 2))).symm
  constructor
  · exact fun h => ⟨h 0 (by decide), h 1 (by decide), h 2 (by decide)⟩
  · rintro ⟨h0, h1, h2⟩ c hc
    interval_cases c
    · exact h0
    · exact h1
    · exact h2

end Opened

end Accept

/-! ## All three -/

section Checks

variable {Com Dig Salt : Type} [DecidableEq Com] [DecidableEq Dig]

/-- **The masked checks.**  For words `claimed`, at every verifier and for all masks: `macCheckZero`
accepts exactly words that add up to 0 in every component; `checkPublic` accepts the claim exactly
if its combined error times the global key is 0, hence if it is right, and with a global key that is
not 0 only for coefficients orthogonal to the error; `openAndCheck` accepts exactly triples with
right MACs and the right product.  This holds if and only if `mult_mod` gets the multiples of all
claimed words right: of canonical ones it does. -/
theorem masked_checks_iff {n len : ℕ} (hn : 0 < n) {claimed : ℕ → ℕ}
    (hclaimed : ∀ j < len, claimed j < 2 ^ 64) (digest : List ℕ → Dig) (hash : List ℕ × Salt → Com)
    (salt : ℕ → Salt) :
    (∀ id < n, ∀ deal : ℕ → ℕ → ℕ → ℕ, (∀ c i j, deal c i j < P59) →
      (∀ (cnt : ℕ) (o : ℕ → ℕ → ℕ), (∀ i c, o i c < P59) →
        (macCheckZero n cnt hash salt deal o id = true
          ↔ ∀ c < cnt, ∑ i ∈ range n, (o i c : ZMod P59) = 0)) ∧
      (∀ (delta : ℕ → ℕ) (sh : ℕ → ℕ → AuthShare ℕ) (x : ℕ → ZMod P59) (chi : ℕ → ℕ),
        Claim n len delta sh x chi →
        let accepts := checkPublic n digest hash salt deal (fun i => vec len (sh i))
          (fun _ => vec len claimed) (vec len chi) delta id
        let error := ∑ j ∈ range len, chi j * (x j - claimed j : ZMod P59)
        (accepts = true ↔ (∑ i ∈ range n, (delta i : ZMod P59)) * error = 0) ∧
          ((∀ j < len, (claimed j : ZMod P59) = x j) → accepts = true) ∧
          (∑ i ∈ range n, (delta i : ZMod P59) ≠ 0 → accepts = true → error = 0)) ∧
      ∀ (vals : ℕ → ℕ → ℕ) (macs : ℕ → ℕ → Lanes) (delta : ℕ → ℕ), (∀ i c, vals i c < P59) →
        (∀ i c, (macs i c).Canonical) → (∀ i, delta i < P59) →
        (openAndCheck n hash salt deal vals macs delta id = true
          ↔ (∀ c < 3, ∑ i ∈ range n, ((macs i c).high : ZMod P59)
                = ∑ i ∈ range n, ((macs i c).low : ZMod P59)
                  + (∑ i ∈ range n, (delta i : ZMod P59)) * ∑ i ∈ range n, (vals i c : ZMod P59)) ∧
              ∑ i ∈ range n, (vals i 2 : ZMod P59)
                = (∑ i ∈ range n, (vals i 0 : ZMod P59)) * ∑ i ∈ range n, (vals i 1 : ZMod P59)))
      ↔ ∀ j < len, ∀ c < P59, FP59.HighFits (claimed j * c) := by
  constructor
  · intro hall j hj c hc
    by_contra hfits
    have hdeal : ∀ _ _ _ : ℕ, 0 < P59 := fun _ _ _ => P59_pos
    have hright := ((hall 0 hn (fun _ _ _ => 0) hdeal).2.1 _ _ _ _
      (Claim.alone hn claimed hc len j)).2.1 fun _ _ => rfl
    exact checkPublic_reject hn digest hdeal hn hj (hclaimed j hj) hc hfits hright
  · intro hfits id hid deal hdeal
    refine ⟨fun cnt o ho => macCheckZero_iff hash salt cnt hdeal ho hid, ?_,
      fun vals macs delta hvals hmacs hdelta => openAndCheck_iff hdeal hid hvals hmacs hdelta⟩
    intro delta sh x chi h accepts error
    have hprod : ∀ j < len,
        FP59.Residue (FP59.multMod (claimed j) (chi j)) (claimed j * chi j) := fun j hj => by
      refine (FP59.residue_multMod_iff ?_).mpr (hfits j hj _ (h.chi_lt j))
      rw [Nat.mul_comm]
      exact FP59.word_mul_lt (h.chi_lt j) (hclaimed j hj)
    have hiff : accepts = true ↔ (∑ i ∈ range n, (delta i : ZMod P59)) * error = 0 :=
      checkPublic_iff hdeal hid h hprod
    refine ⟨hiff, fun hright => hiff.mpr ?_, fun hne haccept => ?_⟩
    · have hzero : error = 0 := sum_eq_zero fun j hj => by
        rw [hright j (mem_range.mp hj), sub_self, mul_zero]
      rw [hzero, mul_zero]
    · exact (mul_eq_zero.mp (hiff.mp haccept)).resolve_left hne

/-- What two verifiers hold of a wire of value `x`. -/
theorem Claim.split {x chi : ℕ} (hx : x < P59) (hchi : chi < P59) (hne : chi ≠ 0) :
    Claim 2 1 splitDelta (fun i _ => splitShare x i) (fun _ => x) (fun _ => chi) :=
  have w := Wire.split hx hchi hne
  ⟨fun i _ => w.mac_lt i, fun i _ => w.key_lt i, fun _ => hchi, w.delta_lt, fun _ _ => w.shared⟩

/-- Two verifiers with masks, and a wire of value 5 that is claimed to be 5, and to be 6. -/
theorem masked_checks_split :
    (∀ id < 2, checkPublic 2 (fun l => l) (fun m => m) (fun i => i) (fun _ => splitDeal)
        (fun i => vec 1 fun _ => splitShare 5 i) (fun _ => vec 1 fun _ => 5) (vec 1 fun _ => 3)
        splitDelta id = true) ∧
      ∀ id < 2, ¬checkPublic 2 (fun l => l) (fun m => m) (fun i => i) (fun _ => splitDeal)
        (fun i => vec 1 fun _ => splitShare 5 i) (fun _ => vec 1 fun _ => 6) (vec 1 fun _ => 3)
        splitDelta id = true := by
  have w := Wire.split (show 5 < P59 by decide) (show 3 < P59 by decide) (by decide)
  have hclaim := Claim.split (show 5 < P59 by decide) (show 3 < P59 by decide) (by decide)
  have hsmall : ∀ c ≤ 6, ∀ _ < 1, ∀ d < P59, FP59.HighFits (c * d) := fun c hc _ _ d hd => by
    rw [Nat.mul_comm]
    exact FP59.highFits_of_le hd (by omega)
  have hword : ∀ c ≤ 6, ∀ _ < 1, c < 2 ^ 64 := fun c hc _ _ => by omega
  have h := fun (c : ℕ) (hc : c ≤ 6) (id : ℕ) (hid : id < 2) =>
    ((masked_checks_iff (show 0 < 2 by decide) (hword c hc) (fun l : List ℕ => l)
      (fun m : List ℕ × ℕ => m) fun i => i).mpr (hsmall c hc) id hid (fun _ => splitDeal)
        fun _ _ _ => w.deal_lt _ _).2.1 _ _ _ _ hclaim
  refine ⟨fun id hid => (h 5 (by decide) id hid).2.1 fun _ _ => rfl, fun id hid haccept => ?_⟩
  have herror := (h 6 (by decide) id hid).2.2 w.delta_ne haccept
  rw [sum_range_one] at herror
  exact absurd herror (by decide +kernel)

/-- A wire of value `2 ^ 33 - 33`, which the word `2 ^ 64 - 1` stands for: with coefficient
`P59 - 1` both verifiers reject it. -/
theorem masked_checks_reject :
    Claim 2 1 splitDelta (fun i _ => splitShare (2 ^ 33 - 33) i) (fun _ => (2 ^ 33 - 33 : ℕ))
        (fun _ => P59 - 1) ∧
      ((2 ^ 64 - 1 : ℕ) : ZMod P59) = (2 ^ 33 - 33 : ℕ) ∧
      ∀ id < 2, checkPublic 2 (fun l => l) (fun m => m) (fun i => i) (fun _ => splitDeal)
        (fun i => vec 1 fun _ => splitShare (2 ^ 33 - 33) i) (fun _ => vec 1 fun _ => 2 ^ 64 - 1)
        (vec 1 fun _ => P59 - 1) splitDelta id = false :=
  ⟨Claim.split (by decide) (by decide) (by decide), by decide +kernel,
    fun id hid => by interval_cases id <;> decide +kernel⟩

end Checks

end Verifier

end VoleZk.Mvzk
