import VoleZk.Arith.Edabits
import Mathlib.Tactic.IntervalCases

/-!
# What the conversion to Boolean wires accepts

The verifier sees the opened word only through its MAC, so only modulo `PR`, while the circuit
subtracts `r` from the word itself.  The two agree on the two words an honest sum `x + r` can be,
and on no other: an excess of `PR` or more over `x + r` is invisible to the MAC and changes the
wires.

## What is here

* `Auth.open_iff`, `Auth.intfpAdd` — an opened label, and a sum of labels;
* `mac_accepts_iff` — the MACs agree exactly on the words congruent to `x + r`;
* `sumBoo_eq_iff` — among these, the circuit returns `x` exactly on the words up to `x + r`;
* `arith2bool_sound_iff` — **a word that is accepted yields the wires of `x` unless it exceeds
  `x + r`**, for the scalar and the bulk conversion;
* `arith2bool_forged` — the word `PR` for `x + r = 0`.
-/

set_option autoImplicit false

namespace VoleZk

variable {F : FpOps} {Δ : ℕ}

/-- What the verifier recomputes, in the field. -/
theorem Auth.openCheckRecv_cast (hF : F.Canonical) {M K : AuthVal} {v val : ℕ} (h : Auth Δ M K v)
    (hmul : F.multMod val Δ = val * Δ % PR) :
    openCheckRecv F Δ val K < PR ∧ (openCheckRecv F Δ val K : ZMod PR) = K.mac + val * Δ := by
  have hprod : F.multMod val Δ < PR := hmul ▸ Nat.mod_lt _ PR_pos
  have hkey := h.key_lt
  refine ⟨hF.addMod_lt hkey.le hprod.le (by omega), ?_⟩
  rw [openCheckRecv, hF.addMod_cast hkey.le hprod.le (by omega), hmul, ZMod.natCast_mod,
    Nat.cast_mul]

/-- A label opened as its value. -/
theorem Auth.open_eq (hF : F.Canonical) {M K : AuthVal} {v val : ℕ} (h : Auth Δ M K v)
    (hval : val % PR = v) (hmul : F.multMod val Δ = val * Δ % PR) :
    openCheckSend M = openCheckRecv F Δ val K := by
  obtain ⟨hlt, hrecv⟩ := h.openCheckRecv_cast hF hmul
  refine eq_of_cast_eq h.mac_lt hlt ?_
  rw [hrecv, openCheckSend, h.mac_cast, ← hval, ZMod.natCast_mod]

/-- **The MACs of an opened label agree exactly on the words congruent to its value.** -/
theorem Auth.open_iff (hF : F.Canonical) (hΔ : Δ < PR) (hΔ0 : 0 < Δ) {M K : AuthVal} {v val : ℕ}
    (h : Auth Δ M K v) (hmul : F.multMod val Δ = val * Δ % PR) :
    openCheckSend M = openCheckRecv F Δ val K ↔ val % PR = v := by
  refine ⟨fun heq => ?_, fun hval => h.open_eq hF hval hmul⟩
  have hΔne : (Δ : ZMod PR) ≠ 0 := by
    rw [ne_eq, ZMod.natCast_eq_zero_iff]
    exact Nat.not_dvd_of_pos_of_lt hΔ0 hΔ
  have hcast := congrArg (Nat.cast : ℕ → ZMod PR) heq
  rw [(h.openCheckRecv_cast hF hmul).2, openCheckSend, h.mac_cast] at hcast
  rw [← Nat.mod_eq_of_lt h.val_lt, ← ZMod.natCast_eq_natCast_iff' val]
  exact (mul_right_cancel₀ hΔne (add_left_cancel hcast)).symm

/-- The sum of two labels. -/
theorem Auth.intfpAdd (hF : F.Canonical) {a b : Label} {x y : ℕ}
    (ha : Auth Δ a.prover a.verifier x) (hb : Auth Δ b.prover b.verifier y) :
    Auth Δ (intfpAdd F a b).prover (intfpAdd F a b).verifier ((x + y) % PR) := by
  have hval : a.prover.val + b.prover.val < 2 * PR := by
    rw [ha.val_eq, hb.val_eq]
    exact two_mul PR ▸ Nat.add_lt_add ha.val_lt hb.val_lt
  have hmac : a.prover.mac + b.prover.mac < 2 * PR :=
    two_mul PR ▸ Nat.add_lt_add ha.mac_lt hb.mac_lt
  have hkey : a.verifier.mac + b.verifier.mac < 2 * PR :=
    two_mul PR ▸ Nat.add_lt_add ha.key_lt hb.key_lt
  refine .of_cast ?_ (Nat.mod_lt _ PR_pos) rfl (hF.addMod_lt ha.mac_lt.le hb.mac_lt.le hmac)
    (hF.addMod_lt ha.key_lt.le hb.key_lt.le hkey) ?_
  · show F.addMod a.prover.val b.prover.val = _
    rw [hF.addMod_eq _ _ (ha.val_eq ▸ ha.val_lt.le) (hb.val_eq ▸ hb.val_lt.le) hval, ha.val_eq,
      hb.val_eq]
  · show (F.addMod a.prover.mac b.prover.mac : ZMod PR)
      = (F.addMod a.verifier.mac b.verifier.mac : ℕ) + ((x + y) % PR : ℕ) * Δ
    rw [hF.addMod_cast ha.mac_lt.le hb.mac_lt.le hmac,
      hF.addMod_cast ha.key_lt.le hb.key_lt.le hkey,
      ZMod.natCast_mod, Nat.cast_add, ha.mac_cast, hb.mac_cast]
    ring

/-- **The MACs agree exactly on the words congruent to the sum.** -/
theorem mac_accepts_iff (hF : F.Canonical) (hΔ : Δ < PR) (hΔ0 : 0 < Δ) {x r : ℕ}
    {wire cand : Label} (hx : Auth Δ wire.prover wire.verifier x)
    (hr : Auth Δ cand.prover cand.verifier r) {sum : ℕ}
    (hmul : F.multMod sum Δ = sum * Δ % PR) :
    openCheckSend (intfpAdd F cand wire).prover
        = openCheckRecv F Δ sum (intfpAdd F cand wire).verifier
      ↔ sum % PR = (x + r) % PR := by
  rw [(hr.intfpAdd hF hx).open_iff hF hΔ hΔ0 hmul, Nat.add_comm r x]

/-- The circuit, as an integer. -/
theorem toNat_sumBoo {sum r : ℕ} (hr : r < PR) : (sumBoo sum (BitVec.ofNat 62 r)).toNat =
    if 2 ^ 61 ≤ (2 ^ 62 - r + sum) % 2 ^ 62 then ((2 ^ 62 - r + sum) % 2 ^ 62 + PR) % 2 ^ 62
    else (2 ^ 62 - r + sum) % 2 ^ 62 := by
  have hPR : PR = 2 ^ 61 - 1 := rfl
  have hsub : (BitVec.ofNat 62 sum - BitVec.ofNat 62 r).toNat = (2 ^ 62 - r + sum) % 2 ^ 62 := by
    rw [BitVec.toNat_sub, BitVec.toNat_ofNat, BitVec.toNat_ofNat,
      Nat.mod_eq_of_lt (by omega : r < _), Nat.add_mod_mod]
  have hmsb : (BitVec.ofNat 62 sum - BitVec.ofNat 62 r).getLsbD 61
      = decide (2 ^ 61 ≤ (2 ^ 62 - r + sum) % 2 ^ 62) := by
    have hlast := BitVec.msb_eq_decide (BitVec.ofNat 62 sum - BitVec.ofNat 62 r)
    rwa [BitVec.msb_eq_getLsbD_last, hsub] at hlast
  rw [sumBoo]
  simp only [hmsb, decide_eq_true_eq]
  split
  · rw [BitVec.toNat_add, hsub, intBooPr, BitVec.toNat_ofNat, Nat.add_mod_mod]
  · exact hsub

/-- A 64-bit word congruent to `x + r` is the sum less `PR`, or the sum and up to eight times
`PR`. -/
theorem word_cases {x r sum : ℕ} (hx : x < PR) (hr : r < PR) (hsum : sum < 2 ^ 64)
    (h : sum % PR = (x + r) % PR) :
    sum + PR = x + r ∨ ∃ k, k ≤ 8 ∧ sum = x + r + k * PR := by
  unfold PR at hx hr h ⊢
  rcases Nat.le_total (x + r) sum with hle | hle
  · obtain ⟨k, hk⟩ := (Nat.modEq_iff_dvd' hle).mp h.symm
    exact Or.inr ⟨k, by omega, by omega⟩
  · obtain ⟨k, hk⟩ := (Nat.modEq_iff_dvd' hle).mp h
    obtain rfl | rfl : k = 0 ∨ k = 1 := by omega
    · exact Or.inr ⟨0, by omega, by omega⟩
    · exact Or.inl (by omega)

/-- An excess of `PR` or more over the sum changes the wires: `2 ^ 62` divides neither `k * PR` nor
`(k + 1) * PR`. -/
theorem toNat_sumBoo_excess {x r k : ℕ} (hr : r < PR) (hk0 : 1 ≤ k) (hk : k ≤ 8) :
    (sumBoo (x + r + k * PR) (BitVec.ofNat 62 r)).toNat ≠ x % 2 ^ 62 := by
  rw [toNat_sumBoo hr]
  unfold PR at hr ⊢
  rw [show 2 ^ 62 - r + (x + r + k * (2 ^ 61 - 1)) = 2 ^ 62 + (x + k * (2 ^ 61 - 1)) by omega,
    Nat.add_mod_left]
  interval_cases k <;> split <;> omega

/-- **Among the words congruent to `x + r`, the circuit returns `x` exactly on those up to
`x + r`**: the sum itself, and the sum less `PR`. -/
theorem sumBoo_eq_iff {x r sum : ℕ} (hx : x < PR) (hr : r < PR) (hsum : sum < 2 ^ 64)
    (h : sum % PR = (x + r) % PR) :
    sumBoo sum (BitVec.ofNat 62 r) = BitVec.ofNat 62 x ↔ sum ≤ x + r := by
  rw [← BitVec.toNat_inj, BitVec.toNat_ofNat]
  rcases word_cases hx hr hsum h with hlow | ⟨k, hk, rfl⟩
  · -- the subtraction is negative, and adding `PR` makes up for it
    have hout : (sumBoo sum (BitVec.ofNat 62 r)).toNat = x % 2 ^ 62 := by
      rw [toNat_sumBoo hr]
      unfold PR at hx hr hlow ⊢
      rw [show 2 ^ 62 - r + sum = 2 ^ 61 + 1 + x by omega, if_pos (by omega)]
      omega
    exact iff_of_true hout (by omega)
  · by_cases hk0 : k = 0
    · have hout : (sumBoo (x + r + k * PR) (BitVec.ofNat 62 r)).toNat = x % 2 ^ 62 := by
        rw [toNat_sumBoo hr, hk0]
        unfold PR at hx hr ⊢
        rw [show 2 ^ 62 - r + (x + r + 0 * (2 ^ 61 - 1)) = 2 ^ 62 + x by omega,
          Nat.add_mod_left, if_neg (by omega)]
      exact iff_of_true hout (by rw [hk0, Nat.zero_mul, Nat.add_zero])
    · have hpos : 0 < k * PR := Nat.mul_pos (Nat.pos_of_ne_zero hk0) PR_pos
      exact iff_of_false (toNat_sumBoo_excess hr (Nat.pos_of_ne_zero hk0) hk) (by omega)

/-- **The conversion of one label.** -/
theorem convertOne_sound_iff (hF : F.Canonical) (hΔ : Δ < PR) (hΔ0 : 0 < Δ) {x r : ℕ}
    {wire cand : Label} (hx : Auth Δ wire.prover wire.verifier x)
    (hr : Auth Δ cand.prover cand.verifier r) {sum : ℕ} (hsum : sum < 2 ^ 64)
    (hmul : F.multMod sum Δ = sum * Δ % PR) {c : Converted}
    (hc : c = convertOne F Δ (intfpAdd F cand wire) sum (BitVec.ofNat 62 r)) :
    (c.sent = c.recomputed → c.out = BitVec.ofNat 62 x)
      ↔ (sum % PR = (x + r) % PR → sum ≤ x + r) := by
  have hacc : c.sent = c.recomputed ↔ sum % PR = (x + r) % PR := by
    rw [hc]
    exact mac_accepts_iff hF hΔ hΔ0 hx hr hmul
  have hout : c.out = sumBoo sum (BitVec.ofNat 62 r) := by rw [hc]; rfl
  rw [hacc, hout]
  exact forall_congr' fun h => sumBoo_eq_iff hx.val_lt hr.val_lt hsum h

/-- The `i`-th edabit from now is consistent: label and wires hold the same `r`. -/
def ConsistentEdabit {P : EdaBitsParams} (s : EdaBits P) (i r : ℕ) : Prop :=
  Auth s.deltaFp (s.edabitAt i).1.prover (s.edabitAt i).1.verifier r ∧
    (s.edabitAt i).2 = BitVec.ofNat 62 r

/-- **The conversion to Boolean wires is sound exactly on the words that do not exceed the sum.**
For a label of value `x`, masked with a consistent edabit `r`, and every word the prover opens
the sum as: "if the MACs agree, the output is `x`" holds if and only if the word, when it is
congruent to `x + r`, is at most `x + r`.  First the scalar entry point, then element by element
the bulk one.  `hmul` is what the claim takes of `mult_mod` on a word that is not a residue. -/
theorem arith2bool_sound_iff (hF : F.Canonical)
    (hmul : ∀ a b, a < 2 ^ 64 → b < PR → F.multMod a b = a * b % PR) {P : EdaBitsParams}
    (s : EdaBits P) (hΔ : s.deltaFp < PR) (hΔ0 : 0 < s.deltaFp) :
    (∀ (wire : Label) (sum x r : ℕ), sum < 2 ^ 64 → Auth s.deltaFp wire.prover wire.verifier x →
      ConsistentEdabit s 0 r →
        (((s.arith2bool F wire sum).2.sent = (s.arith2bool F wire sum).2.recomputed →
            (s.arith2bool F wire sum).2.out = BitVec.ofNat 62 x)
          ↔ (sum % PR = (x + r) % PR → sum ≤ x + r))) ∧
    (∀ (xs : List (Label × ℕ)) (i x r : ℕ) (hi : i < xs.length), xs[i].2 < 2 ^ 64 →
      Auth s.deltaFp xs[i].1.prover xs[i].1.verifier x → ConsistentEdabit s i r →
        ∃ c, (s.arith2boolBulk F xs).2[i]? = some c ∧
          ((c.sent = c.recomputed → c.out = BitVec.ofNat 62 x)
            ↔ (xs[i].2 % PR = (x + r) % PR → xs[i].2 ≤ x + r))) := by
  constructor
  · intro wire sum x r hsum hx hr
    refine convertOne_sound_iff hF hΔ hΔ0 hx hr.1 hsum (hmul _ _ hsum hΔ) ?_
    rw [← hr.2, EdaBits.arith2bool_eq, ← EdaBits.drawn, EdaBits.deltaFp_drawn]
    rfl
  · intro xs i x r hi hsum hx hr
    refine ⟨_, ?_, convertOne_sound_iff hF hΔ hΔ0 hx hr.1 hsum (hmul _ _ hsum hΔ) rfl⟩
    rw [EdaBits.arith2boolBulk_eq, EdaBits.arith2boolEach_getElem?, List.getElem?_eq_getElem hi,
      Option.map_some, hr.2]

/-- A state whose candidates are all the label of `r` with key 5 under `Δ = 1`. -/
def sampleEdaBits (r : ℕ) : EdaBits EdaBitsParams.std where
  deltaFp := 1
  arithCandidate _ := ⟨⟨r, (5 + r) % PR⟩, ⟨0, 5⟩⟩
  boolCandidate _ := BitVec.ofNat 62 r
  npPt := 0
  npRg := 0
  edabitNum := 2
  edabitOffset := 0
  voleDraw _ _ := ⟨⟨0, 0⟩, ⟨0, 0⟩⟩
  draws := 0
  boolFeed _ _ := 0
  gens := 0

/-- `x = 3` masked with `r = 4` and opened as 7. -/
theorem arith2bool_sound_seven :
    ((sampleEdaBits 4).arith2bool FpOps.residues ⟨⟨3, 8⟩, ⟨0, 5⟩⟩ 7).2.out = 3 := by
  have hx : Auth 1 ⟨3, 8⟩ ⟨0, 5⟩ 3 :=
    ⟨rfl, by decide +kernel, rfl, by decide +kernel, by decide +kernel, by decide +kernel⟩
  have hr : ConsistentEdabit (sampleEdaBits 4) 0 4 :=
    ⟨⟨rfl, by decide +kernel, rfl, by decide +kernel, by decide +kernel, by decide +kernel⟩, rfl⟩
  exact ((arith2bool_sound_iff FpOps.residues_canonical (fun _ _ _ _ => rfl) (sampleEdaBits 4)
    (by decide +kernel) Nat.one_pos).1 ⟨⟨3, 8⟩, ⟨0, 5⟩⟩ 7 3 4 (by decide) hx hr).mpr
      (fun _ => le_refl 7) (by decide +kernel)

/-- **The word `PR` for the sum 0**: `x = 0` masked with `r = 0`.  The MACs agree, and the output
is `PR`, not 0. -/
theorem arith2bool_forged :
    ConsistentEdabit (sampleEdaBits 0) 0 0 ∧ Auth 1 ⟨0, 5⟩ ⟨0, 5⟩ 0 ∧
      ((sampleEdaBits 0).arith2bool FpOps.residues ⟨⟨0, 5⟩, ⟨0, 5⟩⟩ PR).2.sent
        = ((sampleEdaBits 0).arith2bool FpOps.residues ⟨⟨0, 5⟩, ⟨0, 5⟩⟩ PR).2.recomputed ∧
      ((sampleEdaBits 0).arith2bool FpOps.residues ⟨⟨0, 5⟩, ⟨0, 5⟩⟩ PR).2.out
        ≠ BitVec.ofNat 62 0 := by
  refine ⟨⟨⟨rfl, by decide +kernel, rfl, by decide +kernel, by decide +kernel, by decide +kernel⟩,
    rfl⟩, ⟨rfl, by decide +kernel, rfl, by decide +kernel, by decide +kernel, by decide +kernel⟩,
    by decide +kernel, by decide +kernel⟩

end VoleZk
