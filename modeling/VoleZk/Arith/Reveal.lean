import VoleZk.Arith.ArithToBool
import VoleZk.Arith.FpExec

/-!
# What a reveal returns

`reveal_recv` receives a word for each label, hashes the MAC that the word stands for, and leaves
the word itself to the caller.  The MAC takes the word as a residue.  `reveal_check_recv` goes on to
compare the word with what the caller expects, and `reveal_check_zero` sends no word at all.

## What is here

* `Revealed.accept_iff` — the MACs agree exactly if every word is congruent to its value;
* `fp_reveal_sound_iff` — **a reveal is sound exactly on canonical words**, and `fp_reveal_forged`;
* `revealCheck_sound`, `revealCheckZero_sound` — the reveals that know what to expect are sound on
  every word.
-/

set_option autoImplicit false

namespace VoleZk

/-- `ZKFpExecVer::reveal`: the engine, and the values returned. -/
def Ver.reveal (F : FpOps) (delta : ℕ) (e : FpOSTriple) (key : List AuthVal) (recv : List ℕ) :
    FpOSTriple × List ℕ :=
  (e.revealRecv F delta key recv, recv)

/-- `reveal_check_recv`: an error is raised unless the words are the ones expected. -/
def Ver.revealCheck (F : FpOps) (delta : ℕ) (e : FpOSTriple) (key : List AuthVal)
    (expected recv : List ℕ) : Option FpOSTriple :=
  let (e, value) := Ver.reveal F delta e key recv
  if expected = value then some e else none

/-- What the caller can rely on. -/
theorem Ver.revealCheck_cases {F : FpOps} {delta : ℕ} {e e' : FpOSTriple} {key : List AuthVal}
    {expected recv : List ℕ} (h : Ver.revealCheck F delta e key expected recv = some e') :
    expected = recv ∧ (Ver.reveal F delta e key recv).1 = e' := by
  simp only [Ver.revealCheck, Option.ite_none_right_eq_some, Option.some.injEq] at h
  exact h

/-- A label that is revealed as a word. -/
structure Revealed where
  /-- The label. -/
  label : Label
  /-- Its value. -/
  v : ℕ
  /-- The word sent. -/
  word : ℕ

namespace Revealed

variable {F : FpOps} {Δ : ℕ}

/-- The label is one of the value, and the word has 64 bits. -/
structure Ok (Δ : ℕ) (r : Revealed) : Prop where
  /-- The label. -/
  auth : Auth Δ r.label.prover r.label.verifier r.v
  /-- The word. -/
  word_lt : r.word < 2 ^ 64

/-- The prover's halves. -/
def macs (rs : List Revealed) : List AuthVal := rs.map fun r => r.label.prover

/-- The verifier's halves. -/
def keys (rs : List Revealed) : List AuthVal := rs.map fun r => r.label.verifier

/-- The words hashed for the labels agree. -/
def Accept (F : FpOps) (Δ : ℕ) (p v : FpOSTriple) (rs : List Revealed) : Prop :=
  (Ver.reveal F Δ v (keys rs) (rs.map word)).1.hashed = (p.revealSend (macs rs)).1.hashed

/-- **What is accepted.** -/
theorem accept_iff (hF : F.Canonical)
    (hmul : ∀ a b, a < 2 ^ 64 → b < PR → F.multMod a b = a * b % PR) (hΔ : Δ < PR) (hΔ0 : 0 < Δ)
    {p v : FpOSTriple} (hpv : v.hashed = p.hashed) {rs : List Revealed}
    (hrs : ∀ r ∈ rs, r.Ok Δ) : Accept F Δ p v rs ↔ ∀ r ∈ rs, r.word % PR = r.v := by
  have hword : ∀ r ∈ rs, F.addMod (F.multMod r.word Δ) r.label.verifier.mac = r.label.prover.mac
      ↔ r.word % PR = r.v := fun r hr => by
    have hauth := (hrs r hr).auth
    have hm := hmul _ _ (hrs r hr).word_lt hΔ
    rw [← hauth.open_iff hF hΔ hΔ0 hm, openCheckSend, openCheckRecv, eq_comm]
    -- the two routines add in opposite orders
    have hprod : F.multMod r.word Δ < PR := hm ▸ Nat.mod_lt _ PR_pos
    have hkey := hauth.key_lt
    rw [hF.addMod_eq _ _ hprod.le hkey.le (by omega), hF.addMod_eq _ _ hkey.le hprod.le (by omega),
      Nat.add_comm]
  rw [Accept, Ver.reveal, FpOSTriple.revealRecv, FpOSTriple.revealSend, hpv,
    List.append_cancel_left_eq,
    keys, macs, List.zipWith_map, List.zipWith_self, List.map_map]
  exact List.map_inj_left.trans (forall₂_congr hword)

end Revealed

variable {F : FpOps} {Δ : ℕ}

/-- **A reveal is sound exactly on canonical words.**  For labels of the values `v` and every list
of words: "if the words hashed are the prover's MACs, then what is returned are the values, all
below `PR`" holds if and only if the words, when each is congruent to its `v`, are below `PR`.
`hmul` is an assumption on emp-tool: `mult_mod` reduces also where a factor is a word. -/
theorem fp_reveal_sound_iff (hF : F.Canonical)
    (hmul : ∀ a b, a < 2 ^ 64 → b < PR → F.multMod a b = a * b % PR) (hΔ : Δ < PR) (hΔ0 : 0 < Δ)
    {p v : FpOSTriple} (hpv : v.hashed = p.hashed) {rs : List Revealed}
    (hrs : ∀ r ∈ rs, r.Ok Δ) :
    (Revealed.Accept F Δ p v rs →
        (Ver.reveal F Δ v (Revealed.keys rs) (rs.map Revealed.word)).2 = rs.map Revealed.v ∧
          ∀ x ∈ (Ver.reveal F Δ v (Revealed.keys rs) (rs.map Revealed.word)).2, x < PR)
      ↔ ((∀ r ∈ rs, r.word % PR = r.v) → ∀ r ∈ rs, r.word < PR) := by
  rw [Revealed.accept_iff hF hmul hΔ hΔ0 hpv hrs]
  refine forall_congr' fun hacc => ?_
  rw [Ver.reveal, List.map_inj_left, List.forall_mem_map]
  refine ⟨fun h => h.2, fun hlt => ⟨fun r hr => ?_, hlt⟩⟩
  rw [← hacc r hr, Nat.mod_eq_of_lt (hlt r hr)]

/-- A label of value `v` and key 5 under `Δ = 1`, revealed as `word`. -/
def Revealed.sample (v word : ℕ) : Revealed := ⟨⟨⟨v, (5 + v) % PR⟩, ⟨0, 5⟩⟩, v, word⟩

theorem Revealed.sample_ok {v word : ℕ} (hv : v < PR) (hword : word < 2 ^ 64) :
    (sample v word).Ok 1 := by
  refine ⟨⟨rfl, hv, rfl, Nat.mod_lt _ PR_pos, (by decide +kernel : 5 < PR), ?_⟩, hword⟩
  show (5 + v) % PR = (5 + v * 1) % PR
  rw [Nat.mul_one]

/-- An engine that has hashed nothing. -/
def FpOSTriple.sample : FpOSTriple :=
  ⟨0, 0, 0, fun _ => ⟨0, 0⟩, fun _ => ⟨0, 0⟩, fun _ => ⟨0, 0⟩, []⟩

/-- The labels of 3 and 4, revealed as 3 and 4. -/
theorem fp_reveal_sound_three_four :
    Revealed.Accept FpOps.residues 1 .sample .sample [.sample 3 3, .sample 4 4] ∧
      (Ver.reveal FpOps.residues 1 .sample (Revealed.keys [.sample 3 3, .sample 4 4])
        [3, 4]).2 = [3, 4] := by
  have hok : ∀ r ∈ [Revealed.sample 3 3, Revealed.sample 4 4], r.Ok 1 := by
    simp only [List.forall_mem_cons, List.not_mem_nil, false_implies, implies_true, and_true]
    exact ⟨Revealed.sample_ok (by decide +kernel) (by decide),
      Revealed.sample_ok (by decide +kernel) (by decide)⟩
  have hacc : Revealed.Accept FpOps.residues 1 .sample .sample
      [Revealed.sample 3 3, Revealed.sample 4 4] := by
    rw [Revealed.accept_iff FpOps.residues_canonical (fun _ _ _ _ => rfl) (by decide +kernel)
      Nat.one_pos rfl hok]
    decide +kernel
  exact ⟨hacc, ((fp_reveal_sound_iff FpOps.residues_canonical (fun _ _ _ _ => rfl)
    (by decide +kernel) Nat.one_pos rfl hok).mpr (fun _ => by decide +kernel) hacc).1⟩

/-- **The word `PR` for a label of value 0**: the MACs agree, and `PR` is returned. -/
theorem fp_reveal_forged :
    (Revealed.sample 0 PR).Ok 1 ∧
      Revealed.Accept FpOps.residues 1 .sample .sample [.sample 0 PR] ∧
      (Ver.reveal FpOps.residues 1 .sample (Revealed.keys [.sample 0 PR]) [PR]).2 ≠ [0] := by
  have hok : (Revealed.sample 0 PR).Ok 1 := Revealed.sample_ok PR_pos (by decide +kernel)
  refine ⟨hok, ?_, by decide +kernel⟩
  rw [Revealed.accept_iff FpOps.residues_canonical (fun _ _ _ _ => rfl) (by decide +kernel)
    Nat.one_pos rfl (List.forall_mem_singleton.mpr hok)]
  decide +kernel

/-! ## Reveals with an expected value -/

/-- **A reveal with canonical expected values is sound on every word.** -/
theorem revealCheck_sound (hF : F.Canonical)
    (hmul : ∀ a b, a < 2 ^ 64 → b < PR → F.multMod a b = a * b % PR) (hΔ : Δ < PR) (hΔ0 : 0 < Δ)
    {p v v' : FpOSTriple} (hpv : v.hashed = p.hashed) {rs : List Revealed}
    (hrs : ∀ r ∈ rs, r.Ok Δ) {expected : List ℕ} (hexp : ∀ x ∈ expected, x < PR)
    (h : Ver.revealCheck F Δ v (Revealed.keys rs) expected (rs.map Revealed.word) = some v')
    (hacc : v'.hashed = (p.revealSend (Revealed.macs rs)).1.hashed) :
    expected = rs.map Revealed.v := by
  obtain ⟨rfl, rfl⟩ := Ver.revealCheck_cases h
  have hword := (Revealed.accept_iff hF hmul hΔ hΔ0 hpv hrs).mp hacc
  refine List.map_inj_left.mpr fun r hr => ?_
  rw [← hword r hr, Nat.mod_eq_of_lt (hexp _ (List.mem_map_of_mem hr))]

/-- **A reveal of zeros is sound**: the prover's MAC is the key only for the value 0. -/
theorem revealCheckZero_sound (hΔ : Δ < PR) (hΔ0 : 0 < Δ) {p v : FpOSTriple}
    (hpv : v.hashed = p.hashed) {rs : List Revealed} (hrs : ∀ r ∈ rs, r.Ok Δ) :
    (v.revealCheckZero (Revealed.keys rs)).hashed = (p.revealCheckZero (Revealed.macs rs)).hashed
      ↔ ∀ r ∈ rs, r.v = 0 := by
  have hmac : ∀ r ∈ rs, r.label.verifier.mac = r.label.prover.mac ↔ r.v = 0 := fun r hr => by
    have hauth := (hrs r hr).auth
    rw [hauth.mac_eq, ← Nat.mod_eq_of_lt hauth.key_lt, Nat.mod_add_mod]
    constructor
    · intro heq
      have hdvd : PR ∣ r.v * Δ := by
        have hmod : r.label.verifier.mac + 0 ≡ r.label.verifier.mac + r.v * Δ [MOD PR] := heq
        exact (Nat.modEq_zero_iff_dvd.mp (Nat.ModEq.add_left_cancel' _ hmod).symm)
      rcases PR_prime.dvd_mul.mp hdvd with hv | hd
      · exact Nat.eq_zero_of_dvd_of_lt hv hauth.val_lt
      · exact absurd hd (Nat.not_dvd_of_pos_of_lt hΔ0 hΔ)
    · intro hv
      rw [hv, Nat.zero_mul, Nat.add_zero]
  rw [FpOSTriple.revealCheckZero, FpOSTriple.revealCheckZero, hpv, List.append_cancel_left_eq,
    Revealed.keys, Revealed.macs, List.map_map, List.map_map]
  exact List.map_inj_left.trans (forall₂_congr hmac)

end VoleZk
