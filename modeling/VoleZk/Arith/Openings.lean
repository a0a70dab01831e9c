import VoleZk.Arith.ArithToBool
import VoleZk.Bool.Block
import VoleZk.Lib.Bytes

/-!
# Opening candidates, and comparing sums of them

A candidate is a label and 62 wires.  To open candidates the prover sends a word for each, and both
parties hash the MAC and the wires' labels that the word stands for.  The MAC takes the word as a
residue, the wires take its low 62 bits.

A generation compares sums of two candidates in the same way; on the wires the sum is reduced by its
bit 61.

## What is here

* `Candidate.openCheckSend`, `Candidate.openCheckRecv` — the strings that are hashed;
* `Candidate.accept_iff` — **the strings agree exactly if every word is congruent to its label, and
  its low bits are the wires**;
* `Candidate.open_sound_iff` — **opening is sound exactly on canonical words**, and
  `Candidate.open_forged`;
* `bucketSum`, `toNat_bucketSum_iff`, `bucket_accept_iff` — **sums of honest candidates agree unless
  they are `PR`**, and `bucket_rejected`.
-/

set_option autoImplicit false

namespace VoleZk

/-- A candidate as the two parties hold it. -/
structure Candidate where
  /-- The label. -/
  fp : Label
  /-- The prover's halves of the wires, lowest first. -/
  f2Prover : ℕ → Block
  /-- The verifier's halves. -/
  f2Verifier : ℕ → Block

namespace Candidate

/-- What `open_check_send` hashes. -/
def openCheckSend (cs : List Candidate) : List UInt8 :=
  (cs.flatMap fun c => Bytes.le 8 (VoleZk.openCheckSend c.fp.prover)) ++
    cs.flatMap fun c => (List.range 62).flatMap fun j => Bytes.le 16 (c.f2Prover j).toNat

/-- What `open_check_send` sends. -/
def openCheckWords (cs : List Candidate) : List ℕ := cs.map fun c => c.fp.prover.val

/-- What `open_check_recv` hashes, for candidates and the words received. -/
def openCheckRecv (F : FpOps) (deltaFp : ℕ) (deltaF2 : Block) (cs : List (Candidate × ℕ)) :
    List UInt8 :=
  (cs.flatMap fun c => Bytes.le 8 (VoleZk.openCheckRecv F deltaFp c.2 c.1.fp.verifier)) ++
    cs.flatMap fun c => (List.range 62).flatMap fun j =>
      Bytes.le 16 (if c.2.testBit j then c.1.f2Verifier j ^^^ deltaF2 else c.1.f2Verifier j).toNat

/-- A candidate whose label has the value `v` and whose wires are the bits of `b`. -/
structure Holds (deltaFp : ℕ) (deltaF2 : Block) (c : Candidate) (v : ℕ) (b : ZKInt62) : Prop where
  /-- The label. -/
  fp : Auth deltaFp c.fp.prover c.fp.verifier v
  /-- The wires. -/
  f2 : ∀ j < 62, BitAuth deltaF2 (c.f2Prover j) (c.f2Verifier j) (b.getLsbD j)

end Candidate

/-- A candidate that is opened as the word `val`. -/
structure Opening where
  /-- The candidate. -/
  cand : Candidate
  /-- The value of its label. -/
  v : ℕ
  /-- The value of its wires. -/
  b : ZKInt62
  /-- The word. -/
  val : ℕ

/-- An opening, by keys. -/
structure Opening.Ok (deltaFp : ℕ) (deltaF2 : Block) (o : Opening) : Prop where
  /-- What the candidate holds. -/
  holds : o.cand.Holds deltaFp deltaF2 o.v o.b
  /-- The word is one of 64 bits. -/
  val_lt : o.val < 2 ^ 64

/-- The strings that are hashed agree. -/
def Opening.Accept (F : FpOps) (deltaFp : ℕ) (deltaF2 : Block) (os : List Opening) : Prop :=
  Candidate.openCheckSend (os.map Opening.cand)
    = Candidate.openCheckRecv F deltaFp deltaF2 (os.map fun o => (o.cand, o.val))

variable {F : FpOps} {Δ : ℕ} {δ : Block}

/-- **A wire.** -/
theorem BitAuth.open_iff {M K : Block} {b : Bool} (h : BitAuth δ M K b) (hδ : δ ≠ 0) (bit : Bool) :
    M = (if bit then K ^^^ δ else K) ↔ bit = b := by
  have hne : K ^^^ δ ≠ K := fun heq => by
    have hcancel := congrArg (K ^^^ ·) heq
    simp only [← BitVec.xor_assoc, BitVec.xor_self, BitVec.zero_xor] at hcancel
    exact hδ hcancel
  rw [h.mac_eq]
  cases bit <;> cases b <;> simp [hne, hne.symm]

/-- The low bits of a word. -/
theorem testBit_eq_iff (val : ℕ) (b : ZKInt62) :
    (∀ j < 62, val.testBit j = b.getLsbD j) ↔ val % 2 ^ 62 = b.toNat := by
  rw [← BitVec.toNat_ofNat, BitVec.toNat_inj]
  constructor
  · intro h
    refine BitVec.eq_of_getLsbD_eq fun j hj => ?_
    rw [BitVec.getLsbD_ofNat, h j hj]
    simp [hj]
  · rintro rfl j hj
    rw [BitVec.getLsbD_ofNat]
    simp [hj]

namespace Candidate

/-- **What is accepted.** -/
theorem accept_iff (hF : F.Canonical)
    (hmul : ∀ a b, a < 2 ^ 64 → b < PR → F.multMod a b = a * b % PR) (hΔ : Δ < PR) (hΔ0 : 0 < Δ)
    (hδ : δ ≠ 0) {os : List Opening} (hos : ∀ o ∈ os, o.Ok Δ δ) :
    Opening.Accept F Δ δ os ↔ ∀ o ∈ os, o.val % PR = o.v ∧ o.val % 2 ^ 62 = o.b.toNat := by
  have hword : PR < 256 ^ 8 := by decide
  have hmacs : ∀ o ∈ os, Bytes.le 8 (VoleZk.openCheckSend o.cand.fp.prover)
      = Bytes.le 8 (VoleZk.openCheckRecv F Δ o.val o.cand.fp.verifier) ↔ o.val % PR = o.v :=
    fun o ho => by
      have hauth := (hos o ho).holds.fp
      have hm := hmul _ _ (hos o ho).val_lt hΔ
      rw [← hauth.open_iff hF hΔ hΔ0 hm]
      refine ⟨Bytes.le_inj (hauth.mac_lt.trans hword) ?_, congrArg _⟩
      have hprod : F.multMod o.val Δ < PR := hm ▸ Nat.mod_lt _ PR_pos
      have hkey := hauth.key_lt
      exact (hF.addMod_lt hkey.le hprod.le (by omega)).trans hword
  have hbits : ∀ o ∈ os, ((List.range 62).flatMap fun j => Bytes.le 16 (o.cand.f2Prover j).toNat)
      = ((List.range 62).flatMap fun j => Bytes.le 16 (if o.val.testBit j
        then o.cand.f2Verifier j ^^^ δ else o.cand.f2Verifier j).toNat)
      ↔ o.val % 2 ^ 62 = o.b.toNat := fun o ho => by
    rw [Bytes.flatMap_eq_iff fun j _ => by rw [Bytes.length_le, Bytes.length_le], ← testBit_eq_iff]
    refine forall_congr' fun j => ?_
    rw [List.mem_range]
    refine imp_congr_right fun hj => ?_
    rw [← ((hos o ho).holds.f2 j hj).open_iff hδ, ← BitVec.toNat_inj]
    exact ⟨Bytes.le_inj (BitVec.isLt _) (BitVec.isLt _), congrArg _⟩
  have hlen : ∀ o ∈ os, ((List.range 62).flatMap fun j =>
      Bytes.le 16 (o.cand.f2Prover j).toNat).length
        = ((List.range 62).flatMap fun j => Bytes.le 16 (if o.val.testBit j
          then o.cand.f2Verifier j ^^^ δ else o.cand.f2Verifier j).toNat).length := fun o _ => by
    simp only [List.length_flatMap, Bytes.length_le]
  have hmac_len : ∀ o ∈ os, (Bytes.le 8 (VoleZk.openCheckSend o.cand.fp.prover)).length
      = (Bytes.le 8 (VoleZk.openCheckRecv F Δ o.val o.cand.fp.verifier)).length := fun o _ => by
    rw [Bytes.length_le, Bytes.length_le]
  rw [Opening.Accept, openCheckSend, openCheckRecv]
  simp only [List.flatMap_map]
  constructor
  · intro heq
    obtain ⟨hfp, hf2⟩ := List.append_inj heq (by simp only [List.length_flatMap, Bytes.length_le])
    rw [Bytes.flatMap_eq_iff hmac_len] at hfp
    rw [Bytes.flatMap_eq_iff hlen] at hf2
    exact fun o ho => ⟨(hmacs o ho).mp (hfp o ho), (hbits o ho).mp (hf2 o ho)⟩
  · intro h
    rw [(Bytes.flatMap_eq_iff hmac_len).mpr fun o ho => (hmacs o ho).mpr (h o ho).1,
      (Bytes.flatMap_eq_iff hlen).mpr fun o ho => (hbits o ho).mpr (h o ho).2]

/-- On reduced words nothing is asked of `mult_mod` but canonical residues. -/
theorem accept_iff_of_lt (hF : F.Canonical) (hΔ : Δ < PR) (hΔ0 : 0 < Δ) (hδ : δ ≠ 0)
    {os : List Opening} (hos : ∀ o ∈ os, o.cand.Holds Δ δ o.v o.b) (hlt : ∀ o ∈ os, o.val < PR) :
    Opening.Accept F Δ δ os ↔ ∀ o ∈ os, o.val = o.v ∧ o.b.toNat = o.v := by
  have hrecv : ∀ o ∈ os, VoleZk.openCheckRecv F Δ o.val o.cand.fp.verifier
      = VoleZk.openCheckRecv FpOps.residues Δ o.val o.cand.fp.verifier := fun o ho => by
    have hkey := (hos o ho).fp.key_lt
    have hprod : o.val * Δ % PR < PR := Nat.mod_lt _ PR_pos
    rw [VoleZk.openCheckRecv, hF.multMod_eq _ _ (hlt o ho) hΔ,
      hF.addMod_eq _ _ hkey.le hprod.le (by omega)]
    rfl
  have hword : ∀ o ∈ os, o.Ok Δ δ := fun o ho =>
    ⟨hos o ho, (hlt o ho).trans (by decide +kernel)⟩
  have hsame : Opening.Accept F Δ δ os ↔ Opening.Accept FpOps.residues Δ δ os := by
    simp only [Opening.Accept, openCheckRecv, List.flatMap_map]
    rw [List.flatMap_congr fun o ho => congrArg (Bytes.le 8) (hrecv o ho)]
  rw [hsame, accept_iff FpOps.residues_canonical (fun _ _ _ _ => rfl) hΔ hΔ0 hδ hword]
  refine forall₂_congr fun o ho => ?_
  have hlt62 : o.val < 2 ^ 62 := (hlt o ho).trans (by decide +kernel)
  rw [Nat.mod_eq_of_lt (hlt o ho), Nat.mod_eq_of_lt hlt62]
  exact ⟨fun h => ⟨h.1, h.2 ▸ h.1⟩, fun h => ⟨h.1, h.1.trans h.2.symm⟩⟩

/-- **Opening is sound exactly on canonical words.**  For candidates with the values `v` and `b` and
every list of words: "if the strings agree, then `val = v` and `b = v` for every candidate" holds if
and only if the words, when each is congruent to its `v` and has the bits of its `b`, are below
`PR`.  `hmul` is what the claim takes of `mult_mod` on a word that is not a residue. -/
theorem open_sound_iff (hF : F.Canonical)
    (hmul : ∀ a b, a < 2 ^ 64 → b < PR → F.multMod a b = a * b % PR) (hΔ : Δ < PR) (hΔ0 : 0 < Δ)
    (hδ : δ ≠ 0) {os : List Opening} (hos : ∀ o ∈ os, o.Ok Δ δ) :
    (Opening.Accept F Δ δ os → ∀ o ∈ os, o.val = o.v ∧ o.b.toNat = o.v)
      ↔ ((∀ o ∈ os, o.val % PR = o.v ∧ o.val % 2 ^ 62 = o.b.toNat) → ∀ o ∈ os, o.val < PR) := by
  rw [accept_iff hF hmul hΔ hΔ0 hδ hos]
  refine forall_congr' fun hacc => forall₂_congr fun o ho => ?_
  obtain ⟨hv, hb⟩ := hacc o ho
  constructor
  · rintro ⟨hval, -⟩
    exact hval ▸ (hos o ho).holds.fp.val_lt
  · intro hlt
    have hval : o.val = o.v := by rw [← hv, Nat.mod_eq_of_lt hlt]
    have hlt' : o.val < 2 ^ 62 := hlt.trans (by decide +kernel)
    exact ⟨hval, by rw [← hb, Nat.mod_eq_of_lt hlt', hval]⟩

/-- A candidate with the label 3, key 5 under `Δ = 1`, and wires of keys 0 under `δ = 1`. -/
def sample (v : ℕ) (b : ZKInt62) : Candidate where
  fp := ⟨⟨v, (5 + v) % PR⟩, ⟨0, 5⟩⟩
  f2Prover j := bitBlock (b.getLsbD j)
  f2Verifier _ := 0

theorem sample_holds {v : ℕ} (hv : v < PR) (b : ZKInt62) : (sample v b).Holds 1 1 v b := by
  have hkey : 5 < PR := by decide +kernel
  have hlsb : lsb 0 = false := by decide
  refine ⟨⟨rfl, hv, rfl, Nat.mod_lt _ PR_pos, hkey, ?_⟩, fun j _ => ⟨?_, ?_, hlsb⟩⟩
  · show (5 + v) % PR = (5 + v * 1) % PR
    rw [Nat.mul_one]
  · show bitBlock (b.getLsbD j) = 0#128 ^^^ _
    rw [BitVec.zero_xor]
    rfl
  · rw [lsb, sample, getLsbD_bitBlock]
    simp

/-- The label 3 and the wires of 3, opened as 3. -/
theorem open_sound_three :
    Opening.Accept FpOps.residues 1 1 [⟨sample 3 3, 3, 3, 3⟩] ∧
      ∀ o ∈ [(⟨sample 3 3, 3, 3, 3⟩ : Opening)], o.val = o.v ∧ o.b.toNat = o.v := by
  have hΔ : 1 < PR := by decide +kernel
  have hok : ∀ o ∈ [(⟨sample 3 3, 3, 3, 3⟩ : Opening)], o.Ok 1 1 := by
    simp only [List.forall_mem_singleton]
    exact ⟨sample_holds (by decide +kernel) 3, by decide +kernel⟩
  have hacc : Opening.Accept FpOps.residues 1 1 [⟨sample 3 3, 3, 3, 3⟩] := by
    rw [accept_iff FpOps.residues_canonical (fun _ _ _ _ => rfl) hΔ Nat.one_pos (by decide) hok]
    simp only [List.forall_mem_singleton]
    decide +kernel
  refine ⟨hacc, (open_sound_iff FpOps.residues_canonical (fun _ _ _ _ => rfl) hΔ Nat.one_pos
    (by decide) hok).mpr (fun _ => ?_) hacc⟩
  simp only [List.forall_mem_singleton]
  decide +kernel

/-- **The word `PR`**: the label is 0, the wires are those of `PR`, and the strings agree. -/
theorem open_forged :
    Opening.Ok 1 1 ⟨sample 0 (BitVec.ofNat 62 PR), 0, BitVec.ofNat 62 PR, PR⟩ ∧
      Opening.Accept FpOps.residues 1 1
        [⟨sample 0 (BitVec.ofNat 62 PR), 0, BitVec.ofNat 62 PR, PR⟩] ∧
      ¬(PR = 0 ∧ (BitVec.ofNat 62 PR).toNat = 0) := by
  have hok : Opening.Ok 1 1 ⟨sample 0 (BitVec.ofNat 62 PR), 0, BitVec.ofNat 62 PR, PR⟩ :=
    ⟨sample_holds PR_pos _, by decide +kernel⟩
  refine ⟨hok, ?_, by decide +kernel⟩
  rw [accept_iff FpOps.residues_canonical (fun _ _ _ _ => rfl) (by decide +kernel) Nat.one_pos
    (by decide) (List.forall_mem_singleton.mpr hok)]
  simp only [List.forall_mem_singleton]
  decide +kernel

end Candidate

/-! ## Sums of two candidates -/

/-- `int_boo_pr_plus_two`. -/
def intBooPrPlusTwo : ZKInt62 := BitVec.ofNat 62 (PR + 2)

/-- What the wires of two candidates become in `f2_to_check`: their sum, and `PR + 2` more if its
bit 61 is set. -/
def bucketSum (a b : ZKInt62) : ZKInt62 :=
  let s := a + b
  if s.getLsbD 61 then s + intBooPrPlusTwo else s

/-- The circuit, as an integer. -/
theorem toNat_bucketSum {a b : ℕ} (ha : a < PR) (hb : b < PR) :
    (bucketSum (BitVec.ofNat 62 a) (BitVec.ofNat 62 b)).toNat
      = if 2 ^ 61 ≤ a + b then (a + b + (PR + 2)) % 2 ^ 62 else a + b := by
  have hPR : PR = 2 ^ 61 - 1 := rfl
  have hsum : (BitVec.ofNat 62 a + BitVec.ofNat 62 b).toNat = a + b := by
    rw [← BitVec.ofNat_add, BitVec.toNat_ofNat]
    exact Nat.mod_eq_of_lt (by omega)
  have hmsb : (BitVec.ofNat 62 a + BitVec.ofNat 62 b).getLsbD 61 = decide (2 ^ 61 ≤ a + b) := by
    have hlast := BitVec.msb_eq_decide (BitVec.ofNat 62 a + BitVec.ofNat 62 b)
    rwa [BitVec.msb_eq_getLsbD_last, hsum] at hlast
  rw [bucketSum]
  simp only [hmsb, decide_eq_true_eq]
  split
  · rw [BitVec.toNat_add, hsum, intBooPrPlusTwo, BitVec.toNat_ofNat, Nat.add_mod_mod]
  · exact hsum

/-- **The circuit reduces every sum but `PR`.**  A sum with bit 61 is `PR + 1` or more, and adding
`PR + 2` takes `PR` away; the sum `PR` has bit 61 clear and is left as it is. -/
theorem toNat_bucketSum_iff {a b : ℕ} (ha : a < PR) (hb : b < PR) :
    (bucketSum (BitVec.ofNat 62 a) (BitVec.ofNat 62 b)).toNat = (a + b) % PR ↔ a + b ≠ PR := by
  rw [toNat_bucketSum ha hb]
  rcases lt_or_ge (a + b) PR with hlt | hge
  · rw [Nat.mod_eq_of_lt hlt]
    unfold PR at hlt ⊢
    rw [if_neg (by omega)]
    exact iff_of_true rfl hlt.ne
  · have hred : a + b - PR < PR := by omega
    rw [Nat.mod_eq_sub_mod hge, Nat.mod_eq_of_lt hred]
    unfold PR at hge hred ⊢
    split <;> omega

/-- Two candidates that are compared: their labels and values, and the wires of the circuit. -/
structure BucketPair where
  /-- The label of the output candidate. -/
  fp₀ : Label
  /-- The label of its partner. -/
  fp₁ : Label
  /-- The values. -/
  a : ℕ
  /-- The partner's value. -/
  b : ℕ
  /-- The prover's halves of the wires in `f2_to_check`. -/
  f2Prover : ℕ → Block
  /-- The verifier's halves. -/
  f2Verifier : ℕ → Block

namespace BucketPair

/-- Honest candidates: label and wires hold the same value, in both. -/
structure Ok (deltaFp : ℕ) (deltaF2 : Block) (p : BucketPair) : Prop where
  /-- The output candidate. -/
  fp₀ : Auth deltaFp p.fp₀.prover p.fp₀.verifier p.a
  /-- The partner. -/
  fp₁ : Auth deltaFp p.fp₁.prover p.fp₁.verifier p.b
  /-- The circuit is evaluated on the wires. -/
  f2 : ∀ j < 62, BitAuth deltaF2 (p.f2Prover j) (p.f2Verifier j)
    ((bucketSum (BitVec.ofNat 62 p.a) (BitVec.ofNat 62 p.b)).getLsbD j)

/-- The entries of `fp_to_check` and `f2_to_check`, opened as the sum of the labels. -/
def opening (F : FpOps) (p : BucketPair) : Opening where
  cand := ⟨intfpAdd F p.fp₀ p.fp₁, p.f2Prover, p.f2Verifier⟩
  v := (p.a + p.b) % PR
  b := bucketSum (BitVec.ofNat 62 p.a) (BitVec.ofNat 62 p.b)
  val := (intfpAdd F p.fp₀ p.fp₁).prover.val

theorem Ok.val_opening (hF : F.Canonical) {p : BucketPair} (h : p.Ok Δ δ) :
    (p.opening F).val = (p.a + p.b) % PR :=
  (h.fp₀.intfpAdd hF h.fp₁).val_eq

theorem Ok.holds (hF : F.Canonical) {p : BucketPair} (h : p.Ok Δ δ) :
    (p.opening F).cand.Holds Δ δ (p.opening F).v (p.opening F).b :=
  ⟨h.fp₀.intfpAdd hF h.fp₁, h.f2⟩

/-- Whether one comparison goes through. -/
theorem Ok.accept_iff (hF : F.Canonical) {p : BucketPair} (h : p.Ok Δ δ) :
    ((p.opening F).val = (p.opening F).v ∧ (p.opening F).b.toNat = (p.opening F).v)
      ↔ p.a + p.b ≠ PR := by
  rw [h.val_opening hF, ← toNat_bucketSum_iff h.fp₀.val_lt h.fp₁.val_lt]
  exact and_iff_right rfl

end BucketPair

/-- **Honest candidates pass the comparison unless two of them add up to `PR`.**  The circuit gives
the sum of the labels exactly then, and so the strings hashed for a list of comparisons agree
exactly then. -/
theorem bucket_accept_iff (hF : F.Canonical) (hΔ : Δ < PR) (hΔ0 : 0 < Δ) (hδ : δ ≠ 0) :
    (∀ a b, a < PR → b < PR →
      ((bucketSum (BitVec.ofNat 62 a) (BitVec.ofNat 62 b)).toNat = F.addMod a b ↔ a + b ≠ PR)) ∧
    (∀ ps : List BucketPair, (∀ p ∈ ps, p.Ok Δ δ) →
      (Opening.Accept F Δ δ (ps.map (BucketPair.opening F)) ↔ ∀ p ∈ ps, p.a + p.b ≠ PR)) := by
  constructor
  · intro a b ha hb
    rw [hF.addMod_eq a b ha.le hb.le (two_mul PR ▸ Nat.add_lt_add ha hb)]
    exact toNat_bucketSum_iff ha hb
  · intro ps hps
    have hlt : ∀ p ∈ ps, (p.opening F).val < PR := fun p hp => by
      rw [(hps p hp).val_opening hF]
      exact Nat.mod_lt _ PR_pos
    rw [Candidate.accept_iff_of_lt hF hΔ hΔ0 hδ (List.forall_mem_map.mpr fun p hp =>
      (hps p hp).holds hF) (List.forall_mem_map.mpr hlt), List.forall_mem_map]
    exact forall₂_congr fun p hp => (hps p hp).accept_iff hF

/-- Candidates of the values `a` and `b`. -/
def BucketPair.sample (a b : ℕ) : BucketPair where
  fp₀ := (Candidate.sample a 0).fp
  fp₁ := (Candidate.sample b 0).fp
  a := a
  b := b
  f2Prover := (Candidate.sample 0 (bucketSum (BitVec.ofNat 62 a) (BitVec.ofNat 62 b))).f2Prover
  f2Verifier _ := 0

theorem BucketPair.sample_ok {a b : ℕ} (ha : a < PR) (hb : b < PR) : (sample a b).Ok 1 1 where
  fp₀ := (Candidate.sample_holds ha 0).fp
  fp₁ := (Candidate.sample_holds hb 0).fp
  f2 := (Candidate.sample_holds PR_pos (bucketSum (BitVec.ofNat 62 a) (BitVec.ofNat 62 b))).f2

/-- Two candidates of value 3 and 4. -/
theorem bucket_accept_seven : Opening.Accept FpOps.residues 1 1
    [(BucketPair.sample 3 4).opening FpOps.residues] := by
  have hok : ∀ p ∈ [BucketPair.sample 3 4], p.Ok 1 1 :=
    List.forall_mem_singleton.mpr (BucketPair.sample_ok (by decide +kernel) (by decide +kernel))
  refine ((bucket_accept_iff FpOps.residues_canonical (by decide +kernel) Nat.one_pos
    (by decide +kernel)).2 _ hok).mpr ?_
  simp only [List.forall_mem_singleton]
  decide +kernel

/-- **Candidates of value 1 and `PR - 1`**: the label is 0, the circuit returns `PR`, and the
strings differ. -/
theorem bucket_rejected :
    (BucketPair.sample 1 (PR - 1)).Ok 1 1 ∧
      (bucketSum (BitVec.ofNat 62 1) (BitVec.ofNat 62 (PR - 1))).toNat ≠ (1 + (PR - 1)) % PR ∧
      ¬Opening.Accept FpOps.residues 1 1
        [(BucketPair.sample 1 (PR - 1)).opening FpOps.residues] := by
  have hok : (BucketPair.sample 1 (PR - 1)).Ok 1 1 :=
    BucketPair.sample_ok (by decide +kernel) (by decide +kernel)
  refine ⟨hok, by decide +kernel, fun hacc => ?_⟩
  have hopen : ∀ o ∈ [(BucketPair.sample 1 (PR - 1)).opening FpOps.residues],
      o.cand.Holds 1 1 o.v o.b :=
    List.forall_mem_singleton.mpr (hok.holds FpOps.residues_canonical)
  rw [Candidate.accept_iff_of_lt FpOps.residues_canonical (by decide +kernel) Nat.one_pos
    (by decide +kernel) hopen (List.forall_mem_singleton.mpr (by decide +kernel)),
    List.forall_mem_singleton, hok.accept_iff FpOps.residues_canonical] at hacc
  exact hacc (by decide +kernel)

end VoleZk
