import VoleZk.Arith.Openings
import VoleZk.Arith.Buckets
import VoleZk.Arith.Conversion
import VoleZk.Lib.CyclicShift

/-!
# What cut and choose lets through

A generation of edabits takes the wires of its candidates from the prover, who may feed any 62 bits.
At the verifier's challenge `C` candidates are opened, every output is compared with its partners,
and one digest is compared for all of it.  This file asks what the challenges say about the outputs.

The challenge only turns the candidates around, so a prover who is accepted at two challenges feeds
errors that repeat around the circle: the challenges that let a wrong output through are as far
apart as a divisor of the circle's length that is greater than `C`.  This needs integers below
`2 ^ 61`, which nothing checks.  In 62 bits a sum may overflow, and the circuit reduces an integer
that is `PR + 2` too large along with the overflow.

The digests are compared as the strings that are hashed: what follows holds up to a collision.

## What is here

* `Generation`, `Generation.calls`, `Generation.Accepts` — a generation as the prover plays it;
* `Generation.accepts_iff` — what is accepted, on reduced words;
* `Generation.cut_and_choose_sound` — **how many challenges let a wrong output through**, for
  integers below `2 ^ 61`;
* `Generation.overfed_accept_iff` — **an output that is `PR + 2` too large is accepted unless it and
  a partner stay below `PR`**, and turns `x` into `x - 2`.
-/

set_option autoImplicit false

namespace VoleZk

/-- The rows of the bucketing, a call of `open_check` each. -/
def EdaBitsParams.bucketRows (P : EdaBitsParams) (npPt randPt : ℕ) : List (List Comparison) :=
  let npRg := npPt + P.ell
  let bucStart := P.fpIndex npRg (npPt + P.N + randPt + P.C)
  let bucStart1 := P.f2Index (randPt + P.N + P.C)
  (List.range P.Bm1).map fun j =>
    P.bucketRow npRg P.N 0 npPt (P.fpIndex npRg (bucStart + j)) (P.f2Index (bucStart1 + j))

theorem EdaBitsParams.flatten_bucketRows (P : EdaBitsParams) (npPt randPt : ℕ) :
    (P.bucketRows npPt randPt).flatten = P.buckets npPt randPt := by
  rw [buckets, List.flatMap_def]
  rfl

/-- A generation of `edabits_gen_backend`: what the two parties hold, and the words the prover opens
after each challenge. -/
structure Generation (P : EdaBitsParams) where
  /-- What the prover has put into the hash before. -/
  sentBefore : List UInt8
  /-- What the verifier has put into it. -/
  receivedBefore : List UInt8
  /-- `np_pt`. -/
  npPt : ℕ
  /-- `arith_candidate`. -/
  arithCandidate : ℕ → Label
  /-- The values of the labels. -/
  v : ℕ → ℕ
  /-- `bool_candidate`, the prover's halves of the wires. -/
  f2Prover : ℕ → ℕ → Block
  /-- The verifier's halves. -/
  f2Verifier : ℕ → ℕ → Block
  /-- What the prover feeds. -/
  b : ℕ → ZKInt62
  /-- The wires of the circuit for an output and a partner, the prover's halves. -/
  sumProver : ℕ → ℕ → ℕ → Block
  /-- The verifier's halves. -/
  sumVerifier : ℕ → ℕ → ℕ → Block
  /-- The word a candidate is opened as after a challenge. -/
  openWord : ℕ → ℕ → ℕ
  /-- The word a comparison is opened as after a challenge. -/
  bucketWord : ℕ → Comparison → ℕ

namespace Generation

variable {P : EdaBitsParams}

/-- The candidate with the wires `i` and the label `k`, opened. -/
def opened (g : Generation P) (randPt i k : ℕ) : Opening where
  cand := ⟨g.arithCandidate k, g.f2Prover i, g.f2Verifier i⟩
  v := g.v k
  b := g.b i
  val := g.openWord randPt i

/-- A comparison: the entries of `fp_to_check` and `f2_to_check`, opened. -/
def compared (F : FpOps) (g : Generation P) (randPt : ℕ) (c : Comparison) : Opening where
  cand := ⟨intfpAdd F (g.arithCandidate c.outFp) (g.arithCandidate c.partnerFp),
    g.sumProver c.outF2 c.partnerF2, g.sumVerifier c.outF2 c.partnerF2⟩
  v := (g.v c.outFp + g.v c.partnerFp) % PR
  b := bucketSum (g.b c.outF2) (g.b c.partnerF2)
  val := g.bucketWord randPt c

/-- The calls of `open_check_send` and `open_check_recv`: the opened block, and a row of comparisons
each. -/
def calls (F : FpOps) (g : Generation P) (randPt : ℕ) : List (List Opening) :=
  List.zipWith (g.opened randPt) (P.openedF2 randPt) (P.openedFp g.npPt randPt) ::
    (P.bucketRows g.npPt randPt).map (List.map (g.compared F randPt))

/-- What the prover's hash has taken when the digest is compared. -/
def sent (F : FpOps) (g : Generation P) (randPt : ℕ) : List UInt8 :=
  g.sentBefore ++ (g.calls F randPt).flatMap fun os => Candidate.openCheckSend (os.map Opening.cand)

/-- What the verifier's hash has taken. -/
def received (F : FpOps) (deltaFp : ℕ) (deltaF2 : Block) (g : Generation P) (randPt : ℕ) :
    List UInt8 :=
  g.receivedBefore ++ (g.calls F randPt).flatMap fun os =>
    Candidate.openCheckRecv F deltaFp deltaF2 (os.map fun o => (o.cand, o.val))

/-- `triple_equality_check`, at the end of the generation.  The parties compare the digests of what
they have hashed; here the strings themselves are compared, which is the same unless two different
strings of the two parties collide. -/
def Accepts (F : FpOps) (deltaFp : ℕ) (deltaF2 : Block) (g : Generation P) (randPt : ℕ) : Prop :=
  g.sent F randPt = g.received F deltaFp deltaF2 randPt

instance (F : FpOps) (deltaFp : ℕ) (deltaF2 : Block) (g : Generation P) (randPt : ℕ) :
    Decidable (g.Accepts F deltaFp deltaF2 randPt) :=
  inferInstanceAs (Decidable (_ = _))

/-- A generation, by keys: labels, wires, and the wires of the circuit. -/
structure Ok (deltaFp : ℕ) (deltaF2 : Block) (g : Generation P) : Prop where
  /-- The labels. -/
  fp : ∀ i < P.ell, Auth deltaFp (g.arithCandidate (g.npPt + i)).prover
    (g.arithCandidate (g.npPt + i)).verifier (g.v (g.npPt + i))
  /-- The wires. -/
  f2 : ∀ i < P.ell, ∀ j < 62,
    BitAuth deltaF2 (g.f2Prover i j) (g.f2Verifier i j) ((g.b i).getLsbD j)
  /-- The circuit is evaluated on the wires. -/
  sum : ∀ e < P.N, ∀ t < P.ell, ∀ j < 62, BitAuth deltaF2 (g.sumProver e t j) (g.sumVerifier e t j)
    ((bucketSum (g.b e) (g.b t)).getLsbD j)
  /-- The parties have hashed equally much. -/
  length_before : g.sentBefore.length = g.receivedBefore.length

/-- The words are reduced, as those of the source's prover are. -/
structure Reduced (g : Generation P) : Prop where
  /-- The opened candidates. -/
  openWord_lt : ∀ randPt, ∀ i < P.ell, g.openWord randPt i < PR
  /-- The comparisons. -/
  bucketWord_lt : ∀ randPt < P.ellFaulty, ∀ c ∈ P.buckets g.npPt randPt,
    g.bucketWord randPt c < PR

end Generation

variable {F : FpOps} {Δ : ℕ} {δ : Block} {P : EdaBitsParams}

/-! ## Reduced words -/

/-- The strings of a list of openings are of one length. -/
theorem Candidate.length_openCheckSend (os : List Opening) :
    (Candidate.openCheckSend (os.map Opening.cand)).length
      = (Candidate.openCheckRecv F Δ δ (os.map fun o => (o.cand, o.val))).length := by
  simp [Candidate.openCheckSend, Candidate.openCheckRecv, List.flatMap_map, List.length_flatMap,
    Bytes.length_le]

namespace Generation

variable {g : Generation P}

/-- The digest compares all that was hashed before, and every call. -/
theorem accepts_iff_calls (hg : g.Ok Δ δ) (randPt : ℕ) : g.Accepts F Δ δ randPt ↔
    g.sentBefore = g.receivedBefore ∧ ∀ os ∈ g.calls F randPt, Opening.Accept F Δ δ os := by
  have hcalls := Bytes.flatMap_eq_iff (l := g.calls F randPt)
    fun os _ => Candidate.length_openCheckSend (F := F) (Δ := Δ) (δ := δ) os
  rw [Accepts, sent, received]
  constructor
  · intro heq
    obtain ⟨hbefore, heq⟩ := List.append_inj heq hg.length_before
    exact ⟨hbefore, hcalls.mp heq⟩
  · rintro ⟨hbefore, hacc⟩
    rw [hbefore, hcalls.mpr hacc]

/-- The opened block, by its turns. -/
theorem zipWith_opened (g : Generation P) (randPt : ℕ) :
    List.zipWith (g.opened randPt) (P.openedF2 randPt) (P.openedFp g.npPt randPt)
      = (List.range P.C).map fun i =>
        g.opened randPt (P.N + randPt + i) (g.npPt + (P.N + randPt + i)) := by
  rw [EdaBitsParams.openedF2, EdaBitsParams.openedFp, List.zipWith_map, List.zipWith_self]
  simp [Nat.add_assoc]

/-- **What is accepted**, on reduced words: the opened candidates are right, and the circuit returns
the sum of the labels for every comparison. -/
theorem accepts_iff (hF : F.Canonical) (hΔ : Δ < PR) (hΔ0 : 0 < Δ) (hδ : δ ≠ 0) (hB : 2 ≤ P.B)
    (hg : g.Ok Δ δ) (hword : g.Reduced) {randPt : ℕ} (hrand : randPt < P.ellFaulty)
    (hcov : randPt ≤ (P.B - 1) * P.N) : g.Accepts F Δ δ randPt ↔
    g.sentBefore = g.receivedBefore ∧
    (∀ i < P.C, g.openWord randPt (P.N + randPt + i) = g.v (g.npPt + (P.N + randPt + i)) ∧
      (g.b (P.N + randPt + i)).toNat = g.v (g.npPt + (P.N + randPt + i))) ∧
    (∀ c ∈ P.buckets g.npPt randPt,
      g.bucketWord randPt c = (g.v c.outFp + g.v c.partnerFp) % PR ∧
      (bucketSum (g.b c.outF2) (g.b c.partnerF2)).toNat
        = (g.v c.outFp + g.v c.partnerFp) % PR) := by
  have hell := EdaBitsParams.ell_eq hB
  have hM : P.ellFaulty = (P.B - 1) * P.N + P.C := EdaBitsParams.ellFaulty_eq hB
  have hopened : Opening.Accept F Δ δ
      (List.zipWith (g.opened randPt) (P.openedF2 randPt) (P.openedFp g.npPt randPt)) ↔
      ∀ i < P.C, g.openWord randPt (P.N + randPt + i) = g.v (g.npPt + (P.N + randPt + i)) ∧
        (g.b (P.N + randPt + i)).toNat = g.v (g.npPt + (P.N + randPt + i)) := by
    rw [zipWith_opened, Candidate.accept_iff_of_lt hF hΔ hΔ0 hδ, List.forall_mem_map]
    · simp only [List.mem_range]
      rfl
    · refine List.forall_mem_map.mpr fun i hi => ?_
      have hi := List.mem_range.mp hi
      exact ⟨hg.fp _ (by omega), hg.f2 _ (by omega)⟩
    · refine List.forall_mem_map.mpr fun i hi => ?_
      have hi := List.mem_range.mp hi
      exact hword.openWord_lt _ _ (by omega)
  have hmem : ∀ row ∈ P.bucketRows g.npPt randPt, ∀ c ∈ row, c ∈ P.buckets g.npPt randPt :=
    fun row hrow c hc => by
      rw [← P.flatten_bucketRows]
      exact List.mem_flatten_of_mem hrow hc
  have hrow : ∀ row ∈ P.bucketRows g.npPt randPt,
      (Opening.Accept F Δ δ (row.map (g.compared F randPt)) ↔ ∀ c ∈ row,
        g.bucketWord randPt c = (g.v c.outFp + g.v c.partnerFp) % PR ∧
        (bucketSum (g.b c.outF2) (g.b c.partnerF2)).toNat
          = (g.v c.outFp + g.v c.partnerFp) % PR) := fun row hrow => by
    rw [Candidate.accept_iff_of_lt hF hΔ hΔ0 hδ, List.forall_mem_map]
    · rfl
    · refine List.forall_mem_map.mpr fun c hc => ?_
      obtain ⟨e, t, he, ht, rfl⟩ := EdaBitsParams.mem_buckets hB hrand (hmem row hrow c hc)
      exact ⟨(hg.fp e (by omega)).intfpAdd hF (hg.fp (P.N + t) (by omega)),
        hg.sum e he (P.N + t) (by omega)⟩
    · exact List.forall_mem_map.mpr fun c hc =>
        hword.bucketWord_lt _ hrand c (hmem row hrow c hc)
  rw [accepts_iff_calls hg, calls, List.forall_mem_cons, hopened, List.forall_mem_map,
    forall₂_congr hrow, ← P.flatten_bucketRows]
  simp only [List.mem_flatten, forall_exists_index, and_imp]
  refine and_congr_right fun _ => and_congr_right fun _ => ?_
  exact ⟨fun h c row hrow hc => h row hrow c hc, fun h row hrow c hc => h c row hrow hc⟩

end Generation

/-! ## Integers below `2 ^ 61` -/

/-- Where the sum does not overflow, the circuit keeps it modulo `PR`. -/
theorem cast_bucketSum {a b : ZKInt62} (hab : a.toNat + b.toNat < 2 ^ 62) :
    ((bucketSum a b).toNat : ZMod PR) = a.toNat + b.toNat := by
  have hsum : (a + b).toNat = a.toNat + b.toNat := by
    rw [BitVec.toNat_add, Nat.mod_eq_of_lt hab]
  have hmsb : (a + b).getLsbD 61 = decide (2 ^ 61 ≤ a.toNat + b.toNat) := by
    have hlast := BitVec.msb_eq_decide (a + b)
    rwa [BitVec.msb_eq_getLsbD_last, hsum] at hlast
  rw [bucketSum]
  simp only [hmsb, decide_eq_true_eq]
  split
  · next hge =>
    have hsub : (a + b + intBooPrPlusTwo).toNat + PR = a.toNat + b.toNat := by
      have hPR : PR = 2 ^ 61 - 1 := rfl
      rw [BitVec.toNat_add, hsum, intBooPrPlusTwo, BitVec.toNat_ofNat, Nat.add_mod_mod]
      omega
    rw [← Nat.cast_add, ← hsub, Nat.cast_add, ZMod.natCast_self, add_zero]
  · rw [hsum, Nat.cast_add]

namespace Generation

variable {g : Generation P}

/-- How far what is fed for a candidate is off its label. -/
def off (g : Generation P) (i : ℕ) : ZMod PR := (g.b i).toNat - g.v (g.npPt + i)

theorem off_eq_zero_iff (hg : g.Ok Δ δ) {i : ℕ} (hi : i < P.ell) :
    g.off i = 0 ↔ (g.b i).toNat % PR = g.v (g.npPt + i) := by
  rw [off, sub_eq_zero, ZMod.natCast_eq_natCast_iff', Nat.mod_eq_of_lt (hg.fp i hi).val_lt]

/-- What is read off the circle from an accepted challenge on: `C` candidates that are right, and
behind them, `B - 1` at a time, the partners of one output after the other. -/
def pattern (g : Generation P) (k : ℕ) : ZMod PR :=
  if k < P.C then 0 else -g.off ((k - P.C) / P.Bm1)

/-- **An accepted challenge reads the pattern off the circle.** -/
theorem off_of_accepts (hF : F.Canonical) (hΔ : Δ < PR) (hΔ0 : 0 < Δ) (hδ : δ ≠ 0) (hB : 2 ≤ P.B)
    (hg : g.Ok Δ δ) (hword : g.Reduced) (hb : ∀ i < P.ell, (g.b i).toNat < 2 ^ 61) {randPt : ℕ}
    (hrand : randPt < P.ellFaulty) (hcov : randPt ≤ (P.B - 1) * P.N)
    (hacc : g.Accepts F Δ δ randPt) {k : ℕ} (hk : k < P.ellFaulty) :
    g.off (P.N + (randPt + k) % P.ellFaulty) = g.pattern k := by
  have hell := EdaBitsParams.ell_eq hB
  have hM : P.ellFaulty = P.Bm1 * P.N + P.C := EdaBitsParams.ellFaulty_eq hB
  have hBm1 : 0 < P.Bm1 := Nat.sub_pos_of_lt hB
  obtain ⟨-, hopen, hbuckets⟩ := (accepts_iff hF hΔ hΔ0 hδ hB hg hword hrand hcov).mp hacc
  rw [pattern]
  split
  · next hkC =>
    -- the opened block does not turn around
    have hlt : randPt + k < P.ellFaulty := by
      have hcov : randPt ≤ P.Bm1 * P.N := hcov
      omega
    rw [Nat.mod_eq_of_lt hlt, ← Nat.add_assoc, off, (hopen k hkC).2, sub_self]
  · next hkC =>
    obtain ⟨t, rfl⟩ := Nat.exists_eq_add_of_le (not_lt.mp hkC)
    have ht : t < P.Bm1 * P.N := by omega
    have he : t / P.Bm1 < P.N := Nat.div_lt_of_lt_mul ht
    have hpartner := Nat.mod_lt (randPt + (P.C + t)) ((Nat.zero_le _).trans_lt hk)
    set i := P.N + (randPt + (P.C + t)) % P.ellFaulty with hi
    have hmem : (⟨t / P.Bm1, i, g.npPt + t / P.Bm1, g.npPt + i⟩ : Comparison)
        ∈ P.buckets g.npPt randPt := by
      rw [EdaBitsParams.buckets_eq hB _ hrand, List.mem_flatMap]
      refine ⟨t % P.Bm1, List.mem_range.mpr (Nat.mod_lt _ hBm1), List.mem_map.mpr
        ⟨t / P.Bm1, List.mem_range.mpr he, ?_⟩⟩
      have hpos : randPt + P.C + t % P.Bm1 + t / P.Bm1 * P.Bm1 = randPt + (P.C + t) := by
        rw [Nat.add_assoc, Nat.mul_comm, Nat.mod_add_div, Nat.add_assoc]
      rw [hpos, ← hi]
    have hsum := congrArg (Nat.cast : ℕ → ZMod PR) (hbuckets _ hmem).2
    have hsmall : (g.b (t / P.Bm1)).toNat + (g.b i).toNat < 2 ^ 62 := by
      have hb₀ := hb (t / P.Bm1) (by omega)
      have hb₁ := hb i (by omega)
      omega
    rw [cast_bucketSum hsmall, ZMod.natCast_mod, Nat.cast_add] at hsum
    rw [Nat.add_sub_cancel_left, off, off, neg_sub, sub_eq_sub_iff_add_eq_add, add_comm, hsum,
      add_comm]

/-- **How many challenges let a wrong output through.**  If the integers fed are below `2 ^ 61` and
the words are reduced, and some output is not congruent to its label, then the challenges that are
accepted, of those that open existing candidates, are at most one in `q`, where `q` is below no
divisor of `ell_faulty` that is greater than `C`. -/
theorem cut_and_choose_sound (hF : F.Canonical) (hΔ : Δ < PR) (hΔ0 : 0 < Δ) (hδ : δ ≠ 0)
    (hB : 2 ≤ P.B) (hg : g.Ok Δ δ) (hword : g.Reduced) (hb : ∀ i < P.ell, (g.b i).toNat < 2 ^ 61)
    {q : ℕ} (hq : ∀ d, d ∣ P.ellFaulty → P.C < d → q ≤ d) {e : ℕ} (he : e < P.N)
    (hbad : (g.b e).toNat % PR ≠ g.v (g.npPt + e)) :
    q * ((Finset.range P.ellFaulty).filter fun randPt =>
      randPt ≤ (P.B - 1) * P.N ∧ g.Accepts F Δ δ randPt).card ≤ P.ellFaulty := by
  have hM : P.ellFaulty = P.Bm1 * P.N + P.C := EdaBitsParams.ellFaulty_eq hB
  have hBm1 : 0 < P.Bm1 := Nat.sub_pos_of_lt hB
  have hell := EdaBitsParams.ell_eq hB
  refine CyclicShift.mul_card_filter_le (D := fun k => g.off (P.N + k)) (G := g.pattern) (z := 0)
    (n := P.C + P.Bm1 * e) (fun k hk => if_pos hk) ?_ ?_ hq fun randPt hrand hacc k hk =>
      off_of_accepts hF hΔ hΔ0 hδ hB hg hword hb hrand hacc.1 hacc.2 hk
  · have hmul : P.Bm1 * e < P.Bm1 * P.N := Nat.mul_lt_mul_of_pos_left he hBm1
    omega
  · rw [pattern, if_neg (by omega), Nat.add_sub_cancel_left, Nat.mul_div_cancel_left _ hBm1,
      neg_ne_zero, ne_eq, off_eq_zero_iff hg (by omega)]
    exact hbad

/-- A generation of labels `v` under the key 1, with the words of the labels. -/
def sample (P : EdaBitsParams) (v : ℕ → ℕ) (b : ℕ → ZKInt62) : Generation P where
  sentBefore := []
  receivedBefore := []
  npPt := 0
  arithCandidate k := (Candidate.sample (v k) 0).fp
  v := v
  f2Prover i := (Candidate.sample 0 (b i)).f2Prover
  f2Verifier _ _ := 0
  b := b
  sumProver e t := (Candidate.sample 0 (bucketSum (b e) (b t))).f2Prover
  sumVerifier _ _ _ := 0
  openWord _ := v
  bucketWord _ c := (v c.outFp + v c.partnerFp) % PR

theorem sample_ok {v : ℕ → ℕ} (hv : ∀ k, v k < PR) (b : ℕ → ZKInt62) : (sample P v b).Ok 1 1 where
  fp _ _ := (Candidate.sample_holds (hv _) 0).fp
  f2 i _ := (Candidate.sample_holds PR_pos (b i)).f2
  sum e _ t _ := (Candidate.sample_holds PR_pos (bucketSum (b e) (b t))).f2
  length_before := rfl

theorem sample_reduced {v : ℕ → ℕ} (hv : ∀ k, v k < PR) (b : ℕ → ZKInt62) :
    (sample P v b).Reduced where
  openWord_lt _ i _ := hv i
  bucketWord_lt _ _ _ _ := Nat.mod_lt _ PR_pos

/-- The divisors of the circle of the source's parameters. -/
theorem std_divisors : ∀ d, d ∣ EdaBitsParams.std.ellFaulty → EdaBitsParams.std.C < d → 7 ≤ d := by
  intro d hd hC
  have hC : 2 < d := hC
  have hd : d ∣ 800002 := hd
  by_contra hlt
  interval_cases d <;> omega

/-- **The source's parameters**, and candidates that are all 1 too large: one challenge in seven. -/
theorem cut_and_choose_sound_std :
    7 * ((Finset.range EdaBitsParams.std.ellFaulty).filter fun randPt =>
      randPt ≤ (EdaBitsParams.std.B - 1) * EdaBitsParams.std.N ∧
        (sample EdaBitsParams.std (fun _ => 0) fun _ => 1).Accepts FpOps.residues 1 1 randPt).card
      ≤ EdaBitsParams.std.ellFaulty :=
  cut_and_choose_sound FpOps.residues_canonical (by decide +kernel) Nat.one_pos (by decide)
    (by decide) (sample_ok (fun _ => PR_pos) _) (sample_reduced (fun _ => PR_pos) _)
    (fun _ _ => show (1 : ZKInt62).toNat < _ by decide) std_divisors
    (show 0 < EdaBitsParams.std.N by decide) (by decide +kernel)

end Generation

/-! ## An output that is `PR + 2` too large -/

/-- The circuit on an integer that is `PR + 2` too large: either the sum overflows by what is too
much, or it is reduced and 2 too large. -/
theorem toNat_bucketSum_overfed {v w : ℕ} (hv : v < PR) (hw : w < PR) :
    (bucketSum (BitVec.ofNat 62 (v + (PR + 2))) (BitVec.ofNat 62 w)).toNat
      = if PR ≤ v + w then v + w - PR else v + w + 2 := by
  have hPR : PR = 2 ^ 61 - 1 := rfl
  have hsum : (BitVec.ofNat 62 (v + (PR + 2)) + BitVec.ofNat 62 w).toNat
      = (v + w + (PR + 2)) % 2 ^ 62 := by
    rw [← BitVec.ofNat_add, BitVec.toNat_ofNat, Nat.add_right_comm]
  have hmsb := BitVec.msb_eq_decide (BitVec.ofNat 62 (v + (PR + 2)) + BitVec.ofNat 62 w)
  rw [BitVec.msb_eq_getLsbD_last, hsum] at hmsb
  rw [bucketSum]
  simp only [show 62 - 1 = 61 from rfl] at hmsb
  simp only [hmsb, decide_eq_true_eq]
  rcases lt_or_ge (v + w) PR with hlt | hge
  · have hsmall : (v + w + (PR + 2)) % 2 ^ 62 = v + w + (PR + 2) := Nat.mod_eq_of_lt (by omega)
    rw [hsmall, if_pos (by omega), if_neg (by omega), BitVec.toNat_add, hsum, hsmall,
      intBooPrPlusTwo, BitVec.toNat_ofNat, Nat.add_mod_mod]
    omega
  · have hover : (v + w + (PR + 2)) % 2 ^ 62 = v + w - PR := by omega
    rw [hover, if_neg (by omega), if_pos hge, hsum, hover]

/-- What becomes of a label of value `x` when the wires are `PR + 2` too large. -/
theorem toNat_sumBoo_overfed {x v : ℕ} (hx : 2 ≤ x) (hxv : v + x < PR) :
    (sumBoo (v + x) (BitVec.ofNat 62 (v + (PR + 2)))).toNat = x - 2 := by
  have hPR : PR = 2 ^ 61 - 1 := rfl
  have hsub : (BitVec.ofNat 62 (v + x) - BitVec.ofNat 62 (v + (PR + 2))).toNat = x + PR := by
    rw [BitVec.toNat_sub, BitVec.toNat_ofNat, BitVec.toNat_ofNat]
    omega
  have hmsb := BitVec.msb_eq_decide (BitVec.ofNat 62 (v + x) - BitVec.ofNat 62 (v + (PR + 2)))
  rw [BitVec.msb_eq_getLsbD_last, hsub] at hmsb
  simp only [show 62 - 1 = 61 from rfl] at hmsb
  rw [sumBoo]
  simp only [hmsb, decide_eq_true_eq]
  rw [if_pos (by omega), BitVec.toNat_add, hsub, intBooPr, BitVec.toNat_ofNat, Nat.add_mod_mod]
  omega

namespace Generation

variable {g : Generation P}

/-- The prover feeds `PR + 2` too much for the output `e`, and is honest otherwise. -/
structure Overfed (e : ℕ) (g : Generation P) : Prop where
  /-- The other candidates. -/
  b_eq : ∀ i < P.ell, i ≠ e → g.b i = BitVec.ofNat 62 (g.v (g.npPt + i))
  /-- The output. -/
  b_out : g.b e = BitVec.ofNat 62 (g.v (g.npPt + e) + (PR + 2))
  /-- The words are those of the labels. -/
  openWord_eq : ∀ randPt, ∀ i < P.ell, g.openWord randPt i = g.v (g.npPt + i)
  /-- In the comparisons too. -/
  bucketWord_eq : ∀ randPt < P.ellFaulty, ∀ c ∈ P.buckets g.npPt randPt,
    g.bucketWord randPt c = (g.v c.outFp + g.v c.partnerFp) % PR
  /-- The hashes agreed before. -/
  before_eq : g.sentBefore = g.receivedBefore

theorem Overfed.reduced {e : ℕ} (hg : g.Ok Δ δ) (ho : g.Overfed e) : g.Reduced where
  openWord_lt randPt i hi := ho.openWord_eq randPt i hi ▸ (hg.fp i hi).val_lt
  bucketWord_lt randPt hrand c hc := ho.bucketWord_eq randPt hrand c hc ▸ Nat.mod_lt _ PR_pos

/-- **An output that is `PR + 2` too large is accepted unless it and a partner stay below `PR`**,
the other comparisons being those of honest candidates; no challenge opens it.  A conversion with it
that does not go around turns `x` into `x - 2`, and its MACs agree. -/
theorem overfed_accept_iff (hF : F.Canonical) (hΔ : Δ < PR) (hΔ0 : 0 < Δ) (hδ : δ ≠ 0)
    (hB : 2 ≤ P.B) (hg : g.Ok Δ δ) {e : ℕ} (he : e < P.N) (ho : g.Overfed e) :
    (∀ randPt ≤ (P.B - 1) * P.N, randPt < P.ellFaulty →
      (g.Accepts F Δ δ randPt ↔ ∀ c ∈ P.buckets g.npPt randPt,
        if c.outF2 = e then PR ≤ g.v c.outFp + g.v c.partnerFp
        else g.v c.outFp + g.v c.partnerFp ≠ PR)) ∧
    (∀ s : EdaBits P, s.deltaFp = Δ → s.edabitAt 0 = (g.arithCandidate (g.npPt + e), g.b e) →
      ∀ (X : Label) (x : ℕ), X.Holds Δ x → 2 ≤ x → g.v (g.npPt + e) + x < PR →
        (s.arith2boolHonest F X).2.sent = (s.arith2boolHonest F X).2.recomputed ∧
          (s.arith2boolHonest F X).2.out.toNat = x - 2) := by
  have hell := EdaBitsParams.ell_eq hB
  have hM : P.ellFaulty = (P.B - 1) * P.N + P.C := EdaBitsParams.ellFaulty_eq hB
  constructor
  · intro randPt hcov hrand
    have hopen : ∀ i < P.C,
        g.openWord randPt (P.N + randPt + i) = g.v (g.npPt + (P.N + randPt + i)) ∧
          (g.b (P.N + randPt + i)).toNat = g.v (g.npPt + (P.N + randPt + i)) := fun i hi => by
      refine ⟨ho.openWord_eq _ _ (by omega), ?_⟩
      rw [ho.b_eq _ (by omega) (by omega)]
      exact toNat_ofNat_of_lt (hg.fp _ (by omega)).val_lt
    rw [accepts_iff hF hΔ hΔ0 hδ hB hg (ho.reduced hg) hrand hcov, and_iff_right ho.before_eq,
      and_iff_right hopen]
    refine forall₂_congr fun c hc => ?_
    rw [and_iff_right (ho.bucketWord_eq randPt hrand c hc)]
    obtain ⟨i, t, hi, ht, rfl⟩ := EdaBitsParams.mem_buckets hB hrand hc
    have hv := (hg.fp i (by omega)).val_lt
    have hw := (hg.fp (P.N + t) (by omega)).val_lt
    simp only
    rw [ho.b_eq (P.N + t) (by omega) (by omega)]
    split
    · next hie =>
      subst hie
      rw [ho.b_out, toNat_bucketSum_overfed hv hw]
      split
      · next hge =>
        rw [Nat.mod_eq_sub_mod hge, Nat.mod_eq_of_lt (by omega)]
        exact iff_of_true rfl hge
      · next hlt =>
        rw [Nat.mod_eq_of_lt (not_le.mp hlt)]
        exact iff_of_false (by omega) hlt
    · next hie =>
      rw [ho.b_eq i (by omega) hie]
      exact toNat_bucketSum_iff hv hw
  · intro s hsΔ hs X x hX hx hxv
    have hsum := Auth.intfpAdd hF (hg.fp e (by omega)) hX
    have hval := hsum.val_eq
    rw [Nat.mod_eq_of_lt hxv] at hval
    rw [EdaBits.arith2boolHonest_eq, EdaBits.sumWord, hs, EdaBits.deltaFp_drawn, hsΔ]
    simp only [convertOne, hval, ho.b_out]
    refine ⟨hsum.open_eq hF ?_ (hF.multMod_eq _ _ hxv hΔ), toNat_sumBoo_overfed hx hxv⟩
    rw [Nat.mod_eq_of_lt hxv]

/-- Parameters of three candidates. -/
def three : EdaBitsParams where
  N := 1
  B := 2
  C := 1
  npSz := 3
  N_pos := Nat.one_pos

/-- Labels of three candidates: an output of value `PR - 3`, the others 3. -/
def threeLabels (k : ℕ) : ℕ := if k = 0 then PR - 3 else 3

/-- What is fed: `PR + 2` too much for the output. -/
def threeFed (k : ℕ) : ZKInt62 :=
  if k = 0 then BitVec.ofNat 62 (PR - 3 + (PR + 2)) else BitVec.ofNat 62 3

/-- The two parties, with that output next. -/
def threeState : EdaBits three where
  deltaFp := 1
  arithCandidate := (sample three threeLabels threeFed).arithCandidate
  boolCandidate := threeFed
  npPt := 0
  npRg := 3
  edabitNum := 1
  edabitOffset := 0
  voleDraw _ _ := (Candidate.sample 0 0).fp
  draws := 1
  boolFeed _ := threeFed
  gens := 1

/-- **Both challenges accept it**, and the label 2 becomes 0. -/
theorem overfed_accept_three :
    (∀ randPt ≤ 1, (sample three threeLabels threeFed).Accepts FpOps.residues 1 1 randPt) ∧
      (threeState.arith2boolHonest FpOps.residues (Candidate.sample 2 0).fp).2.out.toNat = 0 := by
  have hv : ∀ k, threeLabels k < PR := fun k => by
    rw [threeLabels]
    split <;> decide +kernel
  have ho : (sample three threeLabels threeFed).Overfed 0 :=
    { b_eq := fun i _ hi => by simp [sample, threeFed, threeLabels, hi]
      b_out := rfl
      openWord_eq := fun _ i _ => congrArg threeLabels (Nat.zero_add i).symm
      bucketWord_eq := fun _ _ _ _ => rfl
      before_eq := rfl }
  obtain ⟨hacc, hconv⟩ := overfed_accept_iff FpOps.residues_canonical (by decide +kernel)
    Nat.one_pos (by decide) (by decide) (sample_ok hv threeFed) (show 0 < three.N by decide) ho
  refine ⟨fun randPt hle => (hacc randPt hle (Nat.lt_succ_of_le hle)).mpr fun c hc => ?_, ?_⟩
  · obtain ⟨e, t, he, -, rfl⟩ := EdaBitsParams.mem_buckets (by decide) (Nat.lt_succ_of_le hle) hc
    obtain rfl : e = 0 := Nat.lt_one_iff.mp he
    show PR ≤ threeLabels 0 + threeLabels (0 + (1 + t))
    rw [threeLabels, threeLabels, if_pos rfl, if_neg (by omega)]
    decide +kernel
  · exact (hconv threeState rfl rfl _ 2 (Candidate.sample_holds (by decide +kernel) 0).fp le_rfl
      (by decide +kernel)).2

end Generation

end VoleZk
