import VoleZk.Mvzk.Check
import VoleZk.Lib.Bytes

/-!
# Fiat–Shamir and the echo

A verifier hashes the packed shares as the prover sends them, and at a check the prover sends the
commitments of all verifiers, of which it compares its own.  The coefficients of the check, and one
challenge point in each round, come from a chain of digests: of the commitments, then of the last
digest and the differences broadcast in the round.  What a verifier received from the prover in the
check goes into a second hash, with the nonces, and the verifiers compare its digests among
themselves.

What the prover and the other verifiers send is arbitrary here.  The hash and the generator are not
in this repository.  A hash with digests of 32 bytes is not injective, and it need not be: what
is used is that the strings that honest verifiers hash do not collide.

## What is here

* `FsConfig`, `fromDigest`, `sampleMany`, `challengeStream`, `challengePoint`;
* `FsVerifier`, what a verifier holds for its next check;
* `FsConfig.verifyAuthTriple` — a check, as far as messages go, and the `Statement` it is about;
* `FsVerifier.hash_run` — the hash holds the shares received since the last check;
* `FsConfig.same_statement` — **honest verifiers never check different statements.**
-/

set_option autoImplicit false

namespace VoleZk.Mvzk

/-- The sizes, and what is not in this repository. -/
structure FsConfig where
  /-- The number of verifiers, a `size_t`. -/
  n : ℕ
  n_lt : n < 2 ^ 64
  /-- `comp`. -/
  comp : Compress (ZMod P59)
  /-- `lagrange`. -/
  lagrange : Lagrange (ZMod P59)
  /-- `Hash`. -/
  hash : List UInt8 → List UInt8
  length_hash : ∀ x, (hash x).length = 32
  /-- `PRG`: word `i` of a call of `random_data`, by the seed and the number of the call. -/
  random : List UInt8 → ℕ → ℕ → ℕ
  /-- A bound on the rejections of `from_digest` and `sample_many`, which have none. -/
  fuel : ℕ

/-- `allNonces`. -/
abbrev Nonces (n : ℕ) : Type := {b : List UInt8 // b.length = 16 * n}

/-- A packed share, as it is received. -/
abbrev PackedShare : Type := {b : List UInt8 // b.length = 8}

namespace FsConfig

variable (C : FsConfig)

/-! ## Challenges -/

/-- `from_digest`, and the digest it leaves. -/
def fromDigest : ℕ → List UInt8 → Option (ℕ × List UInt8)
  | 0, _ => none
  | fuel + 1, dig =>
    let r := Bytes.ofLe (dig.take 8) &&& FP59.mask
    if r < P59 then some (r, dig) else fromDigest fuel (C.hash dig)

/-- The rejections of one entry of `sample_many`, from call `next` of the generator on. -/
def resample (seed : List UInt8) : ℕ → ℕ → ℕ → Option (ℕ × ℕ)
  | 0, _, _ => none
  | fuel + 1, out, next =>
    if P59 ≤ out then resample seed fuel (C.random seed next 0 &&& FP59.mask) (next + 1)
    else some (out, next)

/-- `sample_many`. -/
def sampleMany (seed : List UInt8) (cnt : ℕ) : Option (List ℕ) :=
  ((List.range cnt).foldlM (fun (acc : List ℕ × ℕ) i =>
    (C.resample seed C.fuel (C.random seed 0 i &&& FP59.mask) acc.2).map fun r =>
      (acc.1 ++ [r.1], r.2)) ([], 1)).map Prod.fst

/-- `challenge_stream`. -/
def challengeStream (dig : List UInt8) (dim : ℕ) : Option (List (ZMod P59)) :=
  (C.sampleMany dig dim).map fun raw => raw.map Nat.cast

/-- `challenge_point`, and the digest it leaves; an error at an interpolation point. -/
def challengePoint (dig msg : List UInt8) : Option (ZMod P59 × List UInt8) :=
  (C.fromDigest C.fuel (C.hash (dig ++ msg))).bind fun r =>
    if C.comp.IsInterpolationPoint (r.1 : ZMod P59) then none else some (r.1, r.2)

/-- The challenge points of all rounds. -/
def challengePoints : List UInt8 → List (List UInt8) → Option (List (ZMod P59))
  | _, [] => some []
  | dig, diff :: diffs =>
    (C.challengePoint dig diff).bind fun r => (challengePoints r.2 diffs).map (r.1 :: ·)

/-! ## The messages of a check -/

/-- The rounds of the loop `while (dim > m)`, which `multGatePtr + 1` bounds. -/
def foldRounds (m : ℕ) : ℕ → ℕ → ℕ
  | 0, _ => 0
  | fuel + 1, lenSlice =>
    if lenSlice * m > m then foldRounds m fuel ((lenSlice + m - 1) / m) + 1 else 0

/-- The bytes that are read in each round, the last one included. -/
def diffSizes (m multGatePtr : ℕ) : List ℕ :=
  List.replicate (foldRounds m (multGatePtr + 1) ((multGatePtr + m - 1) / m)) ((2 * m - 2) * 8)
    ++ [(2 * m + 2) * 8]

/-- What a verifier reads from the prover in a check of `multGatePtr` triples. -/
structure Messages (multGatePtr : ℕ) where
  /-- `coms`. -/
  coms : List UInt8
  /-- `diff`, in each round. -/
  diffs : List (List UInt8)
  length_coms : coms.length = 32 * C.n
  length_diffs : diffs.map List.length = diffSizes C.comp.m multGatePtr

/-- Commitment `i`. -/
def comAt (coms : List UInt8) (i : ℕ) : List UInt8 := (coms.drop (32 * i)).take 32

end FsConfig

/-! ## A verifier -/

/-- What a verifier holds for its next check. -/
structure FsVerifier (n : ℕ) where
  /-- What was put into `hash`. -/
  hash : List UInt8
  /-- `allNonces`. -/
  allNonces : Nonces n

/-- What changes it. -/
inductive FsEvent (n : ℕ) where
  /-- `shareBatch` received a packed share. -/
  | shareBatch (s : PackedShare)
  /-- A refill brought new nonces, before a check or in it. -/
  | nonces (allNonces : Nonces n)
  /-- `verifyAuthTriple` took the digest. -/
  | check

namespace FsVerifier

variable {n : ℕ}

/-- One event. -/
def step (v : FsVerifier n) : FsEvent n → FsVerifier n
  | .shareBatch s => { v with hash := v.hash ++ s.1 }
  | .nonces allNonces => { v with allNonces := allNonces }
  | .check => { v with hash := [] }

/-- The start. -/
def init (allNonces : Nonces n) : FsVerifier n := { hash := [], allNonces := allNonces }

/-- The packed shares received since the last check. -/
def received : List (FsEvent n) → List PackedShare :=
  List.foldl (fun shares e => match e with
    | .shareBatch s => shares ++ [s]
    | .nonces _ => shares
    | .check => []) []

/-- What the commitment of verifier `idParty` is the hash of. -/
def comInput (v : FsVerifier n) (idParty : ℕ) : List UInt8 :=
  v.hash ++ v.allNonces.1 ++ Bytes.le 8 idParty

end FsVerifier

/-- What a verifier checks. -/
@[ext]
structure Statement where
  /-- The commitments. -/
  coms : List UInt8
  /-- The nonces. -/
  allNonces : List UInt8
  /-- The coefficients of the triples. -/
  randStream : List (ZMod P59)
  /-- The differences broadcast in each round. -/
  diffs : List (List UInt8)
  /-- The challenge points. -/
  points : List (ZMod P59)

namespace FsConfig

variable (C : FsConfig) {multGatePtr : ℕ}

/-- What `transcript` holds at the end. -/
def echoInput (v : FsVerifier C.n) (msg : C.Messages multGatePtr) : List UInt8 :=
  msg.coms ++ v.allNonces.1 ++ msg.diffs.flatten

/-- `verifyAuthTriple` of verifier `idParty`, as far as messages go: `echoes` is what `echo_check`
receives from the others, and `opens` whether `openAndCheck` succeeds. -/
def verifyAuthTriple (idParty : ℕ) (v : FsVerifier C.n) (msg : C.Messages multGatePtr)
    (echoes : ℕ → List UInt8) (opens : Bool) : Option Statement :=
  if comAt msg.coms idParty = C.hash (v.comInput idParty) then
    let dig := C.hash msg.coms
    let dim := (multGatePtr + C.comp.m - 1) / C.comp.m * C.comp.m
    (C.challengeStream dig dim).bind fun randStream =>
      (C.challengePoints dig msg.diffs).bind fun points =>
        if (points.getLast?.any fun r => C.lagrange.IsInterpolationPoint r) = false
            ∧ (∀ j < C.n, j ≠ idParty → echoes j = C.hash (C.echoInput v msg)) ∧ opens = true then
          some ⟨msg.coms, v.allNonces.1, randStream, msg.diffs, points⟩
        else none
  else none

/-! ## What the hash holds -/

end FsConfig

namespace FsVerifier

variable {n : ℕ}

theorem received_append (es : List (FsEvent n)) (e : FsEvent n) :
    received (es ++ [e]) = match e with
      | .shareBatch s => received es ++ [s]
      | .nonces _ => received es
      | .check => [] := by
  rw [received, List.foldl_append]
  rfl

/-- **At every moment the hash holds the packed shares received since the last check.** -/
theorem hash_run (allNonces : Nonces n) (es : List (FsEvent n)) :
    (es.foldl step (init allNonces)).hash = ((received es).map Subtype.val).flatten := by
  induction es using List.reverseRecOn with
  | nil => rfl
  | append_singleton es e ih =>
    rw [List.foldl_append, List.foldl_cons, List.foldl_nil, received_append]
    cases e with
    | shareBatch s =>
      rw [step, ih, List.map_append, List.flatten_append, List.map_singleton,
        List.flatten_singleton]
    | nonces allNonces => exact ih
    | check => rfl

/-- **What a commitment binds**: the input of the hash determines the shares, the nonces and the
verifier. -/
theorem comInput_inj {shares shares' : List PackedShare} {nonces nonces' : Nonces n} {i j : ℕ}
    (hi : i < 2 ^ 64) (hj : j < 2 ^ 64)
    (h : (shares.map Subtype.val).flatten ++ nonces.1 ++ Bytes.le 8 i
      = (shares'.map Subtype.val).flatten ++ nonces'.1 ++ Bytes.le 8 j) :
    shares = shares' ∧ nonces = nonces' ∧ i = j := by
  obtain ⟨hfront, hid⟩ := List.append_inj' h (by rw [Bytes.length_le, Bytes.length_le])
  obtain ⟨hshares, hnonces⟩ := List.append_inj' hfront (nonces.2.trans nonces'.2.symm)
  exact ⟨Bytes.flatten_inj (by decide) hshares, Subtype.ext hnonces, Bytes.le_inj hi hj hid⟩

end FsVerifier

namespace FsConfig

variable {C : FsConfig} {multGatePtr : ℕ}

theorem verifyAuthTriple_eq_some {idParty : ℕ} {v : FsVerifier C.n} {msg : C.Messages multGatePtr}
    {echoes : ℕ → List UInt8} {opens : Bool} {st : Statement}
    (h : C.verifyAuthTriple idParty v msg echoes opens = some st) :
    comAt msg.coms idParty = C.hash (v.comInput idParty)
    ∧ (∀ j < C.n, j ≠ idParty → echoes j = C.hash (C.echoInput v msg))
    ∧ st.coms = msg.coms ∧ st.allNonces = v.allNonces.1 ∧ st.diffs = msg.diffs
    ∧ C.challengeStream (C.hash msg.coms) ((multGatePtr + C.comp.m - 1) / C.comp.m * C.comp.m)
      = some st.randStream
    ∧ C.challengePoints (C.hash msg.coms) msg.diffs = some st.points := by
  rw [verifyAuthTriple] at h
  split_ifs at h with hcom
  obtain ⟨randStream, hstream, h⟩ := Option.bind_eq_some_iff.mp h
  obtain ⟨points, hpoints, h⟩ := Option.bind_eq_some_iff.mp h
  split_ifs at h with hok
  cases h
  exact ⟨hcom, hok.2.1, rfl, rfl, rfl, hstream, hpoints⟩

/-- The transcript determines its parts. -/
theorem echoInput_inj {v v' : FsVerifier C.n} {msg msg' : C.Messages multGatePtr}
    (h : C.echoInput v msg = C.echoInput v' msg') :
    msg.coms = msg'.coms ∧ v.allNonces = v'.allNonces ∧ msg.diffs = msg'.diffs := by
  rw [echoInput, echoInput, List.append_assoc, List.append_assoc] at h
  obtain ⟨hcoms, hrest⟩ := List.append_inj h (msg.length_coms.trans msg'.length_coms.symm)
  obtain ⟨hnonces, hdiffs⟩ := List.append_inj hrest (v.allNonces.2.trans v'.allNonces.2.symm)
  exact ⟨hcoms, Subtype.ext hnonces,
    List.eq_iff_flatten_eq.mpr ⟨hdiffs, msg.length_diffs.trans msg'.length_diffs.symm⟩⟩

/-- **Honest verifiers never check different statements.**  `history i` is what verifier `i` went
through before the check; what it reads from the prover, and the digests of verifiers that are not
honest, are arbitrary; the number of triples is the program's.  If no honest verifier aborts, then
they all checked one statement, and commitment `i` of it binds the packed shares that verifier `i`
received since the last check, the nonces of the statement, and `i`. -/
theorem same_statement (C : FsConfig) {multGatePtr : ℕ} (honest : Finset ℕ)
    (hhonest : ∀ i ∈ honest, i < C.n) (allNonces : ℕ → Nonces C.n)
    (history : ℕ → List (FsEvent C.n)) {v : ℕ → FsVerifier C.n}
    (hv : ∀ i, v i = (history i).foldl FsVerifier.step (FsVerifier.init (allNonces i)))
    (msg : ℕ → C.Messages multGatePtr) (echoes : ℕ → ℕ → List UInt8) (opens : ℕ → Bool)
    (hechoes : ∀ i ∈ honest, ∀ j ∈ honest, j ≠ i →
      echoes i j = C.hash (C.echoInput (v j) (msg j)))
    (hashed : Set (List UInt8)) (hinj : hashed.InjOn C.hash)
    (hecho : ∀ i ∈ honest, C.echoInput (v i) (msg i) ∈ hashed)
    (hcom : ∀ i ∈ honest, (v i).comInput i ∈ hashed) (st : ℕ → Statement)
    (hst : ∀ i ∈ honest,
      C.verifyAuthTriple i (v i) (msg i) (echoes i) (opens i) = some (st i)) :
    (∀ i ∈ honest, ∀ j ∈ honest, st i = st j)
    ∧ ∀ i ∈ honest, ∀ (shares : List PackedShare) (nonces : Nonces C.n), ∀ id < 2 ^ 64,
        (shares.map Subtype.val).flatten ++ nonces.1 ++ Bytes.le 8 id ∈ hashed →
        (C.hash ((shares.map Subtype.val).flatten ++ nonces.1 ++ Bytes.le 8 id)
            = comAt (st i).coms i
          ↔ shares = FsVerifier.received (history i) ∧ nonces.1 = (st i).allNonces ∧ id = i) := by
  refine ⟨fun i hi j hj => ?_, fun i hi shares nonces id hid hmem => ?_⟩
  · obtain ⟨-, heq, hcoms, hnonces, hdiffs, hstream, hpoints⟩ := verifyAuthTriple_eq_some (hst i hi)
    obtain ⟨-, -, hcoms', hnonces', hdiffs', hstream', hpoints'⟩ :=
      verifyAuthTriple_eq_some (hst j hj)
    by_cases hij : j = i
    · rw [hij]
    · have hdig := (heq j (hhonest j hj) hij).symm.trans (hechoes i hi j hj hij)
      obtain ⟨hc, hn, hd⟩ := echoInput_inj (hinj (hecho i hi) (hecho j hj) hdig)
      rw [hc] at hstream hpoints
      rw [hd] at hpoints
      have hrand := Option.some_inj.mp (hstream.symm.trans hstream')
      have hpts := Option.some_inj.mp (hpoints.symm.trans hpoints')
      exact Statement.ext (hcoms.trans (hc.trans hcoms'.symm))
        (hnonces.trans ((congrArg Subtype.val hn).trans hnonces'.symm)) hrand
        (hdiffs.trans (hd.trans hdiffs'.symm)) hpts
  · obtain ⟨hown, -, hcoms, hnonces, -⟩ := verifyAuthTriple_eq_some (hst i hi)
    have hinput : (v i).comInput i = ((FsVerifier.received (history i)).map Subtype.val).flatten
        ++ (v i).allNonces.1 ++ Bytes.le 8 i := by
      rw [FsVerifier.comInput, hv i, FsVerifier.hash_run]
    rw [hcoms, hown, hinput, hnonces]
    have hmem' := hcom i hi
    rw [hinput] at hmem'
    constructor
    · intro h
      obtain ⟨hs, hn, hid'⟩ := FsVerifier.comInput_inj hid ((hhonest i hi).trans C.n_lt)
        (hinj hmem hmem' h)
      exact ⟨hs, congrArg Subtype.val hn, hid'⟩
    · rintro ⟨rfl, hn, rfl⟩
      rw [hn]

/-! ### Two verifiers -/

/-- A hash that tells apart strings with different first bytes or lengths. -/
def shortHash (x : List UInt8) : List UInt8 :=
  UInt8.ofNat x.length :: x.headD 0 :: List.replicate 30 7

/-- Two verifiers, and checks with slices of two entries. -/
def twoVerifiers : FsConfig where
  n := 2
  n_lt := by decide
  comp :=
    let ntt : Ntt (ZMod P59) :=
      { logDim := 0, invDim := 1, unityRootPowers := fun _ => 1, invUnityRootPowers := fun _ => 1 }
    { m := 2
      poly := { logK := 0, logN := 1, unityRoot2K := -1, unityRoot2N := 1, nttKNaive := ntt,
                nttNNaive := ntt, fpGenPowers := fun _ => 1 }
      lagCoeffDivLow := fun _ => 1
      lagCoeffDivHigh := fun _ => 1 }
  lagrange :=
    { n := 2, lagrangeTable := fun _ _ => 1, lagCoeffDivLow := fun _ => 1,
      lagCoeffDivHigh := fun _ => 1 }
  hash := shortHash
  length_hash x := rfl
  random seed call i := Bytes.ofLe (seed.take 4) + call + i
  fuel := 1

/-- Both receive a packed share and a refill's nonces. -/
def twoHistories (i : ℕ) : List (FsEvent 2) :=
  [.shareBatch ⟨List.replicate 8 (UInt8.ofNat i), List.length_replicate⟩,
    .nonces ⟨List.replicate 32 5, List.length_replicate⟩]

/-- What they hold. -/
def twoHold (i : ℕ) : FsVerifier 2 :=
  (twoHistories i).foldl FsVerifier.step
    (FsVerifier.init ⟨List.replicate 32 0, List.length_replicate⟩)

/-- The messages of a check of one triple. -/
def twoMessages : twoVerifiers.Messages 1 where
  coms := shortHash ((twoHold 0).comInput 0) ++ shortHash ((twoHold 1).comInput 1)
  diffs := [List.replicate 48 9]
  length_coms := rfl
  length_diffs := by decide

/-- The check of each. -/
def twoChecks (i : ℕ) : Option Statement :=
  twoVerifiers.verifyAuthTriple i (twoHold i) twoMessages
    (fun j => shortHash (twoVerifiers.echoInput (twoHold j) twoMessages)) true

theorem twoChecks_isSome : ∀ i ∈ Finset.range 2, (twoChecks i).isSome = true := by decide +kernel

/-- The strings they hash. -/
def twoHashed : List (List UInt8) :=
  [twoVerifiers.echoInput (twoHold 0) twoMessages, twoVerifiers.echoInput (twoHold 1) twoMessages,
    (twoHold 0).comInput 0, (twoHold 1).comInput 1]

theorem same_statement_two :
    (twoChecks 0).getD ⟨[], [], [], [], []⟩ = (twoChecks 1).getD ⟨[], [], [], [], []⟩ :=
  (same_statement twoVerifiers (Finset.range 2) (fun i hi => Finset.mem_range.mp hi)
    (fun _ => ⟨List.replicate 32 0, List.length_replicate⟩) twoHistories (fun i => rfl)
    (fun _ => twoMessages) (fun _ j => shortHash (twoVerifiers.echoInput (twoHold j) twoMessages))
    (fun _ => true) (fun i _ j _ _ => rfl) {x | x ∈ twoHashed}
    (by
      intro x hx y hy
      have hall : ∀ x ∈ twoHashed, ∀ y ∈ twoHashed, shortHash x = shortHash y → x = y := by
        decide +kernel
      exact hall x hx y hy)
    (by decide +kernel) (by decide +kernel)
    (fun i => (twoChecks i).getD ⟨[], [], [], [], []⟩)
    (fun i hi => by
      obtain ⟨st, hst⟩ := Option.isSome_iff_exists.mp (twoChecks_isSome i hi)
      show twoChecks i = _
      rw [hst, Option.getD_some])).1 0 (by decide) 1 (by decide)

end FsConfig

end VoleZk.Mvzk
