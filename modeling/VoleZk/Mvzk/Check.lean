import VoleZk.Mvzk.Compress
import VoleZk.Mvzk.Share

/-!
# The multiplication check

`verifyAuthTriple` reduces the recorded triples to one inner product with random coefficients,
folds it by a factor `m` until `m` entries are left, and turns these into one triple that the
verifiers open.  The prover works on values, every verifier on its shares of them, with the same
coefficients: an array is one `CheckState` over the type of its entries, which keeps the values and
the MAC-and-key pairs of a verifier together.  At the head of the folding loop `dim` is
`len_slice * m`, and the arrays are padded with zeros up to it.

Values that the prover has to share are sent as differences to preprocessed sharings.  The prover
computes `h` at the last base point from `z`, the verifiers at the first.

## What is here

* `CheckState`, its random combination, a fold, and the last round;
* `Prover.polyH`, `Verifier.polyH`, and the same for the last round;
* `PreAuth`, `Prover.genAddSharesDiff`, `Verifier.genAddSharesFromDiff`;
* `CheckSession.round`, `foldLoop`, `verifyAuthTriple` — **the check, run by all parties**;
* `openAndCheck`.
-/

set_option autoImplicit false

open Finset

namespace VoleZk.Mvzk

/-! ## Arrays -/

/-- The arrays of the check: the entries of the inner product, and the claimed value. -/
structure CheckState (V : Type*) where
  /-- `len_slice`. -/
  lenSlice : ℕ
  /-- `val_x`. -/
  valX : ℕ → V
  /-- `val_y`. -/
  valY : ℕ → V
  /-- `val_z`. -/
  valZ : V

/-- A triple. -/
structure Triple (V : Type*) where
  /-- `x`. -/
  x : V
  /-- `y`. -/
  y : V
  /-- `z`. -/
  z : V

namespace CheckState

variable {F V : Type*} [Field F] [AddCommGroup V] [Module F V]

/-- The random linear combination of the recorded triples. -/
def combine (m multGatePtr : ℕ) (left right out : ℕ → V) (randStream : ℕ → F) : CheckState V where
  lenSlice := (multGatePtr + m - 1) / m
  valX i := if i < multGatePtr then randStream i • left i else 0
  valY i := if i < multGatePtr then right i else 0
  valZ := ∑ i ∈ range multGatePtr, randStream i • out i

/-- A fold, with the coefficients for the base points and for all points. -/
def fold (m : ℕ) (polyH : ℕ → V) (lag : (ℕ → F) × (ℕ → F)) (st : CheckState V) : CheckState V where
  lenSlice := (st.lenSlice + m - 1) / m
  valX j :=
    if j < st.lenSlice then ∑ i ∈ range m, lag.1 i • st.valX (i * st.lenSlice + j) else 0
  valY j :=
    if j < st.lenSlice then ∑ i ∈ range m, lag.1 i • st.valY (i * st.lenSlice + j) else 0
  valZ := ∑ i ∈ range (2 * m - 1), lag.2 i • polyH i

/-- An array with one more entry. -/
def withEntry (m : ℕ) (val : ℕ → V) (v : V) (i : ℕ) : V := if i = m then v else val i

/-- The last round, with the pair that masks the opening. -/
def lastRound (m : ℕ) (polyH : ℕ → V) (lag : (ℕ → F) × (ℕ → F)) (xm ym : V) (st : CheckState V) :
    Triple V where
  x := ∑ i ∈ range (m + 1), lag.1 i • withEntry m st.valX xm i
  y := ∑ i ∈ range (m + 1), lag.1 i • withEntry m st.valY ym i
  z := ∑ i ∈ range (2 * m + 1), lag.2 i • polyH i

end CheckState

/-! ## The values of `h` -/

section PolyH

variable {F V : Type*} [Field F] [AddCommGroup V]

namespace Prover

/-- The products of slice `i`. -/
def sliceProd (st : CheckState F) (i : ℕ) : F :=
  ∑ j ∈ range st.lenSlice, st.valX (i * st.lenSlice + j) * st.valY (i * st.lenSlice + j)

/-- `poly_h` of a folding round: the products at the base points but the last, what is left of `z`
at the last one, and the products of the extended slices at the shifted points. -/
def polyH (comp : Compress F) (st : CheckState F) (i : ℕ) : F :=
  let m := comp.m
  if i + 1 < m then sliceProd st i
  else if i + 1 = m then st.valZ - ∑ l ∈ range (m - 1), sliceProd st l
  else
    ∑ l ∈ range st.lenSlice,
      comp.poly.nttEvalN2N (fun j => st.valX (l + j * st.lenSlice)) (i - m)
        * comp.poly.nttEvalN2N (fun j => st.valY (l + j * st.lenSlice)) (i - m)

/-- `poly_h` of the last round, of arrays with `m + 1` entries. -/
def lastPolyH (lag : Lagrange F) (m : ℕ) (valX valY : ℕ → F) (valZ : F) (i : ℕ) : F :=
  if i + 1 < m then valX i * valY i
  else if i + 1 = m then valZ - ∑ l ∈ range (m - 1), valX l * valY l
  else if i = m then valX m * valY m
  else lag.lagrangeEvalShiftPoints valX (i - m - 1) * lag.lagrangeEvalShiftPoints valY (i - m - 1)

end Prover

/-- `poly_h` of a verifier, in the folding rounds and in the last one: what is left of `z` at the
first point, and what was received at the others. -/
def Verifier.polyH (m : ℕ) (valZ : V) (received : ℕ → V) (i : ℕ) : V :=
  if i = 0 then valZ - ∑ l ∈ range (m - 1), received l else received (i - 1)

end PolyH

/-! ## Preprocessed sharings -/

/-- `preAuthSharingNum`. -/
def preAuthSharingNum : ℕ := 2 ^ 16

/-- How far a party has used up the preprocessed sharings. -/
structure PreAuth where
  /-- The number of refills. -/
  refills : ℕ
  /-- `preAuthSharingPtr`, in packed sharings. -/
  ptr : ℕ
  deriving DecidableEq

/-- `ensurePreAuth`. -/
def PreAuth.ensure (num : ℕ) (p : PreAuth) : PreAuth :=
  if p.ptr + num > preAuthSharingNum then { refills := p.refills + 1, ptr := 0 } else p

section Broadcast

variable {F : Type*} [Field F] (k : ℕ)

/-- `Prover::genAddSharesDiff`: the differences of `len` values to the sharings of a refill. -/
def Prover.genAddSharesDiff (preAuthSharing : ℕ → ℕ → F) (vals : ℕ → F) (len : ℕ) (p : PreAuth) :
    (ℕ → F) × PreAuth :=
  let nBatch := (len + k - 1) / k
  let p := p.ensure nBatch
  (fun i => vals i - preAuthSharing p.refills (k * p.ptr + i), { p with ptr := p.ptr + nBatch })

/-- `Verifier::genAddSharesFromDiff`: verifier 0 adds the difference, every verifier lowers its
key. -/
def Verifier.genAddSharesFromDiff (idParty : ℕ) (delta : F) (preAuthSharing : ℕ → ℕ → AuthShare F)
    (diff : ℕ → F) (len : ℕ) (p : PreAuth) : (ℕ → AuthShare F) × PreAuth :=
  let nBatch := (len + k - 1) / k
  let p := p.ensure nBatch
  (fun i =>
      let pre := preAuthSharing p.refills (k * p.ptr + i)
      { mac := pre.mac
        key := pre.key - diff i * delta
        share := if idParty = 0 then diff i + pre.share else pre.share },
    { p with ptr := p.ptr + nBatch })

end Broadcast

/-! ## All parties -/

/-- What the parties hold before the check, and its randomness. -/
structure CheckConfig (F : Type*) where
  /-- The number of verifiers. -/
  n : ℕ
  /-- The number of values in a packed sharing. -/
  k : ℕ
  /-- `comp`. -/
  comp : Compress F
  /-- `lagrange`. -/
  lagrange : Lagrange F
  /-- The keys of the verifiers. -/
  delta : ℕ → F
  /-- The preprocessed secrets of the prover, by refill. -/
  preAuthSharing : ℕ → ℕ → F
  /-- The preprocessed shares of each verifier, by refill. -/
  preAuthShares : ℕ → ℕ → ℕ → AuthShare F
  /-- `challenge_stream`. -/
  randStream : ℕ → F
  /-- `challenge_point` of each round, the last included. -/
  challenge : ℕ → F
  /-- The pair the prover draws. -/
  mask : F × F

/-- `len` values fit the sharings of a refill.  Otherwise every party reads past its arrays. -/
def CheckConfig.Fits {F : Type*} (C : CheckConfig F) (len : ℕ) : Prop :=
  (len + C.k - 1) / C.k ≤ preAuthSharingNum

instance {F : Type*} (C : CheckConfig F) (len : ℕ) : Decidable (C.Fits len) :=
  inferInstanceAs (Decidable ((len + C.k - 1) / C.k ≤ preAuthSharingNum))

/-- The parties between two rounds. -/
structure CheckSession (F : Type*) where
  /-- The arrays of the prover. -/
  prover : CheckState F
  /-- The preprocessed sharings of the prover. -/
  proverPre : PreAuth
  /-- The arrays of each verifier. -/
  verifier : ℕ → CheckState (AuthShare F)
  /-- The preprocessed sharings of each verifier. -/
  verifierPre : ℕ → PreAuth
  /-- The number of challenge points so far. -/
  rounds : ℕ

/-- The opened triple, as the parties hold it. -/
structure CheckResult (F : Type*) where
  /-- `(x, y, z)` of the prover. -/
  prover : Triple F
  /-- The preprocessed sharings of the prover. -/
  proverPre : PreAuth
  /-- The shares of each verifier. -/
  verifier : ℕ → Triple (AuthShare F)
  /-- The preprocessed sharings of each verifier. -/
  verifierPre : ℕ → PreAuth

namespace CheckSession

variable {F : Type*} [Field F] (C : CheckConfig F)

/-- The recorded triples of the prover, and of each verifier, combined. -/
def start (multGatePtr : ℕ) (triples : ℕ → Triple F) (shares : ℕ → ℕ → Triple (AuthShare F))
    (proverPre : PreAuth) (verifierPre : ℕ → PreAuth) : CheckSession F where
  prover := .combine C.comp.m multGatePtr (fun j => (triples j).x) (fun j => (triples j).y)
    (fun j => (triples j).z) C.randStream
  proverPre := proverPre
  verifier i := .combine C.comp.m multGatePtr (fun j => (shares i j).x) (fun j => (shares i j).y)
    (fun j => (shares i j).z) C.randStream
  verifierPre := verifierPre
  rounds := 0

/-- What verifier `i` makes of `len` differences: it refills before it reads them. -/
def receive (s : CheckSession F) (i len : ℕ) (diff : ℕ → F) : (ℕ → AuthShare F) × PreAuth :=
  Verifier.genAddSharesFromDiff C.k i (C.delta i) (C.preAuthShares i) diff len
    ((s.verifierPre i).ensure ((len + C.k - 1) / C.k))

variable [DecidableEq F]

/-- A folding round; an error if the values do not fit, or if the challenge hits an interpolation
point. -/
def round (s : CheckSession F) : Option (CheckSession F) :=
  let m := C.comp.m
  let polyH := Prover.polyH C.comp s.prover
  let sent := Prover.genAddSharesDiff C.k C.preAuthSharing (fun i => polyH (i + 1)) (2 * m - 2)
    s.proverPre
  let r := C.challenge s.rounds
  if ¬ C.Fits (2 * m - 2) ∨ C.comp.IsInterpolationPoint r then none
  else
    let lag := C.comp.computeLagCoeff r
    some
      { prover := s.prover.fold m polyH lag
        proverPre := sent.2
        verifier := fun i => (s.verifier i).fold m
          (Verifier.polyH m (s.verifier i).valZ (s.receive C i (2 * m - 2) sent.1).1) lag
        verifierPre := fun i => (s.receive C i (2 * m - 2) sent.1).2
        rounds := s.rounds + 1 }

/-- `while (dim > m)`, for at most `fuel` rounds.  A party that leaves the loop while another does
not would wait for it. -/
def foldLoop (s : CheckSession F) : ℕ → Option (CheckSession F)
  | 0 => none
  | fuel + 1 =>
    let more (lenSlice : ℕ) : Prop := lenSlice * C.comp.m > C.comp.m
    if more s.prover.lenSlice ∧ ∀ i < C.n, more (s.verifier i).lenSlice then
      (round C s).bind fun s => foldLoop s fuel
    else if more s.prover.lenSlice ∨ ∃ i < C.n, more (s.verifier i).lenSlice then none
    else some s

/-- The last round.  The prover shares `2m` values of `h` and its pair; the challenge may hit the
interpolation points neither of the folding rounds nor of the last one. -/
def lastRound (s : CheckSession F) : Option (CheckResult F) :=
  let m := C.comp.m
  let valX := CheckState.withEntry m s.prover.valX C.mask.1
  let valY := CheckState.withEntry m s.prover.valY C.mask.2
  let polyH := Prover.lastPolyH C.lagrange m valX valY s.prover.valZ
  let sent := Prover.genAddSharesDiff C.k C.preAuthSharing
    (fun i => if i < 2 * m then polyH (i + 1) else if i = 2 * m then valX m else valY m)
    (2 * m + 2) s.proverPre
  let r := C.challenge s.rounds
  if ¬ C.Fits (2 * m + 2) ∨ C.comp.IsInterpolationPoint r ∨ C.lagrange.IsInterpolationPoint r then
    none
  else
    let lag := C.lagrange.computeLagCoeff r
    some
      { prover := s.prover.lastRound m polyH lag C.mask.1 C.mask.2
        proverPre := sent.2
        verifier := fun i =>
          let received := (s.receive C i (2 * m + 2) sent.1).1
          (s.verifier i).lastRound m (Verifier.polyH m (s.verifier i).valZ received) lag
            (received (2 * m)) (received (2 * m + 1))
        verifierPre := fun i => (s.receive C i (2 * m + 2) sent.1).2 }

end CheckSession

section Check

variable {F : Type*} [Field F] [DecidableEq F] (C : CheckConfig F)

/-- `verifyAuthTriple`, up to the opening.  A round leaves fewer entries, so that their number
bounds the rounds. -/
def verifyAuthTriple (multGatePtr : ℕ) (triples : ℕ → Triple F)
    (shares : ℕ → ℕ → Triple (AuthShare F)) (proverPre : PreAuth) (verifierPre : ℕ → PreAuth) :
    Option (CheckResult F) :=
  let s := CheckSession.start C multGatePtr triples shares proverPre verifierPre
  (s.foldLoop C (multGatePtr + 1)).bind (CheckSession.lastRound C)

/-- The prover's own check at the end. -/
def localCheck (t : Triple F) : Bool := t.z = t.x * t.y

/-- `zero_shares`, verifier `i`: what the others deal to it, less what it deals to them. -/
def dealtZero (n : ℕ) (deal : ℕ → ℕ → F) (i : ℕ) : F :=
  ∑ j ∈ (range n).erase i, deal j i - ∑ j ∈ (range n).erase i, deal i j

/-- `openAndCheck` of the verifiers: the opened values, the masked MAC check of each, and the
product. -/
def openAndCheck (n : ℕ) (delta : ℕ → F) (deal : ℕ → ℕ → ℕ → F)
    (sh : ℕ → Triple (AuthShare F)) : Bool :=
  let opened (c : Triple (AuthShare F) → AuthShare F) : F := ∑ i ∈ range n, (c (sh i)).share
  let o (c : Triple (AuthShare F) → AuthShare F) (i : ℕ) : F :=
    (c (sh i)).mac - (c (sh i)).key - opened c * delta i
  let sum (c : Triple (AuthShare F) → AuthShare F) (l : ℕ) : F :=
    ∑ i ∈ range n, (o c i + dealtZero n (deal l) i)
  (sum Triple.x 0 = 0 ∧ sum Triple.y 1 = 0 ∧ sum Triple.z 2 = 0) ∧
    opened Triple.z = opened Triple.x * opened Triple.y

end Check

end VoleZk.Mvzk
