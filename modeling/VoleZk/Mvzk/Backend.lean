import VoleZk.Mvzk.Check
import VoleZk.Mvzk.Secrecy

/-!
# The backend of the multi-verifier engine

The prover and the verifiers run the same gates.  A wire waits until `k` of them are there, or until
a flush; then the prover sends every verifier one field element, a packed share of the differences
of the `k` values to a preprocessed sharing, and every verifier makes its shares of all `k` wires
from it.  The prover records a multiplication when the gate is issued, a verifier when the packed
share with the product has arrived, and both run the multiplication check at the end of a batch or
of the session, once enough triples are there.

Preprocessed sharings come from VOLE correlations, `preAuthSharingNum` at a time; a party that has
used up its correlations runs a VOLE extension and renews the nonces.  What the parties say to each
other then, and what the check computes, is left out here: a message says what it is about, and for
the check how many field elements it has.

What a wire is, and what is done with its share, differs between the users of the backend: the type
`W` of the wires, the memory `M` and the function `fill` are parameters.

## What is here

* `BackendConfig`, `Auth`, `Auth.randAuthVal`, `PreAuthSharing`;
* `Msg`, the messages from the prover to a verifier;
* `ProverState` and `Prover.share`, `shareFlush`, `mult`, `multFlush`;
* `VerifierState` and `Verifier.share`, `shareFlush`, `multFlush`.
-/

set_option autoImplicit false

open Finset

namespace VoleZk.Mvzk

/-! ## The session -/

/-- `compressParam`. -/
def compressParam : ℕ := 2 ^ 4

/-- `multGateBufSz`. -/
def multGateBufSz : ℕ := 2 ^ 18

/-- What `MvzkBackend::param` sets up, and the correlations of every VOLE extension. -/
structure BackendConfig (F : Type*) where
  /-- `poly`. -/
  poly : Poly F
  /-- Its tables. -/
  tab : LagrangeTables F
  /-- `usable`, the correlations of an extension. -/
  usable : ℕ
  /-- An extension has correlations. -/
  usable_pos : 0 < usable
  /-- The keys of the verifiers. -/
  delta : ℕ → F
  /-- `u^i`, by extension, verifier and position. -/
  secrets : ℕ → ℕ → ℕ → F
  /-- `M^i_j`, by extension, `i`, `j` and position. -/
  macs : ℕ → ℕ → ℕ → ℕ → F
  /-- `K^i_j`, by extension, `i`, `j` and position. -/
  keys : ℕ → ℕ → ℕ → ℕ → F
  /-- What the generator of a verifier returned in `shareMacKey`, by slot and index. -/
  rand : ℕ → ℕ → ℕ → F

/-! ## Preprocessed sharings -/

/-- How far a party has used up its correlations. -/
@[ext] structure Auth (usable : ℕ) where
  /-- `ptr`. -/
  ptr : ℕ
  /-- `extendCount`. -/
  extendCount : ℕ
  /-- The position lies within the extension. -/
  ptr_le : ptr ≤ usable

namespace Auth

variable {usable : ℕ}

/-- The constructor: the first sharing needs an extension. -/
def init (usable : ℕ) : Auth usable := { ptr := usable, extendCount := 0, ptr_le := le_rfl }

/-- `refill`. -/
def refill (a : Auth usable) : Auth usable :=
  { ptr := 0, extendCount := a.extendCount + 1, ptr_le := Nat.zero_le _ }

/-- A new extension if the last one is used up. -/
def ensure (a : Auth usable) : Auth usable := if a.ptr = usable then a.refill else a

theorem ensure_ptr_lt (hpos : 0 < usable) (a : Auth usable) : a.ensure.ptr < usable := by
  rw [ensure]
  split
  · exact hpos
  · rename_i hne
    exact lt_of_le_of_ne a.ptr_le hne

/-- The loop of `randAuthVal` once `done` of `num` packed sharings are there: for each, the
extension and the position of its correlation. -/
def randAuthVal (hpos : 0 < usable) (num done : ℕ) (source : ℕ → ℕ × ℕ) (a : Auth usable) :
    (ℕ → ℕ × ℕ) × Auth usable :=
  if _hdone : done < num then
    let b := a.ensure
    let take := min (num - done) (usable - b.ptr)
    randAuthVal hpos num (done + take)
      (fun d =>
        if done ≤ d ∧ d < done + take then (b.extendCount, b.ptr + (d - done)) else source d)
      { ptr := b.ptr + take
        extendCount := b.extendCount
        ptr_le := by
          have := b.ptr_le
          omega }
  else (source, a)
termination_by num - done
decreasing_by
  have := a.ensure_ptr_lt hpos
  omega

end Auth

/-- The preprocessed sharings of a party, by the correlations they come from. -/
@[ext] structure PreAuthSharing (usable : ℕ) where
  /-- `auth`. -/
  auth : Auth usable
  /-- The extension and the position of each packed sharing. -/
  source : ℕ → ℕ × ℕ
  /-- `preAuthSharingPtr`. -/
  ptr : ℕ

namespace PreAuthSharing

variable {usable : ℕ}

/-- The constructors: nothing is preprocessed. -/
def init (usable : ℕ) : PreAuthSharing usable :=
  { auth := .init usable, source := fun _ => (0, 0), ptr := preAuthSharingNum }

/-- `ensurePreAuth`. -/
def ensure (hpos : 0 < usable) (num : ℕ) (s : PreAuthSharing usable) : PreAuthSharing usable :=
  if s.ptr + num > preAuthSharingNum then
    let r := s.auth.randAuthVal hpos preAuthSharingNum 0 s.source
    { auth := r.2, source := r.1, ptr := 0 }
  else s

/-- The extensions between two states. -/
def extensions (s s' : PreAuthSharing usable) : ℕ := s'.auth.extendCount - s.auth.extendCount

/-- Packed sharings that were used. -/
def advance (num : ℕ) (s : PreAuthSharing usable) : PreAuthSharing usable :=
  { s with ptr := s.ptr + num }

end PreAuthSharing

/-! ## Messages -/

/-- A message from the prover to a verifier. -/
inductive Msg (F : Type*) where
  /-- What a VOLE extension and the nonces after it take. -/
  | extend
  /-- The packed share of a batch. -/
  | share (s : F)
  /-- The commitments of the check. -/
  | coms (cnt : ℕ)
  /-- The differences of a round of the check. -/
  | diff (len : ℕ)
  /-- Opened values. -/
  | reveal (vals : List F)

namespace Msg

variable {F : Type*}

/-- Takes part in extensions. -/
def recvExtend : ℕ → List (Msg F) → Option (List (Msg F))
  | 0, queue => some queue
  | cnt + 1, .extend :: queue => recvExtend cnt queue
  | _ + 1, _ => none

/-- Receives a packed share. -/
def recvShare : List (Msg F) → Option (F × List (Msg F))
  | .share s :: queue => some (s, queue)
  | _ => none

/-- Receives `cnt` blocks of commitments. -/
def recvComs (cnt : ℕ) : List (Msg F) → Option (List (Msg F))
  | .coms cnt' :: queue => if cnt' = cnt then some queue else none
  | _ => none

/-- Receives `len` differences. -/
def recvDiff (len : ℕ) : List (Msg F) → Option (List (Msg F))
  | .diff len' :: queue => if len' = len then some queue else none
  | _ => none

/-- `reveal_recv` of `len` values. -/
def recvReveal (len : ℕ) : List (Msg F) → Option (List F × List (Msg F))
  | .reveal vals :: queue => if vals.length = len then some (vals, queue) else none
  | _ => none

end Msg

/-! ## The multiplication check -/

/-- The numbers of values that the folding rounds share, for `lenSlice` slices. -/
def foldLens (lenSlice : ℕ) : List ℕ :=
  if lenSlice * compressParam > compressParam then
    (2 * compressParam - 2) :: foldLens ((lenSlice + compressParam - 1) / compressParam)
  else []
termination_by lenSlice
decreasing_by
  rename_i hmore
  rw [compressParam] at hmore ⊢
  omega

/-- The numbers of values that the check of `multGatePtr` triples shares. -/
def checkLens (multGatePtr : ℕ) : List ℕ :=
  foldLens ((multGatePtr + compressParam - 1) / compressParam) ++ [2 * compressParam + 2]

section Parties

variable {F W M : Type*} [Field F]

/-! ## The prover -/

/-- The prover. -/
structure ProverState (F W : Type*) (usable : ℕ) where
  /-- `preAuthSharing`, `preAuthSharingPtr`. -/
  pre : PreAuthSharing usable
  /-- `wiresVal`, up to `wiresValPtr`. -/
  wiresVal : List F
  /-- The recorded triples, up to `multGatePtr`, with the wires of their products. -/
  multGate : List (W × Triple F)
  /-- `batchesDone`. -/
  batchesDone : ℕ
  /-- The checks so far: after which batch, and of which gates. -/
  checks : List (ℕ × List W)

namespace Prover

variable (C : BackendConfig F)

/-- The constructor. -/
def init (usable : ℕ) : ProverState F W usable :=
  { pre := .init usable, wiresVal := [], multGate := [], batchesDone := 0, checks := [] }

/-- `randAuthVal` of the prover: the secret of a slot, from a correlation. -/
def randAuthVal (source : ℕ × ℕ) (slot : ℕ) : F :=
  C.poly.nttEvalN2K (fun i => C.secrets source.1 i source.2) slot

/-- `ensurePreAuth`. -/
def ensurePreAuth (num : ℕ) (pre : PreAuthSharing C.usable) :
    PreAuthSharing C.usable × List (ℕ → Msg F) :=
  let pre' := pre.ensure C.usable_pos num
  (pre', List.replicate (pre.extensions pre') fun _ => .extend)

/-- The rounds of the check: `genAddSharesDiff` of `len` values, sent to every verifier. -/
def sendDiffs : List ℕ → PreAuthSharing C.usable → PreAuthSharing C.usable × List (ℕ → Msg F)
  | [], pre => (pre, [])
  | len :: lens, pre =>
    let nBatch := (len + C.poly.k - 1) / C.poly.k
    let e := ensurePreAuth C nBatch pre
    let r := sendDiffs lens (e.1.advance nBatch)
    (r.1, e.2 ++ (fun _ => .diff len) :: r.2)

/-- `verifyAuthTriple`. -/
def verifyAuthTriple (p : ProverState F W C.usable) :
    ProverState F W C.usable × List (ℕ → Msg F) :=
  let r := sendDiffs C (checkLens p.multGate.length) p.pre
  ({ p with
      pre := r.1
      multGate := []
      checks := p.checks ++ [(p.batchesDone, p.multGate.map Prod.fst)] },
    (fun _ => .coms (2 * C.poly.n)) :: r.2)

/-- The check at the end of a batch. -/
def checkIfFull (p : ProverState F W C.usable) : ProverState F W C.usable × List (ℕ → Msg F) :=
  if p.multGate.length ≥ multGateBufSz then verifyAuthTriple C p else (p, [])

/-- The packed shares of a batch, one for every verifier.  Wires that are not there are 0. -/
def packedShares (p : ProverState F W C.usable) : ℕ → F :=
  let pre := p.pre.ensure C.usable_pos 1
  C.poly.nttEvalK2N fun i => p.wiresVal.getD i 0 - randAuthVal C (pre.source pre.ptr) i

/-- `shareBatch`. -/
def shareBatch (p : ProverState F W C.usable) : ProverState F W C.usable × List (ℕ → Msg F) :=
  let e := ensurePreAuth C 1 p.pre
  let shares := packedShares C p
  let r := checkIfFull C
    { p with pre := e.1.advance 1, wiresVal := [], batchesDone := p.batchesDone + 1 }
  (r.1, e.2 ++ (fun i => .share (shares i)) :: r.2)

/-- `share`. -/
def share (val : F) (p : ProverState F W C.usable) :
    ProverState F W C.usable × List (ℕ → Msg F) :=
  let p := { p with wiresVal := p.wiresVal ++ [val] }
  if p.wiresVal.length = C.poly.k then shareBatch C p else (p, [])

/-- `shareFlush`. -/
def shareFlush (p : ProverState F W C.usable) : ProverState F W C.usable × List (ℕ → Msg F) :=
  if p.wiresVal.length ≠ 0 then shareBatch C p else (p, [])

/-- `mult`: records a triple; an error past the end of the buffer. -/
def mult (w : W) (t : Triple F) (p : ProverState F W C.usable) :
    Option (ProverState F W C.usable) :=
  if p.multGate.length < multGateBufSz + C.poly.k then
    some { p with multGate := p.multGate ++ [(w, t)] }
  else none

/-- `compute_mult`: the product, recorded and then shared. -/
def computeMult (w : W) (lhs rhs : F) (p : ProverState F W C.usable) :
    Option (ProverState F W C.usable × List (ℕ → Msg F)) :=
  (mult C w ⟨lhs, rhs, lhs * rhs⟩ p).map (share C (lhs * rhs))

/-- `multFlush`. -/
def multFlush (p : ProverState F W C.usable) : ProverState F W C.usable × List (ℕ → Msg F) :=
  let r := shareFlush C p
  if r.1.multGate.length ≠ 0 then
    let r' := verifyAuthTriple C r.1
    (r'.1, r.2 ++ r'.2)
  else r

end Prover

/-! ## The verifiers -/

/-- A verifier. -/
structure VerifierState (F W M : Type*) (usable : ℕ) where
  /-- `preAuthSharing`, `preAuthSharingPtr`. -/
  pre : PreAuthSharing usable
  /-- The pending wires, up to `wiresBufPtr`. -/
  wires : List W
  /-- The recorded triples, up to `multGatePtr`, with the wires of their products. -/
  multGate : List (W × Triple (AuthShare F))
  /-- `batchesDone`. -/
  batchesDone : ℕ
  /-- The checks so far: after which batch, and of which gates. -/
  checks : List (ℕ × List W)
  /-- Where the shares of the wires are. -/
  mem : M

namespace Verifier

variable (C : BackendConfig F)
  (fill : W → AuthShare F → M → Option (M × Option (Triple (AuthShare F)))) (i : ℕ)

/-- The constructor. -/
def init (usable : ℕ) (mem : M) : VerifierState F W M usable :=
  { pre := .init usable, wires := [], multGate := [], batchesDone := 0, checks := [], mem := mem }

/-- `shareMacKey`: what verifier `i` holds of the global key, for a slot. -/
def shareDelta (slot : ℕ) : F :=
  ∑ d ∈ range C.poly.n, dealMacKey C.poly C.tab (C.delta d) (C.rand d) slot i

/-- `randAuthVal` of verifier `i`: its share of the secret of a slot, from a correlation. -/
def randAuthVal (source : ℕ × ℕ) (slot : ℕ) : AuthShare F :=
  let sec := C.secrets source.1 i source.2
  let mac := sec * C.delta i + ∑ j ∈ (range C.poly.n).erase i, C.macs source.1 i j source.2
  let key (j : ℕ) : F := if j = i then 0 else C.keys source.1 i j source.2
  { mac := Poly.lagrangeEvalOne2K C.tab mac i slot
    key := C.poly.nttEvalN2K key slot
    share := Poly.lagrangeEvalOne2K C.tab sec i slot }

/-- `genShares`: the shares of the wires of a batch, from the packed share `s`. -/
def genShares (source : ℕ × ℕ) (s : F) (slot : ℕ) : AuthShare F :=
  let pre := randAuthVal C i source slot
  { mac := pre.mac + Poly.lagrangeEvalOne2K C.tab (s * shareDelta C i slot) i slot
    key := pre.key
    share := pre.share + Poly.lagrangeEvalOne2K C.tab s i slot }

/-- `ensurePreAuth`. -/
def ensurePreAuth (num : ℕ) (pre : PreAuthSharing C.usable) (queue : List (Msg F)) :
    Option (PreAuthSharing C.usable × List (Msg F)) :=
  let pre' := pre.ensure C.usable_pos num
  (Msg.recvExtend (pre.extensions pre') queue).map fun queue => (pre', queue)

/-- The rounds of the check: each verifier makes sure of the sharings, receives the differences, and
`genAddSharesFromDiff` makes sure once more. -/
def recvDiffs : List ℕ → PreAuthSharing C.usable → List (Msg F) →
    Option (PreAuthSharing C.usable × List (Msg F))
  | [], pre, queue => some (pre, queue)
  | len :: lens, pre, queue =>
    let nBatch := (len + C.poly.k - 1) / C.poly.k
    (ensurePreAuth C nBatch pre queue).bind fun e =>
      (Msg.recvDiff len e.2).bind fun queue =>
        (ensurePreAuth C nBatch e.1 queue).bind fun e => recvDiffs lens (e.1.advance nBatch) e.2

/-- `verifyAuthTriple`. -/
def verifyAuthTriple (v : VerifierState F W M C.usable) (queue : List (Msg F)) :
    Option (VerifierState F W M C.usable × List (Msg F)) :=
  (Msg.recvComs (2 * C.poly.n) queue).bind fun queue =>
    (recvDiffs C (checkLens v.multGate.length) v.pre queue).map fun r =>
      ({ v with
          pre := r.1
          multGate := []
          checks := v.checks ++ [(v.batchesDone, v.multGate.map Prod.fst)] }, r.2)

/-- The check at the end of a batch. -/
def checkIfFull (v : VerifierState F W M C.usable) (queue : List (Msg F)) :
    Option (VerifierState F W M C.usable × List (Msg F)) :=
  if v.multGate.length ≥ multGateBufSz then verifyAuthTriple C v queue else some (v, queue)

/-- `mult`: records a triple; an error past the end of the buffer. -/
def mult (w : W) (t : Triple (AuthShare F)) (v : VerifierState F W M C.usable) :
    Option (VerifierState F W M C.usable) :=
  if v.multGate.length < multGateBufSz + C.poly.k then
    some { v with multGate := v.multGate ++ [(w, t)] }
  else none

/-- The loop of `shareBatch` from wire `slot` on. -/
def fillWires (shares : ℕ → AuthShare F) :
    List W → ℕ → VerifierState F W M C.usable → Option (VerifierState F W M C.usable)
  | [], _, v => some v
  | w :: ws, slot, v =>
    (fill w (shares slot) v.mem).bind fun r =>
      let v := { v with mem := r.1 }
      (match r.2 with
        | none => some v
        | some t => mult C w t v).bind fun v => fillWires shares ws (slot + 1) v

/-- `shareBatch`. -/
def shareBatch (v : VerifierState F W M C.usable) (queue : List (Msg F)) :
    Option (VerifierState F W M C.usable × List (Msg F)) :=
  (ensurePreAuth C 1 v.pre queue).bind fun e =>
    (Msg.recvShare e.2).bind fun r =>
      (fillWires C fill (genShares C i (e.1.source e.1.ptr) r.1) v.wires 0
          { v with pre := e.1.advance 1 }).bind fun v =>
        checkIfFull C { v with wires := [], batchesDone := v.batchesDone + 1 } r.2

/-- `share`. -/
def share (w : W) (v : VerifierState F W M C.usable) (queue : List (Msg F)) :
    Option (VerifierState F W M C.usable × List (Msg F)) :=
  let v := { v with wires := v.wires ++ [w] }
  if v.wires.length = C.poly.k then shareBatch C fill i v queue else some (v, queue)

/-- `shareFlush`. -/
def shareFlush (v : VerifierState F W M C.usable) (queue : List (Msg F)) :
    Option (VerifierState F W M C.usable × List (Msg F)) :=
  if v.wires.length ≠ 0 then shareBatch C fill i v queue else some (v, queue)

/-- `multFlush`. -/
def multFlush (v : VerifierState F W M C.usable) (queue : List (Msg F)) :
    Option (VerifierState F W M C.usable × List (Msg F)) :=
  (shareFlush C fill i v queue).bind fun r =>
    if r.1.multGate.length ≠ 0 then verifyAuthTriple C r.1 r.2 else some r

end Verifier

end Parties

end VoleZk.Mvzk
