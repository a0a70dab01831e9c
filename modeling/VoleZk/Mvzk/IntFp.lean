import VoleZk.Lib.LazyDag
import VoleZk.Mvzk.Sharing

/-!
# Wires that are evaluated when they are needed

`MvzkExec` runs a program on wires that are slots.  At the prover a slot has a value at once.  At a
verifier the slot of an input or of a product is filled when the packed share it belongs to arrives;
a linear combination of slots that are not all filled keeps its terms, and is evaluated when a
product or an opened wire needs it.

A verifier's slots are numbered in the order of their creation, which is the same on all parties.
`filled` is no part of the program: it tells which slots were written, in order.

## What is here

* `Slot`, `Slots`, `materialize`, `fillSlot`;
* `Op`, an operation of a program, and `IntFp.add` and the other operators;
* `ProverExec.step` and `VerifierExec.step`, an operation on either side.
-/

set_option autoImplicit false

namespace VoleZk.Mvzk

/-- `Slot` of a verifier. -/
structure Slot (F : Type*) where
  /-- `sh`. -/
  sh : AuthShare F
  /-- `ready`. -/
  ready : Bool
  /-- `lin`. -/
  lin : List (F × ℕ)
  /-- `pub`. -/
  pub : F

/-- The slots of a verifier. -/
structure Slots (F : Type*) where
  /-- The slots. -/
  slot : ℕ → Slot F
  /-- How many there are. -/
  count : ℕ
  /-- The slots that were written. -/
  filled : List ℕ

section Model

variable {F : Type*} [Field F]

/-- A slot at its creation. -/
def Slot.new : Slot F := { sh := 0, ready := false, lin := [], pub := 0 }

namespace Slots

/-- No slots. -/
def empty : Slots F := { slot := fun _ => .new, count := 0, filled := [] }

/-- A new slot. -/
def alloc (x : Slot F) (m : Slots F) : Slots F :=
  { m with
    slot := Function.update m.slot m.count x
    count := m.count + 1
    filled := if x.ready then m.filled ++ [m.count] else m.filled }

/-- A slot gets its share. -/
def write (s : ℕ) (x : Slot F) (m : Slots F) : Slots F :=
  { m with slot := Function.update m.slot s x, filled := m.filled ++ [s] }

variable (m : Slots F) (x : Slot F) {s t : ℕ}

omit [Field F] in
@[simp] theorem slot_alloc_self : (m.alloc x).slot m.count = x := Function.update_self _ _ _

omit [Field F] in
theorem slot_alloc_of_ne (h : t ≠ m.count) : (m.alloc x).slot t = m.slot t :=
  Function.update_of_ne h _ _

omit [Field F] in
@[simp] theorem slot_write_self : (m.write s x).slot s = x := Function.update_self _ _ _

omit [Field F] in
theorem slot_write_of_ne (h : t ≠ s) : (m.write s x).slot t = m.slot t :=
  Function.update_of_ne h _ _

end Slots

variable (C : BackendConfig F) (i : ℕ)

/-- `pubShare`. -/
def pubShare (c : F) : AuthShare F :=
  { mac := 0, key := -(c * C.delta i), share := if i = 0 then c else 0 }

/-- `evalLinear`, from the shares of the slots. -/
def evalLinear (sh : ℕ → AuthShare F) (terms : List (F × ℕ)) (c : F) : AuthShare F :=
  terms.foldl (fun acc t => acc + t.1 • sh t.2) (pubShare C i c)

/-- The last lines of the loop of `materialize`. -/
def resolve (m : Slots F) (t : ℕ) : Slots F :=
  m.write t
    { m.slot t with
      sh := evalLinear C i (fun s => (m.slot s).sh) (m.slot t).lin (m.slot t).pub
      ready := true
      lin := [] }

/-- `materialize`.  Each slot up to `s` is pushed at most once and evaluated at most once. -/
def materialize (s : ℕ) (m : Slots F) : Option (Slots F) :=
  if (m.slot s).ready then some m
  else LazyDag.run (fun m t => (m.slot t).ready) (fun m t => (m.slot t).lin.map Prod.snd)
    (resolve C i) (2 * (s + 1)) [s] m

/-- A pending wire: its slot and, of a product, the slots that its resolver reads. -/
structure SlotWire where
  /-- The slot. -/
  slot : ℕ
  /-- What the resolver reads. -/
  inputs : Option (ℕ × ℕ)

/-- Whether a wire is a product. -/
def SlotWire.isMult (w : SlotWire) : Bool := w.inputs.isSome

/-- The body of the loop of `shareBatch`. -/
def fillSlot (w : SlotWire) (sh : AuthShare F) (m : Slots F) :
    Option (Slots F × Option (Triple (AuthShare F))) :=
  let fill (m : Slots F) : Slots F := m.write w.slot { m.slot w.slot with sh := sh, ready := true }
  match w.inputs with
  | none => some (fill m, none)
  | some (a, b) =>
    (materialize C i a m).bind fun m => (materialize C i b m).map fun m =>
      (fill m, some ⟨(m.slot a).sh, (m.slot b).sh, sh⟩)

/-- The loop of `checkClaimed`: the shares of the slots, with the values they are to have. -/
def checkClaimed : List (ℕ × F) → Slots F → Option (Slots F × List (AuthShare F × F))
  | [], m => some (m, [])
  | (s, val) :: claims, m =>
    (materialize C i s m).bind fun m => (checkClaimed claims m).map fun r =>
      (r.1, ((m.slot s).sh, val) :: r.2)

/-! ## Programs -/

/-- An operation of a program. -/
inductive Op (F : Type*) where
  /-- `feed`. -/
  | feed (v : F)
  /-- `pub`. -/
  | pub (v : F)
  /-- `linear`. -/
  | linear (terms : List (F × ℕ)) (c : F)
  /-- `mult`. -/
  | mult (a b : ℕ)
  /-- `reveal`. -/
  | reveal (w : List ℕ)
  /-- `revealCheck`, of wires and the values expected. -/
  | revealCheck (claims : List (ℕ × F))
  /-- `flush`. -/
  | flush
  /-- `finalize`. -/
  | finalize

namespace IntFp

/-- `operator+`. -/
def add (s rhs : ℕ) : Op F := .linear [(1, s), (1, rhs)] 0

/-- `operator-`. -/
def sub (s rhs : ℕ) : Op F := .linear [(1, s), (-1, rhs)] 0

/-- `operator*`. -/
def mul (s rhs : ℕ) : Op F := .mult s rhs

/-- `operator+` of a constant. -/
def addConst (s : ℕ) (c : F) : Op F := .linear [(1, s)] c

/-- `operator-` of a constant. -/
def subConst (s : ℕ) (c : F) : Op F := .linear [(1, s)] (-c)

/-- `operator*` of a constant. -/
def mulConst (s : ℕ) (c : F) : Op F := .linear [(c, s)] 0

/-- `negate`. -/
def negate (s : ℕ) : Op F := .linear [(-1, s)] 0

end IntFp

/-! ## The prover -/

/-- `MvzkExec` of the prover. -/
structure ProverExec (F : Type*) (usable : ℕ) where
  /-- `backend`. -/
  backend : ProverState F SlotWire usable
  /-- `val` of the slots. -/
  val : ℕ → F
  /-- How many there are. -/
  count : ℕ
  /-- The values of the opened wires, and those claimed for them. -/
  opened : List (F × F)

namespace ProverExec

/-- The constructor. -/
def init (usable : ℕ) : ProverExec F usable :=
  { backend := Prover.init usable, val := fun _ => 0, count := 0, opened := [] }

/-- A new slot. -/
def alloc {usable : ℕ} (v : F) (e : ProverExec F usable) : ProverExec F usable :=
  { e with val := Function.update e.val e.count v, count := e.count + 1 }

/-- `flush`. -/
def flush (e : ProverExec F C.usable) : ProverExec F C.usable × List (ℕ → Msg F) :=
  let r := Prover.shareFlush C e.backend
  ({ e with backend := r.1 }, r.2)

/-- An operation. -/
def step (op : Op F) (e : ProverExec F C.usable) :
    Option (ProverExec F C.usable × List (ℕ → Msg F)) :=
  match op with
  | .feed v =>
    let r := Prover.share C v e.backend
    some ({ e.alloc v with backend := r.1 }, r.2)
  | .pub v => some (e.alloc v, [])
  | .linear terms c => some (e.alloc (terms.foldl (fun acc t => acc + t.1 * e.val t.2) c), [])
  | .mult a b =>
    (Prover.computeMult C ⟨e.count, some (a, b)⟩ (e.val a) (e.val b) e.backend).map fun r =>
      ({ e.alloc (e.val a * e.val b) with backend := r.1 }, r.2)
  | .reveal w =>
    let r := flush C e
    let vals : List F := w.map r.1.val
    some ({ r.1 with opened := r.1.opened ++ vals.map fun v => (v, v) },
      r.2 ++ [fun _ : ℕ => Msg.reveal vals])
  | .revealCheck claims =>
    let r := flush C e
    some ({ r.1 with opened := r.1.opened ++ claims.map fun c => (r.1.val c.1, c.2) }, r.2)
  | .flush => some (flush C e)
  | .finalize =>
    let r := Prover.multFlush C e.backend
    some ({ e with backend := r.1 }, r.2)

end ProverExec

/-! ## The verifiers -/

/-- `MvzkExec` of a verifier. -/
structure VerifierExec (F : Type*) (usable : ℕ) where
  /-- `backend`, with the slots. -/
  backend : VerifierState F SlotWire (Slots F) usable
  /-- `hold`. -/
  hold : List ℕ
  /-- `seenBatches`. -/
  seenBatches : ℕ
  /-- What `check_public` was given: shares, and the values claimed for them. -/
  opened : List (AuthShare F × F)

namespace VerifierExec

/-- The constructor. -/
def init (usable : ℕ) : VerifierExec F usable :=
  { backend := Verifier.init usable .empty, hold := [], seenBatches := 0, opened := [] }

/-- `afterOp`. -/
def afterOp {usable : ℕ} (e : VerifierExec F usable) : VerifierExec F usable :=
  if e.backend.batchesDone ≠ e.seenBatches then
    { e with seenBatches := e.backend.batchesDone, hold := [] }
  else e

/-- A new slot. -/
def alloc {usable : ℕ} (x : Slot F) (e : VerifierExec F usable) : VerifierExec F usable :=
  { e with backend := { e.backend with mem := e.backend.mem.alloc x } }

/-- `feed` and `mult`: a new slot, pending in the backend, and held until it is filled. -/
def share (inputs : Option (ℕ × ℕ)) (e : VerifierExec F C.usable) (queue : List (Msg F)) :
    Option (VerifierExec F C.usable × List (Msg F)) :=
  let s := e.backend.mem.count
  (Verifier.share C (fillSlot C i) i ⟨s, inputs⟩ (e.alloc .new).backend queue).map fun r =>
    (afterOp { e with backend := r.1, hold := e.hold ++ [s] }, r.2)

/-- `flush`. -/
def flush (e : VerifierExec F C.usable) (queue : List (Msg F)) :
    Option (VerifierExec F C.usable × List (Msg F)) :=
  (Verifier.shareFlush C (fillSlot C i) i e.backend queue).map fun r =>
    (afterOp { e with backend := r.1 }, r.2)

/-- `checkClaimed`. -/
def check (claims : List (ℕ × F)) (e : VerifierExec F C.usable) :
    Option (VerifierExec F C.usable) :=
  (checkClaimed C i claims e.backend.mem).map fun r =>
    { e with backend := { e.backend with mem := r.1 }, opened := e.opened ++ r.2 }

/-- `linear`: evaluated at once if all slots are ready. -/
def linearSlot (terms : List (F × ℕ)) (c : F) (m : Slots F) : Slot F :=
  if terms.all fun t => (m.slot t.2).ready then
    { Slot.new with sh := evalLinear C i (fun s => (m.slot s).sh) terms c, ready := true }
  else { Slot.new with lin := terms, pub := c }

/-- An operation. -/
def step (op : Op F) (e : VerifierExec F C.usable) (queue : List (Msg F)) :
    Option (VerifierExec F C.usable × List (Msg F)) :=
  match op with
  | .feed _ => share C i none e queue
  | .pub v => some (e.alloc { Slot.new with sh := pubShare C i v, ready := true }, queue)
  | .linear terms c => some (e.alloc (linearSlot C i terms c e.backend.mem), queue)
  | .mult a b => share C i (some (a, b)) e queue
  | .reveal w =>
    (flush C i e queue).bind fun r =>
      (Msg.recvReveal w.length r.2).bind fun q =>
        (check C i (w.zip q.1) r.1).map fun e => (e, q.2)
  | .revealCheck claims =>
    (flush C i e queue).bind fun r => (check C i claims r.1).map fun e => (e, r.2)
  | .flush => flush C i e queue
  | .finalize =>
    (Verifier.multFlush C (fillSlot C i) i e.backend queue).map fun r =>
      (afterOp { e with backend := r.1 }, r.2)

end VerifierExec

end Model

end VoleZk.Mvzk
