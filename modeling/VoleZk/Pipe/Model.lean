import VoleZk.Lib.Runs
import Mathlib.Logic.Function.Basic

/-!
# The background pipe of correlations

In background mode each party runs a producer thread, which fills the slots of a bounded ring one
correlation round at a time, and a consumer thread, the engine, which drains them.  A round is an
exchange between the two producers: `next_n` returns on one side only once the other side's
producer is in the same round.  Nothing else connects the two machines here, so that every
interleaving of the four threads is a run.

The code of the Boolean and of the arithmetic engine is the same in this respect, and is modelled
once.  What the slots hold does not matter for who waits for whom and is left out.

## What is here

* `CorrelationPipe` and its operations;
* `Endpoint`, one party's pipe with its two threads, `Endpoint.consumerStep` (the draws, then the
  destructor) and `Endpoint.producerStep`;
* `Pipe.step`, the four threads of the two parties.
-/

set_option autoImplicit false

namespace VoleZk

/-- The two parties: ALICE proves, BOB verifies. -/
inductive Party where
  /-- The prover. -/
  | alice
  /-- The verifier. -/
  | bob
  deriving DecidableEq

/-- The other party. -/
def Party.peer : Party → Party
  | .alice => .bob
  | .bob => .alice

@[simp] theorem Party.peer_peer (X : Party) : X.peer.peer = X := by
  cases X <;> rfl

@[simp] theorem Party.peer_ne (X : Party) : X.peer ≠ X := by
  cases X <;> decide

@[simp] theorem Party.ne_peer (X : Party) : X ≠ X.peer := X.peer_ne.symm

theorem Party.eq_or_eq_peer (X Y : Party) : Y = X ∨ Y = X.peer := by
  cases X <;> cases Y <;> simp [Party.peer]

/-! ## The ring -/

/-- `CorrelationPipe`, without the contents of its slots. -/
structure CorrelationPipe where
  /-- The number of slots. -/
  N : ℕ
  /-- The next slot to drain. -/
  head : ℕ := 0
  /-- The next slot to fill. -/
  tail : ℕ := 0
  /-- The number of filled slots. -/
  count : ℕ := 0
  /-- Set by `finish`. -/
  done : Bool := false
  /-- Set by `mark_producer_done`. -/
  producerDone : Bool := false

namespace CorrelationPipe

/-- `acquire_free`: `none` while it blocks, `some none` for the answer -1. -/
def acquireFree (p : CorrelationPipe) : Option (Option ℕ) :=
  if p.count < p.N ∨ p.done then some (if p.done then none else some p.tail) else none

/-- `publish`. -/
def publish (p : CorrelationPipe) : CorrelationPipe :=
  { p with tail := (p.tail + 1) % p.N, count := p.count + 1 }

/-- `acquire_ready`: `none` while it blocks, `some none` for the answer -1. -/
def acquireReady (p : CorrelationPipe) : Option (Option ℕ) :=
  if 0 < p.count ∨ p.producerDone ∨ p.done then some (if 0 < p.count then some p.head else none)
  else none

/-- `release`. -/
def release (p : CorrelationPipe) : CorrelationPipe :=
  { p with head := (p.head + 1) % p.N, count := p.count - 1 }

/-- `finish`. -/
def finish (p : CorrelationPipe) : CorrelationPipe := { p with done := true }

@[simp] theorem publish_done (p : CorrelationPipe) : p.publish.done = p.done := rfl

@[simp] theorem release_done (p : CorrelationPipe) : p.release.done = p.done := rfl

@[simp] theorem finish_done (p : CorrelationPipe) : p.finish.done = true := rfl

end CorrelationPipe

/-! ## The threads of one party -/

/-- Where a producer thread is. -/
inductive Producer where
  /-- About to call `acquire_free`, or blocked in it. -/
  | waiting
  /-- In `next_n`, filling the slot it acquired. -/
  | inRound
  /-- Out of its loop. -/
  | exited
  deriving DecidableEq

/-- One party: its pipe, its consumer and its producer. -/
structure Endpoint where
  /-- The ring. -/
  pipe : CorrelationPipe
  /-- Correlations per slot. -/
  batch : ℕ
  /-- The draws still to make; the first may be under way. -/
  rest : List ℕ
  /-- `cur_slot_`. -/
  curSlot : Option ℕ := none
  /-- `cur_off_`. -/
  curOff : ℕ := 0
  /-- A draw found the pipe closed. -/
  aborted : Bool := false
  /-- `join` has returned. -/
  joined : Bool := false
  /-- The producer thread. -/
  producer : Producer := .waiting
  /-- The rounds the producer has entered. -/
  entered : ℕ := 0

namespace Endpoint

/-- The next step of the consumer: the draws (`draw_vole_`, `draw_cot_`), and then the
destructor's `release`, `finish` and `join`.  `none` while it blocks, and once it is through. -/
def consumerStep (e : Endpoint) : Option Endpoint :=
  if e.aborted || e.joined then none
  else match e.rest with
    | 0 :: ns => some { e with rest := ns }
    | n :: ns => match e.curSlot with
      | none => match e.pipe.acquireReady with
        | none => none
        | some none => some { e with aborted := true }
        | some (some i) => some { e with curSlot := some i, curOff := 0 }
      | some i =>
        let take := min n (e.batch - e.curOff)
        if e.curOff + take = e.batch then
          some { e with rest := (n - take) :: ns, curOff := e.batch, curSlot := none,
                        pipe := e.pipe.release }
        else some { e with rest := (n - take) :: ns, curOff := e.curOff + take, curSlot := some i }
    | [] =>
      if e.curSlot.isSome then some { e with curSlot := none, pipe := e.pipe.release }
      else if e.pipe.done then
        if e.producer = .exited then some { e with joined := true } else none
      else some { e with pipe := e.pipe.finish }

/-- The next step of the producer, when the other party's producer has entered `peerEntered`
rounds: the loop `while ((i = acquire_free()) >= 0) { next_n(..); publish(); }`. -/
def producerStep (e : Endpoint) (peerEntered : ℕ) : Option Endpoint :=
  match e.producer with
  | .waiting => match e.pipe.acquireFree with
    | none => none
    | some none => some { e with producer := .exited }
    | some (some _) => some { e with producer := .inRound, entered := e.entered + 1 }
  | .inRound =>
    -- `next_n` returns once the other party is in this round too
    if e.entered ≤ peerEntered then some { e with producer := .waiting, pipe := e.pipe.publish }
    else none
  | .exited => none

end Endpoint

/-! ## The two parties -/

namespace Pipe

/-- The four threads. -/
inductive Thread where
  /-- A party's engine. -/
  | consumer (X : Party)
  /-- A party's producer. -/
  | producer (X : Party)

/-- Both parties. -/
abbrev State : Type := Party → Endpoint

/-- One step of one thread. -/
def step (s : State) : Thread → Option State
  | .consumer X => (s X).consumerStep.map (Function.update s X)
  | .producer X => ((s X).producerStep (s X.peer).entered).map (Function.update s X)

/-- The start: both parties are about to make the same draws on empty rings. -/
def init (N : Party → ℕ) (batch : ℕ) (draws : List ℕ) : State := fun X =>
  { pipe := { N := N X }, batch := batch, rest := draws }

end Pipe

end VoleZk
