import VoleZk.Lib.Lockstep
import VoleZk.Mvzk.Lockstep

/-!
# Circuits

A circuit of the backend has cells for its wires: values at the prover, shares at the verifiers.
A verifier reads the inputs of a multiplication when the batch with its product arrives.

## What is here

* `Gate`, `Prover.step` and `Verifier.step`, a gate on either side;
* `CellInvariant`, what may be said of the cells, and `step_together` — **one gate**;
* `circuit_in_lockstep` — **every circuit, of any length.**
-/

set_option autoImplicit false

namespace VoleZk.Mvzk

variable {F : Type*} [Field F] (C : BackendConfig F)

/-- A wire of a circuit: the cell it is to be stored in and, of a multiplication, those of its
inputs. -/
structure PendingWire where
  /-- `out`. -/
  out : ℕ
  /-- `left` and `right`. -/
  inputs : Option (ℕ × ℕ)

/-- The body of the loop of `shareBatch`: the inputs are read before the output is written. -/
def fillCell (w : PendingWire) (s : AuthShare F) (mem : ℕ → AuthShare F) :
    Option ((ℕ → AuthShare F) × Option (Triple (AuthShare F))) :=
  some (Function.update mem w.out s, w.inputs.map fun lr => ⟨mem lr.1, mem lr.2, s⟩)

/-- A gate of a circuit. -/
inductive Gate (F : Type*) where
  /-- `auth_val_input`, with the value that the prover has. -/
  | input (out : ℕ) (val : F)
  /-- `compute_add`. -/
  | add (res lhs rhs : ℕ)
  /-- `compute_mult`. -/
  | mult (res lhs rhs : ℕ)
  /-- `flush_wires`. -/
  | flush
  /-- `finalize`. -/
  | finalize

/-- A gate at the prover. -/
def Prover.step : Gate F → ProverState F PendingWire C.usable × (ℕ → F) →
    Option ((ProverState F PendingWire C.usable × (ℕ → F)) × List (ℕ → Msg F))
  | .input out val, (p, mem) =>
    let r := share C val p
    some ((r.1, Function.update mem out val), r.2)
  | .add res lhs rhs, (p, mem) => some ((p, Function.update mem res (mem lhs + mem rhs)), [])
  | .mult res lhs rhs, (p, mem) =>
    (computeMult C ⟨res, some (lhs, rhs)⟩ (mem lhs) (mem rhs) p).map fun r =>
      ((r.1, Function.update mem res (mem lhs * mem rhs)), r.2)
  | .flush, (p, mem) =>
    let r := shareFlush C p
    some ((r.1, mem), r.2)
  | .finalize, (p, mem) =>
    let r := multFlush C p
    some ((r.1, mem), r.2)

/-- A gate at verifier `i`. -/
def Verifier.step (i : ℕ) : Gate F → VerifierState F PendingWire (ℕ → AuthShare F) C.usable →
    List (Msg F) →
    Option (VerifierState F PendingWire (ℕ → AuthShare F) C.usable × List (Msg F))
  | .input out _, v, queue => share C fillCell i ⟨out, none⟩ v queue
  | .add res lhs rhs, v, queue =>
    some ({ v with mem := Function.update v.mem res (v.mem lhs + v.mem rhs) }, queue)
  | .mult res lhs rhs, v, queue => share C fillCell i ⟨res, some (lhs, rhs)⟩ v queue
  | .flush, v, queue => shareFlush C fillCell i v queue
  | .finalize, v, queue => multFlush C fillCell i v queue

/-- A batch of cells: the shares `vals` of the wires from `slot` on, in order. -/
def writeAll {α : Type*} (vals : ℕ → α) : List PendingWire → ℕ → (ℕ → α) → ℕ → α
  | [], _, mem => mem
  | w :: ws, slot, mem => writeAll vals ws (slot + 1) (Function.update mem w.out (vals slot))

omit [Field F] in
theorem fillAll_fillCell (shares : ℕ → AuthShare F) (ws : List PendingWire) (slot : ℕ)
    (mem : ℕ → AuthShare F) :
    ∃ gates, fillAll fillCell shares ws slot mem = some (writeAll shares ws slot mem, gates) := by
  induction ws generalizing slot mem with
  | nil => exact ⟨[], rfl⟩
  | cons w ws ih =>
    obtain ⟨gates, hgates⟩ := ih (slot + 1) (Function.update mem w.out (shares slot))
    exact ⟨_, by rw [fillAll, fillCell, Option.bind_some, hgates]; rfl⟩

/-- Whether a wire is a multiplication. -/
def PendingWire.isMult (w : PendingWire) : Bool := w.inputs.isSome

namespace Gate

/-- The cells that are written after a gate. -/
def known (cells : Finset ℕ) : Gate F → Finset ℕ
  | .input out _ => insert out cells
  | .add res _ _ => insert res cells
  | .mult res _ _ => insert res cells
  | .flush => cells
  | .finalize => cells

/-- The pending wires after a gate. -/
def pending (k : ℕ) (ws : List PendingWire) : Gate F → List PendingWire
  | .input out _ => if ws.length + 1 = k then [] else ws ++ [⟨out, none⟩]
  | .add _ _ _ => ws
  | .mult res lhs rhs => if ws.length + 1 = k then [] else ws ++ [⟨res, some (lhs, rhs)⟩]
  | .flush => []
  | .finalize => []

end Gate

/-- What an invariant of the written cells, the pending wires and the memories must satisfy. -/
structure CellInvariant (ok : Finset ℕ → List PendingWire → Gate F → Prop)
    (D : Finset ℕ → (ℕ → F) → List PendingWire → List F → (ℕ → ℕ → AuthShare F) → Prop) : Prop where
  /-- A batch. -/
  batch : ∀ cells pm (p : ProverState F PendingWire C.usable) ws vm, p.wiresVal.length = ws.length →
    ws.length ≤ C.poly.k → D cells pm ws p.wiresVal vm →
      D cells pm [] [] fun i => writeAll (batchShares C p i) ws 0 (vm i)
  /-- An input or a multiplication. -/
  push : ∀ cells pm ws vals vm (w : PendingWire) val, vals.length = ws.length →
    D cells pm ws vals vm →
      D (insert w.out cells) (Function.update pm w.out val) (ws ++ [w]) (vals ++ [val]) vm
  /-- An addition. -/
  add : ∀ cells pm ws vals vm res lhs rhs, ok cells ws (.add res lhs rhs) → D cells pm ws vals vm →
    D (insert res cells) (Function.update pm res (pm lhs + pm rhs)) ws vals fun i =>
      Function.update (vm i) res (vm i lhs + vm i rhs)

section Steps

variable {C} {ok : Finset ℕ → List PendingWire → Gate F → Prop}
  {D : Finset ℕ → (ℕ → F) → List PendingWire → List F → (ℕ → ℕ → AuthShare F) → Prop}
  {p : ProverState F PendingWire C.usable}
  {v : ℕ → VerifierState F PendingWire (ℕ → AuthShare F) C.usable} {ws : List PendingWire}

theorem CellInvariant.fills (hinv : CellInvariant C ok D) (cells : Finset ℕ) (pm : ℕ → F) :
    Fills C (fun _ => fillCell) PendingWire.isMult (D cells pm) where
  isSome _ w s mem r hr := by
    cases hr
    exact Option.isSome_map
  batch p ws mem hlen hle hdata := by
    choose gates hgates using fun i => fillAll_fillCell (batchShares C p i) ws 0 (mem i)
    exact ⟨fun i => (_, gates i), hgates, hinv.batch cells pm p ws mem hlen hle hdata⟩

/-- **One gate on both sides.** -/
theorem step_together (hinv : CellInvariant C ok D) (cells : Finset ℕ) (pm : ℕ → F) {g : Gate F}
    (hok : ok cells ws g)
    (h : Together C PendingWire.isMult (D cells pm) p v ws) :
    ∃ s' msgs v', Prover.step C g (p, pm) = some (s', msgs) ∧
      (∀ i rest, Verifier.step C i g (v i) (msgs.map (· i) ++ rest) = some (v' i, rest)) ∧
      Together C PendingWire.isMult (D (g.known cells) s'.2) s'.1 v' (g.pending C.poly.k ws) := by
  cases g with
  | input out val =>
    obtain ⟨v', hrecv, htog⟩ := Verifier.share_together (hinv.fills _ _)
      (h.input (w := ⟨out, none⟩) rfl val) h.room h.pending
      (hinv.push cells pm ws _ _ ⟨out, none⟩ val h.wiresVal h.data)
    exact ⟨_, _, v', rfl, hrecv, htog⟩
  | add res lhs rhs =>
    exact ⟨_, _, _, rfl, fun _ _ => rfl,
      h.setMem (hinv.add cells pm ws _ _ res lhs rhs hok h.data)⟩
  | mult res lhs rhs =>
    let w : PendingWire := ⟨res, some (lhs, rhs)⟩
    let t : Triple F := ⟨pm lhs, pm rhs, pm lhs * pm rhs⟩
    obtain ⟨v', hrecv, htog⟩ := Verifier.share_together (p := { p with
      multGate := p.multGate ++ [(w, t)] }) (hinv.fills _ _) (h.mult (w := w) rfl t _) h.room
      h.pending (hinv.push cells pm ws _ _ w _ h.wiresVal h.data)
    refine ⟨(_, Function.update pm res (pm lhs * pm rhs)), _, v', ?_, hrecv, htog⟩
    rw [Prover.step, Prover.computeMult, Prover.mult_eq h.toInStep h.room h.pending w t]
    rfl
  | flush =>
    obtain ⟨v', hrecv, htog⟩ := Verifier.shareFlush_together (hinv.fills _ _) h
    exact ⟨_, _, v', rfl, hrecv, htog⟩
  | finalize =>
    obtain ⟨v', hrecv, htog⟩ := Verifier.multFlush_together (hinv.fills _ _) h
    exact ⟨_, _, v', rfl, hrecv, htog⟩

end Steps

/-! ## Runs -/

/-- The prover at the start of a session. -/
def Prover.start (mem : ℕ → F) : ProverState F PendingWire C.usable × (ℕ → F) :=
  (init C.usable, mem)

/-- The verifiers at the start of a session. -/
def Verifier.start (mem : ℕ → ℕ → AuthShare F) (i : ℕ) :
    VerifierState F PendingWire (ℕ → AuthShare F) C.usable := init C.usable (mem i)

variable {C} in
omit [Field F] in
theorem start_together {D : List PendingWire → List F → (ℕ → ℕ → AuthShare F) → Prop}
    (pm : ℕ → F) {vm : ℕ → ℕ → AuthShare F} (h : D [] [] vm) :
    Together C PendingWire.isMult D (Prover.start C pm).1 (Verifier.start C vm) [] where
  pre _ := rfl
  wires _ := rfl
  wiresVal := rfl
  gates _ := rfl
  batchesDone _ := rfl
  checks _ := rfl
  room _ := (by decide : 0 < multGateBufSz)
  pending := Poly.k_pos _
  data := h

/-- **The prover and the verifiers stay in lockstep** on every circuit: no party fails, which it
would past the end of a buffer or at a message it does not expect, every verifier takes exactly the
messages that the prover sent to it, and afterwards all parties have the same preprocessed
sharings and the same number of batches and of pending wires, and have checked the same gates after
the same batches. -/
theorem circuit_in_lockstep (gates : List (Gate F)) (pm : ℕ → F) (vm : ℕ → ℕ → AuthShare F) :
    ∃ p msgs, ∃ v : ℕ → VerifierState F PendingWire (ℕ → AuthShare F) C.usable,
      Lockstep.sendRun (Prover.step C) gates (Prover.start C pm) = some (p, msgs) ∧
      (∀ i rest, Lockstep.recvRun (Verifier.step C i) gates (Verifier.start C vm i)
        (msgs.map (· i) ++ rest) = some (v i, rest)) ∧
      ∀ i, (v i).pre = p.1.pre ∧ (v i).batchesDone = p.1.batchesDone ∧
        (v i).checks = p.1.checks ∧ (v i).wires.length = p.1.wiresVal.length ∧
        (v i).wires.length < C.poly.k ∧ (v i).multGate.length < multGateBufSz ∧
        p.1.multGate.map Prod.fst
          = (v i).multGate.map Prod.fst ++ (v i).wires.filter PendingWire.isMult ∧
        p.1.multGate.length < multGateBufSz + C.poly.k := by
  have hinv : CellInvariant C (fun _ _ _ => True) fun _ _ _ _ _ => True :=
    ⟨fun _ _ _ _ _ _ _ _ => trivial, fun _ _ _ _ _ _ _ _ _ => trivial,
      fun _ _ _ _ _ _ _ _ _ _ => trivial⟩
  obtain ⟨p, msgs, v, hsend, hrecv, ws, htog⟩ := Lockstep.run_in_step (Prover.step C)
    (Verifier.step C)
    (fun _ s v => ∃ ws, Together C PendingWire.isMult (fun _ _ _ => True) s.1 v ws)
    (fun g _ s v hrel => by
      obtain ⟨ws, h⟩ := hrel
      obtain ⟨s', msgs, v', hs, hv, h'⟩ := step_together hinv ∅ s.2 (g := g) trivial h
      exact ⟨s', msgs, v', hs, hv, _, h'⟩)
    gates (s := Prover.start C pm) (r := Verifier.start C vm) ⟨[], start_together pm trivial⟩
  refine ⟨p, msgs, v, hsend, hrecv, fun i => ?_⟩
  have hlen : (v i).wires.length < C.poly.k := (htog.wires i).symm ▸ htog.pending
  refine ⟨htog.pre i, htog.batchesDone i, htog.checks i, ?_, hlen, htog.room i, ?_, ?_⟩
  · rw [htog.wires i, htog.wiresVal]
  · rw [htog.gates i, htog.wires i]
  · have hle := List.length_filter_le PendingWire.isMult ws
    have hroom := htog.room i
    have hpending := htog.pending
    rw [htog.gates_length i]
    omega

end VoleZk.Mvzk
