import VoleZk.Mvzk.Sharing

/-!
# Wires that are overwritten

The prover computes with the values that its wires have when a gate is issued.  A verifier keeps
pointers, and reads the inputs of a multiplication when the batch with its product arrives.  The
wires of a batch are filled in the order of the program, so that a gate that is itself shared finds
what the prover found, whatever it overwrites.  An addition is done at once, before the wires that
are pending.

## What is here

* `fillVars`, the loop of a batch over any values, and `fillLog`, a memory that keeps the triples;
* `Verifier.step_eq_stepLog` — **the triples are kept beside the run**;
* `Gate.Readable`, what the program is told, and `Gate.Hazardless`, what it is not told;
* `programs_agree` — **every program, with both**;
* `programs_disagree` — a pending wire and a factor that an addition overwrites.
-/

set_option autoImplicit false

open Finset

namespace VoleZk.Mvzk

/-! ## A batch -/

section Fill

variable {α : Type*}

/-- The loop of `shareBatch`, over values or shares: the wires, and the triples in order. -/
def fillVars (vals : ℕ → α) : List PendingWire → ℕ → (ℕ → α) → (ℕ → α) × List (Triple α)
  | [], _, mem => (mem, [])
  | w :: ws, slot, mem =>
    let r := fillVars vals ws (slot + 1) (Function.update mem w.out (vals slot))
    (r.1, (w.inputs.map fun lr => ⟨mem lr.1, mem lr.2, vals slot⟩).toList ++ r.2)

/-- One more wire reads what those before it have written. -/
theorem fillVars_concat (vals : ℕ → α) (ws : List PendingWire) (w : PendingWire) (slot : ℕ)
    (mem : ℕ → α) :
    fillVars vals (ws ++ [w]) slot mem
      = (Function.update (fillVars vals ws slot mem).1 w.out (vals (slot + ws.length)),
        (fillVars vals ws slot mem).2 ++ (w.inputs.map fun lr =>
          ⟨(fillVars vals ws slot mem).1 lr.1, (fillVars vals ws slot mem).1 lr.2,
            vals (slot + ws.length)⟩).toList) := by
  induction ws generalizing slot mem with
  | nil => simp [fillVars]
  | cons w' ws ih =>
    rw [List.cons_append, fillVars, ih, fillVars, List.length_cons, Nat.add_right_comm,
      Nat.add_assoc]
    simp

theorem fillVars_congr {vals vals' : ℕ → α} {ws : List PendingWire} {slot : ℕ} (mem : ℕ → α)
    (h : ∀ j < slot + ws.length, vals j = vals' j) :
    fillVars vals ws slot mem = fillVars vals' ws slot mem := by
  induction ws generalizing slot mem with
  | nil => rfl
  | cons w ws ih =>
    rw [List.length_cons] at h
    rw [fillVars, fillVars, h slot (by omega), ih _ fun j hj => h j (by omega)]

/-- A wire that is not pending. -/
theorem fillVars_of_notMem {vals : ℕ → α} {ws : List PendingWire} {slot : ℕ} {mem : ℕ → α} {c : ℕ}
    (hc : c ∉ ws.map PendingWire.out) : (fillVars vals ws slot mem).1 c = mem c := by
  induction ws generalizing slot mem with
  | nil => rfl
  | cons w ws ih =>
    rw [List.map_cons, List.mem_cons, not_or] at hc
    rw [fillVars, ih hc.2, Function.update_of_ne hc.1]

/-- **A write before the batch** that no pending wire reads or overwrites. -/
theorem fillVars_update {vals : ℕ → α} {ws : List PendingWire} {slot : ℕ} {mem : ℕ → α} {res : ℕ}
    (hout : res ∉ ws.map PendingWire.out)
    (hin : ∀ w ∈ ws, ∀ lr ∈ w.inputs, lr.1 ≠ res ∧ lr.2 ≠ res) (x : α) :
    fillVars vals ws slot (Function.update mem res x)
      = (Function.update (fillVars vals ws slot mem).1 res x, (fillVars vals ws slot mem).2) := by
  induction ws generalizing slot mem with
  | nil => rfl
  | cons w ws ih =>
    rw [List.map_cons, List.mem_cons, not_or] at hout
    have hread : (w.inputs.map fun lr => (⟨Function.update mem res x lr.1,
        Function.update mem res x lr.2, vals slot⟩ : Triple α))
          = w.inputs.map fun lr => ⟨mem lr.1, mem lr.2, vals slot⟩ := by
      refine Option.map_congr fun lr hlr => ?_
      obtain ⟨hl, hr⟩ := hin w List.mem_cons_self lr hlr
      rw [Function.update_of_ne hl, Function.update_of_ne hr]
    rw [fillVars, fillVars, hread, Function.update_comm hout.1,
      ih hout.2 fun w' hw' => hin w' (List.mem_cons_of_mem _ hw')]

variable {F : Type*} [Field F] {n : ℕ} {delta : ℕ → F}

/-- One wire of the verifiers. -/
theorem shared_update {mem : ℕ → ℕ → AuthShare F} {view : ℕ → F}
    (h : ∀ c, Shared n delta (fun i => mem i c) (view c)) (res : ℕ) {sh : ℕ → AuthShare F} {x : F}
    (hx : Shared n delta sh x) (c : ℕ) :
    Shared n delta (fun i => Function.update (mem i) res (sh i) c)
      (Function.update view res x c) := by
  by_cases hc : c = res
  · subst hc
    simpa using hx
  · simpa [Function.update_of_ne hc] using h c

/-- **A batch of shares.** -/
theorem fillVars_shared {sh : ℕ → ℕ → AuthShare F} {vals : ℕ → F} {ws : List PendingWire}
    {slot : ℕ} (hsh : ∀ j < slot + ws.length, Shared n delta (fun i => sh i j) (vals j))
    {mem : ℕ → ℕ → AuthShare F} {view : ℕ → F}
    (hmem : ∀ c, Shared n delta (fun i => mem i c) (view c)) :
    (∀ c, Shared n delta (fun i => (fillVars (sh i) ws slot (mem i)).1 c)
      ((fillVars vals ws slot view).1 c)) ∧
    ∃ T : List (ℕ → Triple (AuthShare F)),
      (∀ i, (fillVars (sh i) ws slot (mem i)).2 = T.map (· i)) ∧
      List.Forall₂ (Triple.SharedBy n delta) T (fillVars vals ws slot view).2 := by
  induction ws generalizing slot mem view with
  | nil => exact ⟨hmem, [], fun _ => rfl, .nil⟩
  | cons w ws ih =>
    rw [List.length_cons] at hsh
    have hslot := hsh slot (by omega)
    have hrest : ∀ j < slot + 1 + ws.length, Shared n delta (fun i => sh i j) (vals j) :=
      fun j hj => hsh j (by omega)
    obtain ⟨hall, T, hT, hshared⟩ := ih hrest (shared_update hmem w.out hslot)
    refine ⟨hall, ?_⟩
    cases hw : w.inputs with
    | none =>
      refine ⟨T, fun i => ?_, ?_⟩
      · rw [fillVars, hT i, hw]
        rfl
      · rw [fillVars, hw]
        exact hshared
    | some lr =>
      refine ⟨(fun i => ⟨mem i lr.1, mem i lr.2, sh i slot⟩) :: T, fun i => ?_, ?_⟩
      · rw [fillVars, hT i, hw]
        rfl
      · rw [fillVars, hw]
        exact .cons ⟨hmem lr.1, hmem lr.2, hslot⟩ hshared

end Fill

/-! ## Keeping the triples -/

section Log

variable {F W M M' : Type*} {usable : ℕ}

/-- A verifier with another memory. -/
def VerifierState.mapMem (f : M → M') (v : VerifierState F W M usable) :
    VerifierState F W M' usable where
  pre := v.pre
  wires := v.wires
  multGate := v.multGate
  batchesDone := v.batchesDone
  checks := v.checks
  mem := f v.mem

namespace Verifier

variable [Field F] {C : BackendConfig F} {i : ℕ} {f : M → M'}
  {fill : W → AuthShare F → M → Option (M × Option (Triple (AuthShare F)))}
  {fill' : W → AuthShare F → M' → Option (M' × Option (Triple (AuthShare F)))}

omit [Field F] in
theorem verifyAuthTriple_mapMem (v : VerifierState F W M C.usable) (queue : List (Msg F)) :
    verifyAuthTriple C (v.mapMem f) queue
      = (verifyAuthTriple C v queue).map fun r => (r.1.mapMem f, r.2) := by
  rw [verifyAuthTriple, verifyAuthTriple, Option.map_bind]
  refine Option.bind_congr fun queue _ => ?_
  rw [Function.comp_apply, Option.map_map]
  rfl

omit [Field F] in
theorem mult_mapMem (w : W) (t : Triple (AuthShare F)) (v : VerifierState F W M C.usable) :
    mult C w t (v.mapMem f) = (mult C w t v).map (·.mapMem f) := by
  rw [mult, mult, apply_ite (Option.map _)]
  rfl

omit [Field F] in
theorem checkIfFull_mapMem (v : VerifierState F W M C.usable) (queue : List (Msg F)) :
    checkIfFull C (v.mapMem f) queue
      = (checkIfFull C v queue).map fun r => (r.1.mapMem f, r.2) := by
  rw [checkIfFull, checkIfFull, apply_ite (Option.map _), verifyAuthTriple_mapMem]
  rfl

omit [Field F] in
theorem fillWires_mapMem
    (hfill : ∀ w s m, fill' w s (f m) = (fill w s m).map fun r => (f r.1, r.2))
    (shares : ℕ → AuthShare F) (ws : List W) (slot : ℕ) (v : VerifierState F W M C.usable) :
    fillWires C fill' shares ws slot (v.mapMem f)
      = (fillWires C fill shares ws slot v).map (·.mapMem f) := by
  induction ws generalizing slot v with
  | nil => rfl
  | cons w ws ih =>
    rw [fillWires, fillWires, show (v.mapMem f).mem = f v.mem from rfl, hfill, Option.map_bind,
      Option.bind_map]
    refine Option.bind_congr fun r _ => ?_
    obtain ⟨m, t⟩ := r
    cases t with
    | none => exact ih (slot + 1) { v with mem := m }
    | some t =>
      show (mult C w t (VerifierState.mapMem f { v with mem := m })).bind _
        = ((mult C w t _).bind _).map _
      rw [mult_mapMem, Option.bind_map, Option.map_bind]
      exact Option.bind_congr fun v' _ => ih (slot + 1) v'

variable (hfill : ∀ w s m, fill' w s (f m) = (fill w s m).map fun r => (f r.1, r.2))
include hfill

theorem shareBatch_mapMem (v : VerifierState F W M C.usable) (queue : List (Msg F)) :
    shareBatch C fill' i (v.mapMem f) queue
      = (shareBatch C fill i v queue).map fun r => (r.1.mapMem f, r.2) := by
  rw [shareBatch, shareBatch, Option.map_bind]
  refine Option.bind_congr fun e _ => ?_
  rw [Function.comp_apply, Option.map_bind]
  refine Option.bind_congr fun r _ => ?_
  rw [Function.comp_apply, Option.map_bind]
  have hwires := fillWires_mapMem (C := C) hfill (genShares C i (e.1.source e.1.ptr) r.1) v.wires 0
    { v with pre := e.1.advance 1 }
  refine (congrArg (Option.bind · _) hwires).trans ?_
  rw [Option.bind_map]
  refine Option.bind_congr fun v' _ => ?_
  exact checkIfFull_mapMem { v' with wires := [], batchesDone := v'.batchesDone + 1 } r.2

theorem share_mapMem (w : W) (v : VerifierState F W M C.usable) (queue : List (Msg F)) :
    share C fill' i w (v.mapMem f) queue
      = (share C fill i w v queue).map fun r => (r.1.mapMem f, r.2) := by
  rw [share, share, apply_ite (Option.map _), ← shareBatch_mapMem hfill]
  rfl

theorem shareFlush_mapMem (v : VerifierState F W M C.usable) (queue : List (Msg F)) :
    shareFlush C fill' i (v.mapMem f) queue
      = (shareFlush C fill i v queue).map fun r => (r.1.mapMem f, r.2) := by
  rw [shareFlush, shareFlush, apply_ite (Option.map _), ← shareBatch_mapMem hfill]
  rfl

theorem multFlush_mapMem (v : VerifierState F W M C.usable) (queue : List (Msg F)) :
    multFlush C fill' i (v.mapMem f) queue
      = (multFlush C fill i v queue).map fun r => (r.1.mapMem f, r.2) := by
  rw [multFlush, multFlush, shareFlush_mapMem hfill, Option.map_bind, Option.bind_map]
  refine Option.bind_congr fun r _ => ?_
  show (if _ then verifyAuthTriple C (r.1.mapMem f) r.2 else _) = _
  rw [verifyAuthTriple_mapMem, Function.comp_apply, apply_ite (Option.map _)]
  rfl

end Verifier

end Log

/-- The wires of a verifier, and the triples that it recorded. -/
abbrev LogMem (F : Type*) := (ℕ → AuthShare F) × List (Triple (AuthShare F))

variable {F : Type*} [Field F] {C : BackendConfig F}

/-- `fillCell`, which keeps the triple. -/
def fillLog (w : PendingWire) (s : AuthShare F) (m : LogMem F) :
    Option (LogMem F × Option (Triple (AuthShare F))) :=
  (fillCell w s m.1).map fun r => ((r.1, m.2 ++ r.2.toList), r.2)

/-- `Verifier.step`, which keeps the triples. -/
def Verifier.stepLog (C : BackendConfig F) (i : ℕ) (g : Gate F)
    (v : VerifierState F PendingWire (LogMem F) C.usable) (queue : List (Msg F)) :
    Option (VerifierState F PendingWire (LogMem F) C.usable × List (Msg F)) :=
  match g with
  | .input out _ => share C fillLog i ⟨out, none⟩ v queue
  | .add res lhs rhs =>
    some ({ v with
      mem := (Function.update v.mem.1 res (v.mem.1 lhs + v.mem.1 rhs), v.mem.2) }, queue)
  | .mult res lhs rhs => share C fillLog i ⟨res, some (lhs, rhs)⟩ v queue
  | .flush => shareFlush C fillLog i v queue
  | .finalize => multFlush C fillLog i v queue

/-- **The triples are kept beside the run.** -/
theorem Verifier.step_eq_stepLog (i : ℕ) (g : Gate F)
    (v : VerifierState F PendingWire (LogMem F) C.usable) (queue : List (Msg F)) :
    step C i g (v.mapMem Prod.fst) queue
      = (stepLog C i g v queue).map fun r => (r.1.mapMem Prod.fst, r.2) := by
  have hfill : ∀ (w : PendingWire) (s : AuthShare F) (m : LogMem F),
      fillCell w s m.1 = (fillLog w s m).map fun r => (r.1.1, r.2) := fun _ _ _ => rfl
  cases g with
  | input out val => exact share_mapMem hfill ⟨out, none⟩ v queue
  | add res lhs rhs => rfl
  | mult res lhs rhs => exact share_mapMem hfill ⟨res, some (lhs, rhs)⟩ v queue
  | flush => exact shareFlush_mapMem hfill v queue
  | finalize => exact multFlush_mapMem hfill v queue

theorem Verifier.recvRun_eq_stepLog (i : ℕ) (gates : List (Gate F))
    (v : VerifierState F PendingWire (LogMem F) C.usable) (queue : List (Msg F)) :
    Lockstep.recvRun (step C i) gates (v.mapMem Prod.fst) queue
      = (Lockstep.recvRun (stepLog C i) gates v queue).map fun r => (r.1.mapMem Prod.fst, r.2) := by
  induction gates generalizing v queue with
  | nil => rfl
  | cons g gates ih =>
    rw [Lockstep.recvRun, Lockstep.recvRun, step_eq_stepLog, Option.bind_map, Option.map_bind]
    exact Option.bind_congr fun r _ => ih r.1 r.2

/-! ## Programs -/

namespace Gate

/-- What a gate leaves in the wires of the prover. -/
def value : Gate F → (ℕ → F) → ℕ → F
  | .input out val, pm => Function.update pm out val
  | .add res lhs rhs, pm => Function.update pm res (pm lhs + pm rhs)
  | .mult res lhs rhs, pm => Function.update pm res (pm lhs * pm rhs)
  | .flush, pm => pm
  | .finalize, pm => pm

/-- The triple that the prover records. -/
def triple : Gate F → (ℕ → F) → List (Triple F)
  | .mult _ lhs rhs, pm => [⟨pm lhs, pm rhs, pm lhs * pm rhs⟩]
  | _, _ => []

/-- The triples that the prover records in a program. -/
def recorded : List (Gate F) → (ℕ → F) → List (Triple F)
  | [], _ => []
  | g :: gates, pm => g.triple pm ++ recorded gates (g.value pm)

/-- `compute_add` does not read a pending wire. -/
def Readable (ws : List PendingWire) : Gate F → Prop
  | .add _ lhs rhs => lhs ∉ ws.map PendingWire.out ∧ rhs ∉ ws.map PendingWire.out
  | _ => True

/-- `compute_add` does not overwrite a pending wire, or what a pending multiplication reads. -/
def Hazardless (ws : List PendingWire) : Gate F → Prop
  | .add res _ _ => res ∉ ws.map PendingWire.out ∧
    ∀ w ∈ ws, ∀ lr ∈ w.inputs, lr.1 ≠ res ∧ lr.2 ≠ res
  | _ => True

/-- Every gate of a program meets a condition on the wires that are pending. -/
def Along (ok : List PendingWire → Gate F → Prop) (k : ℕ) :
    List (Gate F) → List PendingWire → Prop
  | [], _ => True
  | g :: gates, ws => ok ws g ∧ Along ok k gates (g.pending k ws)

end Gate

/-- **What the verifiers share once the pending wires are filled**: the wires, and the triples. -/
def Eventually (C : BackendConfig F) (e : (ℕ → F) × List (Triple F)) (ws : List PendingWire)
    (vals : List F) (m : ℕ → LogMem F) : Prop :=
  ∃ (view : ℕ → F) (T : List (ℕ → Triple (AuthShare F))) (ts : List (Triple F)),
    (∀ c, Shared C.poly.n C.delta (fun i => (m i).1 c) (view c)) ∧
    (∀ i, (m i).2 = T.map (· i)) ∧ List.Forall₂ (Triple.SharedBy C.poly.n C.delta) T ts ∧
    (fillVars (fun slot => vals.getD slot 0) ws 0 view).1 = e.1 ∧
    ts ++ (fillVars (fun slot => vals.getD slot 0) ws 0 view).2 = e.2

omit [Field F] in
theorem fillAll_fillLog (shares : ℕ → AuthShare F) (ws : List PendingWire) (slot : ℕ)
    (m : LogMem F) :
    ∃ gates, fillAll fillLog shares ws slot m
      = some (((fillVars shares ws slot m.1).1, m.2 ++ (fillVars shares ws slot m.1).2),
        gates) := by
  induction ws generalizing slot m with
  | nil => exact ⟨[], by rw [fillVars, List.append_nil]; rfl⟩
  | cons w ws ih =>
    let t : Option (Triple (AuthShare F)) :=
      w.inputs.map fun lr => ⟨m.1 lr.1, m.1 lr.2, shares slot⟩
    obtain ⟨gates, hgates⟩ := ih (slot + 1) (Function.update m.1 w.out (shares slot),
      m.2 ++ t.toList)
    refine ⟨(t.toList.map fun t => (w, t)) ++ gates, ?_⟩
    rw [fillAll, fillLog, fillCell, Option.map_some, Option.bind_some, hgates, fillVars,
      ← List.append_assoc]
    rfl

section Steps

variable {e : (ℕ → F) × List (Triple F)} {ws : List PendingWire} {vals : List F}
  {m : ℕ → LogMem F}

/-- **A batch.** -/
theorem eventually_fills (hR : C.Right) (e : (ℕ → F) × List (Triple F)) :
    Fills C (fun _ => fillLog) PendingWire.isMult (Eventually C e) where
  isSome _ w s m r hr := by
    cases hr
    exact Option.isSome_map
  batch p ws m hlen hle hdata := by
    obtain ⟨view, T, ts, hmem, hlog, hshared, hview, hts⟩ := hdata
    choose gates hgates using fun i => fillAll_fillLog (batchShares C p i) ws 0 (m i)
    have hsh : ∀ j < 0 + ws.length,
        Shared C.poly.n C.delta (fun i => batchShares C p i j) (p.wiresVal.getD j 0) := fun j hj =>
      batchShares_shared hR p (((Nat.zero_add _).symm ▸ hj).trans_le hle)
    obtain ⟨hall, T', hT', hshared'⟩ := fillVars_shared hsh hmem
    refine ⟨fun i => (_, gates i), hgates, _, T ++ T', ts ++ _, hall, fun i => ?_,
      List.rel_append hshared hshared', hview, ?_⟩
    · rw [List.map_append, ← hlog i, ← hT' i]
    · rw [fillVars, List.append_nil]
      exact hts

/-- **An input or a product** becomes pending. -/
theorem Eventually.push (h : Eventually C e ws vals m) (hlen : vals.length = ws.length)
    (w : PendingWire) (val : F) :
    Eventually C (Function.update e.1 w.out val,
      e.2 ++ (w.inputs.map fun lr => ⟨e.1 lr.1, e.1 lr.2, val⟩).toList) (ws ++ [w]) (vals ++ [val])
        m := by
  obtain ⟨view, T, ts, hmem, hlog, hshared, hview, hts⟩ := h
  have hold : fillVars (fun slot => (vals ++ [val]).getD slot 0) ws 0 view
      = fillVars (fun slot => vals.getD slot 0) ws 0 view := fillVars_congr _ fun j hj => by
    rw [Nat.zero_add, ← hlen] at hj
    exact List.getD_append _ _ _ _ hj
  have hval : (vals ++ [val]).getD (0 + ws.length) 0 = val := by
    rw [Nat.zero_add, ← hlen, List.getD_append_right _ _ _ _ le_rfl, Nat.sub_self]
    rfl
  refine ⟨view, T, ts, hmem, hlog, hshared, ?_, ?_⟩
  · rw [fillVars_concat, hold, hval, hview]
  · rw [fillVars_concat, hold, hval, hview, ← List.append_assoc, hts]

/-- **An addition** that meets no hazard. -/
theorem Eventually.add (h : Eventually C e ws vals m) {res lhs rhs : ℕ}
    (hread : Gate.Readable ws (.add res lhs rhs : Gate F))
    (hhaz : Gate.Hazardless ws (.add res lhs rhs : Gate F)) :
    Eventually C (Function.update e.1 res (e.1 lhs + e.1 rhs), e.2) ws vals fun i =>
      (Function.update (m i).1 res ((m i).1 lhs + (m i).1 rhs), (m i).2) := by
  obtain ⟨view, T, ts, hmem, hlog, hshared, hview, hts⟩ := h
  have hlhs : e.1 lhs = view lhs := by rw [← hview, fillVars_of_notMem hread.1]
  have hrhs : e.1 rhs = view rhs := by rw [← hview, fillVars_of_notMem hread.2]
  refine ⟨Function.update view res (view lhs + view rhs), T, ts,
    shared_update hmem res ((hmem lhs).add (hmem rhs)), hlog, hshared, ?_, ?_⟩
  · rw [fillVars_update hhaz.1 hhaz.2, hview, hlhs, hrhs]
  · rw [fillVars_update hhaz.1 hhaz.2, hts]

/-- What the verifiers are going to share after a gate, if `pm` is what the prover has. -/
def Gate.eventually (pm : ℕ → F) : Gate F → (ℕ → F) × List (Triple F) → (ℕ → F) × List (Triple F)
  | .input out val, e => (Function.update e.1 out val, e.2)
  | .add res lhs rhs, e => (Function.update e.1 res (e.1 lhs + e.1 rhs), e.2)
  | .mult res lhs rhs, e =>
    (Function.update e.1 res (pm lhs * pm rhs), e.2 ++ [⟨e.1 lhs, e.1 rhs, pm lhs * pm rhs⟩])
  | .flush, e => e
  | .finalize, e => e

theorem Gate.eventually_eq (g : Gate F) (pm : ℕ → F) (ts : List (Triple F)) :
    g.eventually pm (pm, ts) = (g.value pm, ts ++ g.triple pm) := by
  cases g <;> simp [eventually, value, triple]

variable {p : ProverState F PendingWire C.usable}
  {v : ℕ → VerifierState F PendingWire (LogMem F) C.usable}

/-- **One gate.** -/
theorem step_eventually (hR : C.Right) (pm : ℕ → F) {g : Gate F} (hread : g.Readable ws)
    (hhaz : g.Hazardless ws) (h : Together C PendingWire.isMult (Eventually C e) p v ws) :
    ∃ p' msgs v', Prover.step C g (p, pm) = some ((p', g.value pm), msgs) ∧
      (∀ i rest, Verifier.stepLog C i g (v i) (msgs.map (· i) ++ rest) = some (v' i, rest)) ∧
      Together C PendingWire.isMult (Eventually C (g.eventually pm e)) p' v'
        (g.pending C.poly.k ws) := by
  cases g with
  | input out val =>
    have hdata := h.data.push h.wiresVal ⟨out, none⟩ val
    rw [Option.map_none, Option.toList_none, List.append_nil] at hdata
    obtain ⟨v', hrecv, htog⟩ := Verifier.share_together (eventually_fills hR _)
      (h.input (w := ⟨out, none⟩) rfl val) h.room h.pending hdata
    exact ⟨_, _, v', rfl, hrecv, htog⟩
  | add res lhs rhs => exact ⟨p, [], _, rfl, fun _ _ => rfl, h.setMem (h.data.add hread hhaz)⟩
  | mult res lhs rhs =>
    let w : PendingWire := ⟨res, some (lhs, rhs)⟩
    let t : Triple F := ⟨pm lhs, pm rhs, pm lhs * pm rhs⟩
    obtain ⟨v', hrecv, htog⟩ := Verifier.share_together (p := { p with
      multGate := p.multGate ++ [(w, t)] }) (eventually_fills hR _) (h.mult (w := w) rfl t _) h.room
      h.pending (h.data.push h.wiresVal w _)
    refine ⟨_, _, v', ?_, hrecv, htog⟩
    rw [Prover.step, Prover.computeMult, Prover.mult_eq h.toInStep h.room h.pending w t]
    rfl
  | flush =>
    obtain ⟨v', hrecv, htog⟩ := Verifier.shareFlush_together (eventually_fills hR _) h
    exact ⟨_, _, v', rfl, hrecv, htog⟩
  | finalize =>
    obtain ⟨v', hrecv, htog⟩ := Verifier.multFlush_together (eventually_fills hR _) h
    exact ⟨_, _, v', rfl, hrecv, htog⟩

end Steps

/-! ## What is recorded

The buffers are emptied by a check, so that they hold the last of the triples. -/

section Buffers

omit [Field F] in
theorem Prover.multGate_checkIfFull (p : ProverState F PendingWire C.usable) :
    (checkIfFull C p).1.multGate <:+ p.multGate := by
  rw [checkIfFull]
  split
  · exact List.nil_suffix
  · exact List.suffix_refl _

theorem Prover.multGate_share (val : F) (p : ProverState F PendingWire C.usable) :
    (share C val p).1.multGate <:+ p.multGate := by
  rw [share]
  split
  · exact multGate_checkIfFull _
  · exact List.suffix_refl _

theorem Prover.multGate_shareFlush (p : ProverState F PendingWire C.usable) :
    (shareFlush C p).1.multGate <:+ p.multGate := by
  rw [shareFlush]
  split
  · exact multGate_checkIfFull _
  · exact List.suffix_refl _

theorem Prover.multGate_multFlush (p : ProverState F PendingWire C.usable) :
    (multFlush C p).1.multGate <:+ p.multGate := by
  rw [multFlush]
  split
  · exact List.nil_suffix
  · exact multGate_shareFlush p

/-- A gate adds its triple to the buffer of the prover. -/
theorem Prover.multGate_step {g : Gate F} {p p' : ProverState F PendingWire C.usable}
    {pm pm' : ℕ → F} {msgs : List (ℕ → Msg F)} (h : step C g (p, pm) = some ((p', pm'), msgs)) :
    p'.multGate.map Prod.snd <:+ p.multGate.map Prod.snd ++ g.triple pm := by
  cases g with
  | input out val =>
    cases h
    simpa [Gate.triple] using (multGate_share val p).map Prod.snd
  | add res lhs rhs =>
    cases h
    simp [Gate.triple]
  | mult res lhs rhs =>
    rw [step, computeMult, mult] at h
    split at h
    · cases h
      let w : PendingWire := ⟨res, some (lhs, rhs)⟩
      let t : Triple F := ⟨pm lhs, pm rhs, pm lhs * pm rhs⟩
      simpa [Gate.triple] using (multGate_share (pm lhs * pm rhs)
        { p with multGate := p.multGate ++ [(w, t)] }).map Prod.snd
    · cases h
  | flush =>
    cases h
    simpa [Gate.triple] using (multGate_shareFlush p).map Prod.snd
  | finalize =>
    cases h
    simpa [Gate.triple] using (multGate_multFlush p).map Prod.snd

/-- The buffer of a verifier holds the last of its triples. -/
def Verifier.Logged (v : VerifierState F PendingWire (LogMem F) C.usable) : Prop :=
  v.multGate.map Prod.snd <:+ v.mem.2

namespace Verifier

variable {i : ℕ} {v : VerifierState F PendingWire (LogMem F) C.usable} {queue : List (Msg F)}
  {r : VerifierState F PendingWire (LogMem F) C.usable × List (Msg F)}

omit [Field F] in
theorem verifyAuthTriple_logged (h : verifyAuthTriple C v queue = some r) : Logged r.1 := by
  obtain ⟨queue', -, h⟩ := Option.bind_eq_some_iff.mp h
  obtain ⟨_, -, rfl⟩ := Option.map_eq_some_iff.mp h
  exact List.nil_suffix

omit [Field F] in
theorem checkIfFull_logged (hv : Logged v) (h : checkIfFull C v queue = some r) : Logged r.1 := by
  rw [checkIfFull] at h
  split at h
  · exact verifyAuthTriple_logged h
  · cases h
    exact hv

omit [Field F] in
theorem fillWires_logged {shares : ℕ → AuthShare F} {ws : List PendingWire} {slot : ℕ}
    {v' : VerifierState F PendingWire (LogMem F) C.usable} (hv : Logged v)
    (h : fillWires C fillLog shares ws slot v = some v') : Logged v' := by
  induction ws generalizing slot v with
  | nil =>
    cases h
    exact hv
  | cons w ws ih =>
    obtain ⟨⟨m, t⟩, hfill, h⟩ := Option.bind_eq_some_iff.mp h
    obtain ⟨v₁, hmult, h⟩ := Option.bind_eq_some_iff.mp h
    refine ih ?_ h
    cases hfill
    cases hw : w.inputs with
    | none =>
      rw [hw] at hmult
      cases hmult
      show v.multGate.map Prod.snd <:+ v.mem.2 ++ []
      rw [List.append_nil]
      exact hv
    | some lr =>
      rw [hw] at hmult
      obtain ⟨-, heq⟩ := Option.ite_none_right_eq_some.mp hmult
      cases heq
      show (v.multGate ++ [_]).map Prod.snd <:+ v.mem.2 ++ [_]
      rw [List.map_append]
      exact List.suffix_append_self_iff.mpr hv

theorem shareBatch_logged (hv : Logged v) (h : shareBatch C fillLog i v queue = some r) :
    Logged r.1 := by
  obtain ⟨e, -, h⟩ := Option.bind_eq_some_iff.mp h
  obtain ⟨s, -, h⟩ := Option.bind_eq_some_iff.mp h
  obtain ⟨v', hfill, h⟩ := Option.bind_eq_some_iff.mp h
  have hv' : Logged v' := fillWires_logged (v := { v with pre := e.1.advance 1 }) hv hfill
  exact checkIfFull_logged (v := { v' with wires := [], batchesDone := v'.batchesDone + 1 }) hv' h

theorem share_logged {w : PendingWire} (hv : Logged v)
    (h : share C fillLog i w v queue = some r) : Logged r.1 := by
  rw [share] at h
  split at h
  · exact shareBatch_logged (v := { v with wires := v.wires ++ [w] }) hv h
  · cases h
    exact hv

theorem shareFlush_logged (hv : Logged v) (h : shareFlush C fillLog i v queue = some r) :
    Logged r.1 := by
  rw [shareFlush] at h
  split at h
  · exact shareBatch_logged hv h
  · cases h
    exact hv

theorem stepLog_logged {g : Gate F} (hv : Logged v) (h : stepLog C i g v queue = some r) :
    Logged r.1 := by
  cases g with
  | input out val => exact share_logged hv h
  | add res lhs rhs =>
    cases h
    exact hv
  | mult res lhs rhs => exact share_logged hv h
  | flush => exact shareFlush_logged hv h
  | finalize =>
    obtain ⟨r', hflush, h⟩ := Option.bind_eq_some_iff.mp h
    split at h
    · exact verifyAuthTriple_logged h
    · cases h
      exact shareFlush_logged hv hflush

end Verifier

end Buffers

/-! ## Every program -/

/-- The verifiers at the start of a session, with no triples. -/
def Verifier.startLog (C : BackendConfig F) (_ : ℕ) :
    VerifierState F PendingWire (LogMem F) C.usable := init C.usable (fun _ => 0, [])

/-- The runs without the triples. -/
theorem runs_step {gates : List (Gate F)} {p : ProverState F PendingWire C.usable × (ℕ → F)}
    {v : ℕ → VerifierState F PendingWire (LogMem F) C.usable}
    (h : Lockstep.Runs (Prover.step C) (Verifier.stepLog C) gates (Prover.start C fun _ => 0)
      (Verifier.startLog C) p v) :
    Lockstep.Runs (Prover.step C) (Verifier.step C) gates (Prover.start C fun _ => 0)
      (Verifier.start C fun _ _ => 0) p (fun i => (v i).mapMem Prod.fst) := by
  obtain ⟨msgs, hsend, hrecv⟩ := h
  refine ⟨msgs, hsend, fun i rest => ?_⟩
  have hstart : Verifier.start C (fun _ _ => 0) i = (Verifier.startLog C i).mapMem Prod.fst := rfl
  rw [hstart, Verifier.recvRun_eq_stepLog, hrecv i rest]
  rfl

theorem eventually_start (C : BackendConfig F) :
    Together C PendingWire.isMult (Eventually C (fun _ => 0, [])) (Prover.start C fun _ => 0).1
      (Verifier.startLog C) [] where
  pre _ := rfl
  wires _ := rfl
  wiresVal := rfl
  gates _ := rfl
  batchesDone _ := rfl
  checks _ := rfl
  room _ := (by decide : 0 < multGateBufSz)
  pending := Poly.k_pos _
  data := by
    refine ⟨fun _ => 0, [], [], fun c => ⟨?_, ?_⟩, fun _ => rfl, .nil, rfl, rfl⟩
    · exact sum_const_zero
    · simp [Verifier.startLog, Verifier.init]

/-- **A run** that meets no hazard. -/
theorem run_eventually (hR : C.Right) (gates : List (Gate F))
    (hread : Gate.Along Gate.Readable C.poly.k gates [])
    (hhaz : Gate.Along Gate.Hazardless C.poly.k gates []) :
    ∃ p v, Lockstep.Runs (Prover.step C) (Verifier.stepLog C) gates (Prover.start C fun _ => 0)
        (Verifier.startLog C) p v ∧
      Together C PendingWire.isMult (Eventually C (p.2, Gate.recorded gates fun _ => 0)) p.1 v
        (gates.foldl (Gate.pending C.poly.k) []) ∧
      p.1.multGate.map Prod.snd <:+ Gate.recorded gates (fun _ => 0) ∧
      ∀ i, Verifier.Logged (v i) := by
  obtain ⟨p, msgs, v, hsend, hrecv, ws, ts, -, -, hws, hts, htog, hbuf, hlog⟩ :=
    Lockstep.run_in_step (Prover.step C) (Verifier.stepLog C)
      (fun rest s v => ∃ ws ts, Gate.Along Gate.Readable C.poly.k rest ws ∧
        Gate.Along Gate.Hazardless C.poly.k rest ws ∧
        rest.foldl (Gate.pending C.poly.k) ws = gates.foldl (Gate.pending C.poly.k) [] ∧
        ts ++ Gate.recorded rest s.2 = Gate.recorded gates (fun _ => 0) ∧
        Together C PendingWire.isMult (Eventually C (s.2, ts)) s.1 v ws ∧
        s.1.multGate.map Prod.snd <:+ ts ∧ ∀ i, Verifier.Logged (v i))
      (fun g rest s v hrel => by
        obtain ⟨ws, ts, ⟨hread, hreads⟩, ⟨hhaz, hhazs⟩, hws, hts, htog, hbuf, hlog⟩ := hrel
        obtain ⟨p', msgs, v', hsend, hrecv, htog'⟩ :=
          step_eventually hR s.2 hread hhaz htog
        rw [Gate.eventually_eq] at htog'
        refine ⟨_, msgs, v', hsend, hrecv, _, _, hreads, hhazs, hws, ?_, htog', ?_, fun i => ?_⟩
        · rw [List.append_assoc]
          exact hts
        · exact (Prover.multGate_step hsend).trans (List.suffix_append_self_iff.mpr hbuf)
        · exact Verifier.stepLog_logged (hlog i) (hrecv i []))
      gates (s := Prover.start C fun _ => 0) (r := Verifier.startLog C)
      ⟨[], [], hread, hhaz, rfl, rfl, eventually_start C, List.nil_suffix,
        fun _ => List.nil_suffix⟩
  rw [Gate.recorded, List.append_nil] at hts
  subst hts
  rw [List.foldl_nil] at hws
  subst hws
  exact ⟨p, v, ⟨msgs, hsend, hrecv⟩, htog, hbuf, hlog⟩

omit [Field F] in
theorem Gate.pending_flush {k : ℕ} {gates : List (Gate F)} (h : gates.getLast? = some .flush) :
    gates.foldl (Gate.pending k) [] = [] := by
  obtain ⟨before, rfl⟩ := List.getLast?_eq_some_iff.mp h
  rw [List.foldl_append]
  rfl

/-- **Every program whose additions do not read pending wires, and do not overwrite pending wires or
what pending multiplications read.**  In every state of a run the wires that are not pending are
shared, and the verifiers have recorded sharings of the first triples of the prover; after a flush
this is true of every wire and of all triples. -/
theorem programs_agree {logK logN : ℕ} (hlt : logK < logN) (hle : logN ≤ 26)
    (C : BackendConfig (ZMod P59)) (hpoly : Poly.init logK logN = some C.poly)
    (htab : C.poly.initLagrangeTable = some C.tab) (hvole : C.Vole) (gates : List (Gate (ZMod P59)))
    (hread : Gate.Along Gate.Readable C.poly.k gates [])
    (hhaz : Gate.Along Gate.Hazardless C.poly.k gates []) :
    ∃ p v, ∃ T : List (ℕ → Triple (AuthShare (ZMod P59))), ∃ ts : List (Triple (ZMod P59)),
      Lockstep.Runs (Prover.step C) (Verifier.stepLog C) gates (Prover.start C fun _ => 0)
        (Verifier.startLog C) p v ∧
      Lockstep.Runs (Prover.step C) (Verifier.step C) gates (Prover.start C fun _ => 0)
        (Verifier.start C fun _ _ => 0) p (fun i => (v i).mapMem Prod.fst) ∧
      (∀ i, (v i).wires = gates.foldl (Gate.pending C.poly.k) []) ∧
      (∀ c, c ∉ (gates.foldl (Gate.pending C.poly.k) []).map PendingWire.out →
        Shared C.poly.n C.delta (fun i => (v i).mem.1 c) (p.2 c)) ∧
      (∀ i, (v i).mem.2 = T.map (· i)) ∧
      List.Forall₂ (Triple.SharedBy C.poly.n C.delta) T ts ∧
      ts <+: Gate.recorded gates (fun _ => 0) ∧
      p.1.multGate.map Prod.snd <:+ Gate.recorded gates (fun _ => 0) ∧
      (∀ i, (v i).multGate.map Prod.snd <:+ (v i).mem.2) ∧
      (gates.getLast? = some .flush →
        (∀ c, Shared C.poly.n C.delta (fun i => (v i).mem.1 c) (p.2 c)) ∧
        ts = Gate.recorded gates fun _ => 0) := by
  have hR := BackendConfig.right_of_init hlt hle hpoly htab hvole
  obtain ⟨p, v, hruns, htog, hbuf, hlog⟩ := run_eventually hR gates hread hhaz
  obtain ⟨view, T, ts, hmem, hT, hshared, hview, hts⟩ := htog.data
  dsimp only at hview hts
  refine ⟨p, v, T, ts, hruns, runs_step hruns, htog.wires, fun c hc => ?_, hT, hshared, ⟨_, hts⟩,
    hbuf, hlog, fun hflush => ?_⟩
  · rw [← hview, fillVars_of_notMem hc]
    exact hmem c
  · rw [Gate.pending_flush hflush] at hview hts
    refine ⟨fun c => ?_, ?_⟩
    · rw [← hview]
      exact hmem c
    · rw [← hts]
      exact (List.append_nil _).symm

theorem programs_agree_two : ∃ C : BackendConfig (ZMod P59), Poly.init 1 2 = some C.poly ∧
    ∃ p v, Lockstep.Runs (Prover.step C) (Verifier.step C)
        [.input 0 5, .input 1 7, .mult 2 0 1, .mult 2 2 2, .add 0 2 1, .flush]
        (Prover.start C fun _ => 0) (Verifier.start C fun _ _ => 0) p v ∧
      Shared C.poly.n C.delta (fun i => (v i).mem 0) (p.2 0) := by
  obtain ⟨poly, tab, hpoly, htab⟩ := Poly.init_tables_ok (show 1 < 2 by decide) (by decide)
  obtain ⟨-, hlogK, -⟩ := Poly.init_eq_some hpoly
  let C := constBackend poly tab
  have hk : C.poly.k = 2 := by
    show poly.k = 2
    rw [Poly.k, hlogK, pow_one]
  obtain ⟨p, v, T, ts, -, hruns, -, -, -, -, -, -, -, hflush⟩ :=
    programs_agree (by decide) (by decide) C hpoly htab (constBackend_vole poly tab)
      [.input 0 5, .input 1 7, .mult 2 0 1, .mult 2 2 2, .add 0 2 1, .flush]
      (by simp [Gate.Along, Gate.Readable, Gate.pending, hk])
      (by simp [Gate.Along, Gate.Hazardless, Gate.pending, hk])
  exact ⟨C, hpoly, p, _, hruns, (hflush rfl).1 0⟩

/-! ## Hazards -/

/-- The wire that an addition writes is pending, and its sum is lost. -/
theorem sum_lost {C : BackendConfig (ZMod P59)} (hR : C.Right) (hk : C.poly.k = 2) :
    ∃ p v, Lockstep.Runs (Prover.step C) (Verifier.step C) [.input 0 1, .add 0 1 1, .flush]
        (Prover.start C fun _ => 0) (Verifier.start C fun _ _ => 0) p v ∧
      ∑ i ∈ range C.poly.n, ((v i).mem 0).share ≠ p.2 0 := by
  obtain ⟨p₁, msgs₁, v₁, hs₁, hr₁, h₁⟩ := step_eventually hR (fun _ => 0) (g := .input 0 1)
    trivial trivial (eventually_start C)
  have hws : Gate.pending C.poly.k [] (.input 0 1 : Gate (ZMod P59)) = [⟨0, none⟩] := by
    simp [Gate.pending, hk]
  rw [hws] at h₁
  obtain ⟨view, T, ts, hmem, hT, hshared, hview, hts⟩ := h₁.data
  have hlost : Function.update (Function.update view 0 (view 1 + view 1)) 0
      (p₁.wiresVal.getD 0 0) = Function.update view 0 (p₁.wiresVal.getD 0 0) :=
    Function.update_idem _ _ _
  have hdata : Eventually C (Gate.eventually (fun _ => 0) (.input 0 1) (fun _ => 0, []))
      [⟨0, none⟩] p₁.wiresVal fun i =>
        (Function.update (v₁ i).mem.1 0 ((v₁ i).mem.1 1 + (v₁ i).mem.1 1), (v₁ i).mem.2) :=
    ⟨Function.update view 0 (view 1 + view 1), T, ts,
      shared_update hmem 0 ((hmem 1).add (hmem 1)), hT, hshared, hlost.trans hview, hts⟩
  obtain ⟨p₂, msgs₂, v₂, hs₂, hr₂, h₂⟩ := step_eventually hR
    (Gate.value (.add 0 1 1) (Gate.value (.input 0 1) fun _ => 0)) (g := .flush) trivial trivial
      (h₁.setMem hdata)
  have hstep : Prover.step C (.add 0 1 1) (p₁, Gate.value (.input 0 1) fun _ => 0)
      = some ((p₁, Gate.value (.add 0 1 1) (Gate.value (.input 0 1) fun _ => 0)), []) := rfl
  have hruns : Lockstep.Runs (Prover.step C) (Verifier.stepLog C) [.input 0 1, .add 0 1 1, .flush]
      (Prover.start C fun _ => 0) (Verifier.startLog C) _ v₂ :=
    .cons hs₁ hr₁ (.cons hstep (fun _ _ => rfl) (.cons hs₂ hr₂ (.nil _ _)))
  refine ⟨_, _, runs_step hruns, ?_⟩
  obtain ⟨view', T', ts', hmem', -, -, hview', -⟩ := h₂.data
  have hone : view' 0 = 1 := by
    simpa [Gate.pending, fillVars, Gate.eventually] using congrFun hview' 0
  have hzero : Gate.value (.add 0 1 1) (Gate.value (.input 0 1) fun _ => 0) 0
      = (0 : ZMod P59) := by simp [Gate.value]
  intro heq
  exact one_ne_zero (hone.symm.trans ((hmem' 0).share_sum.symm.trans (heq.trans hzero)))

/-- The left factor of a pending product is overwritten before it is read. -/
theorem factor_lost {C : BackendConfig (ZMod P59)} (hR : C.Right) (hk : C.poly.k = 2) :
    ∃ p v, Lockstep.Runs (Prover.step C) (Verifier.stepLog C)
        [.input 0 0, .input 1 1, .mult 2 0 1, .add 0 0 1, .flush]
        (Prover.start C fun _ => 0) (Verifier.startLog C) p v ∧
      ∃ (T : ℕ → Triple (AuthShare (ZMod P59))) (t : Triple (ZMod P59)),
        (∀ i, (v i).mem.2 = [T i]) ∧
        Gate.recorded [.input 0 0, .input 1 1, .mult 2 0 1, .add 0 0 1, .flush] (fun _ => 0)
          = [t] ∧
        ∑ i ∈ range C.poly.n, (T i).x.share ≠ t.x := by
  obtain ⟨p₁, msgs₁, v₁, hs₁, hr₁, h₁⟩ := step_eventually hR (fun _ => 0) (g := .input 0 0)
    trivial trivial (eventually_start C)
  obtain ⟨p₂, msgs₂, v₂, hs₂, hr₂, h₂⟩ := step_eventually hR
    (Gate.value (.input 0 0) fun _ => 0) (g := .input 1 1) trivial trivial h₁
  let pm : ℕ → ZMod P59 := Gate.value (.input 1 1) (Gate.value (.input 0 0) fun _ => 0)
  obtain ⟨p₃, msgs₃, v₃, hs₃, hr₃, h₃⟩ := step_eventually hR pm (g := .mult 2 0 1)
    trivial trivial h₂
  have hws : Gate.pending C.poly.k (Gate.pending C.poly.k (Gate.pending C.poly.k []
      (.input 0 0 : Gate (ZMod P59))) (.input 1 1 : Gate (ZMod P59)))
        (.mult 2 0 1 : Gate (ZMod P59)) = [⟨2, some (0, 1)⟩] := by
    simp [Gate.pending, hk]
  rw [hws] at h₃
  obtain ⟨view, T, ts, hmem, hT, hshared, hview, hts⟩ := h₃.data
  have hfill : ts ++ [⟨view 0, view 1, p₃.wiresVal.getD 0 0⟩]
      = [] ++ [(⟨0, 1, 0⟩ : Triple (ZMod P59))] := by
    refine Eq.trans hts ?_
    simp [Gate.eventually, pm, Gate.value]
  obtain ⟨hnil, hlast⟩ := List.append_inj' hfill rfl
  obtain ⟨hzero, hone, hprod⟩ := Triple.mk.inj (List.singleton_inj.mp hlast)
  let view₄ := Function.update view 0 (view 0 + view 1)
  have hdata : Eventually C (Function.update view₄ 2 0, [⟨1, 1, 0⟩]) [⟨2, some (0, 1)⟩]
      p₃.wiresVal fun i =>
        (Function.update (v₃ i).mem.1 0 ((v₃ i).mem.1 0 + (v₃ i).mem.1 1), (v₃ i).mem.2) := by
    refine ⟨view₄, T, ts, shared_update hmem 0 ((hmem 0).add (hmem 1)), hT, hshared, ?_, ?_⟩
    · show Function.update view₄ 2 (p₃.wiresVal.getD 0 0) = Function.update view₄ 2 0
      rw [hprod]
    · show ts ++ [⟨view₄ 0, view₄ 1, p₃.wiresVal.getD 0 0⟩] = _
      rw [hnil, hprod]
      simp [view₄, hzero, hone]
  obtain ⟨p₅, msgs₅, v₅, hs₅, hr₅, h₅⟩ := step_eventually hR
    (Gate.value (.add 0 0 1) (Gate.value (.mult 2 0 1) pm)) (g := .flush) trivial trivial
      (h₃.setMem hdata)
  have hstep : Prover.step C (.add 0 0 1) (p₃, Gate.value (.mult 2 0 1) pm)
      = some ((p₃, Gate.value (.add 0 0 1) (Gate.value (.mult 2 0 1) pm)), []) := rfl
  have hruns : Lockstep.Runs (Prover.step C) (Verifier.stepLog C)
      [.input 0 0, .input 1 1, .mult 2 0 1, .add 0 0 1, .flush]
      (Prover.start C fun _ => 0) (Verifier.startLog C) _ v₅ :=
    .cons hs₁ hr₁ (.cons hs₂ hr₂ (.cons hs₃ hr₃ (.cons hstep (fun _ _ => rfl)
      (.cons hs₅ hr₅ (.nil _ _)))))
  obtain ⟨view', T', ts', -, hT', hshared', -, hts'⟩ := h₅.data
  have hts₅ : ts' = [⟨1, 1, 0⟩] := by
    simpa [Gate.pending, fillVars, Gate.eventually] using hts'
  subst hts₅
  obtain ⟨T₀, T₁, hT₀, hT₁, rfl⟩ := List.forall₂_cons_right_iff.mp hshared'
  rw [List.forall₂_nil_right_iff.mp hT₁] at hT'
  refine ⟨_, v₅, hruns, T₀, ⟨0, 1, 0⟩, hT', ?_, fun heq => ?_⟩
  · simp [Gate.recorded, Gate.triple, Gate.value]
  · exact one_ne_zero (hT₀.x.share_sum.symm.trans heq)

/-- **An addition that overwrites a pending wire, and one that overwrites a factor of a pending
product.**  Both programs do what they are told: they do not read pending wires.  The first ends
with a wire that the verifiers share as 1 and the prover has as 0, the second with a recorded
triple whose left factor they share as 1 and the prover has as 0. -/
theorem programs_disagree : ∃ C : BackendConfig (ZMod P59), Poly.init 1 2 = some C.poly ∧
    C.poly.initLagrangeTable = some C.tab ∧ C.Vole ∧
    (Gate.Along Gate.Readable C.poly.k
        ([.input 0 1, .add 0 1 1, .flush] : List (Gate (ZMod P59))) [] ∧
      ∃ p v, Lockstep.Runs (Prover.step C) (Verifier.step C) [.input 0 1, .add 0 1 1, .flush]
          (Prover.start C fun _ => 0) (Verifier.start C fun _ _ => 0) p v ∧
        ∑ i ∈ range C.poly.n, ((v i).mem 0).share ≠ p.2 0) ∧
    Gate.Along Gate.Readable C.poly.k
        ([.input 0 0, .input 1 1, .mult 2 0 1, .add 0 0 1, .flush] : List (Gate (ZMod P59))) [] ∧
      ∃ p v, Lockstep.Runs (Prover.step C) (Verifier.stepLog C)
          [.input 0 0, .input 1 1, .mult 2 0 1, .add 0 0 1, .flush]
          (Prover.start C fun _ => 0) (Verifier.startLog C) p v ∧
        ∃ (T : ℕ → Triple (AuthShare (ZMod P59))) (t : Triple (ZMod P59)),
          (∀ i, (v i).mem.2 = [T i]) ∧
          Gate.recorded [.input 0 0, .input 1 1, .mult 2 0 1, .add 0 0 1, .flush] (fun _ => 0)
            = [t] ∧
          ∑ i ∈ range C.poly.n, (T i).x.share ≠ t.x := by
  obtain ⟨poly, tab, hpoly, htab⟩ := Poly.init_tables_ok (show 1 < 2 by decide) (by decide)
  obtain ⟨-, hlogK, -⟩ := Poly.init_eq_some hpoly
  let C := constBackend poly tab
  have hvole : C.Vole := constBackend_vole poly tab
  have hk : C.poly.k = 2 := by
    show poly.k = 2
    rw [Poly.k, hlogK, pow_one]
  have hR := BackendConfig.right_of_init (by decide : 1 < 2) (by decide) hpoly htab hvole
  refine ⟨C, hpoly, htab, hvole, ⟨?_, sum_lost hR hk⟩, ?_, factor_lost hR hk⟩
  · simp [Gate.Along, Gate.Readable, Gate.pending, hk]
  · simp [Gate.Along, Gate.Readable, Gate.pending, hk]

end VoleZk.Mvzk
