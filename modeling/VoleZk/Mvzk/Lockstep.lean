import VoleZk.Mvzk.Backend

/-!
# Prover and verifiers stay in lockstep

The prover records a multiplication when the gate is issued, a verifier when the batch with its
product has arrived, so that the prover is ahead by the multiplications among the pending wires.
At the end of a batch there are none.  Everything else that decides what a party does next is the
same on all parties: the preprocessed sharings, the number of pending wires, the number of batches.

## What is here

* `InStep`, the relation between the prover and the verifiers;
* `Verifier.shareBatch_in_step`, `Verifier.verifyAuthTriple_in_step` — **a batch and a check**;
* `Fills`, what the users of the backend promise, and `Together`, the parties between two calls;
* `Verifier.share_together`, `shareFlush_together`, `multFlush_together` — **one call of the
  backend**, for every kind of wire.
-/

set_option autoImplicit false

open Finset

namespace VoleZk.Mvzk

/-! ## Preprocessed sharings -/

theorem Msg.recvExtend_replicate {F : Type*} (cnt : ℕ) (rest : List (Msg F)) :
    recvExtend cnt (List.replicate cnt .extend ++ rest) = some rest := by
  induction cnt with
  | zero => rfl
  | succ cnt ih => exact ih

variable {F W M : Type*} [Field F] (C : BackendConfig F)

omit [Field F] in
/-- A verifier extends when the prover does. -/
theorem Verifier.ensurePreAuth_in_step (num : ℕ) (pre : PreAuthSharing C.usable) (i : ℕ)
    (rest : List (Msg F)) :
    ensurePreAuth C num pre ((Prover.ensurePreAuth C num pre).2.map (· i) ++ rest)
      = some ((Prover.ensurePreAuth C num pre).1, rest) := by
  rw [ensurePreAuth, Prover.ensurePreAuth, List.map_replicate, Msg.recvExtend_replicate]
  rfl

/-- What was made sure of once need not be made sure of again. -/
theorem PreAuthSharing.ensure_ensure {usable : ℕ} (hpos : 0 < usable) {num : ℕ}
    (hnum : num ≤ preAuthSharingNum) (pre : PreAuthSharing usable) :
    (pre.ensure hpos num).ensure hpos num = pre.ensure hpos num := by
  rw [ensure.eq_1 hpos num (pre.ensure hpos num), if_neg]
  rw [ensure]
  split
  · exact not_lt.mpr ((Nat.zero_add num).trans_le hnum)
  · assumption

omit [Field F] in
theorem Verifier.ensurePreAuth_again {num : ℕ} (hnum : num ≤ preAuthSharingNum)
    (pre : PreAuthSharing C.usable) (queue : List (Msg F)) :
    ensurePreAuth C num (pre.ensure C.usable_pos num) queue
      = some (pre.ensure C.usable_pos num, queue) := by
  rw [ensurePreAuth, PreAuthSharing.ensure_ensure C.usable_pos hnum, PreAuthSharing.extensions,
    Nat.sub_self]
  rfl

/-! ## The check -/

theorem le_of_mem_foldLens {lenSlice len : ℕ} (h : len ∈ foldLens lenSlice) :
    len ≤ 2 * compressParam + 2 := by
  induction lenSlice using foldLens.induct with
  | case1 lenSlice hmore ih =>
    rw [foldLens, if_pos hmore, List.mem_cons] at h
    rcases h with rfl | h
    · exact (Nat.sub_le _ _).trans (Nat.le_add_right _ _)
    · exact ih h
  | case2 lenSlice hmore =>
    rw [foldLens, if_neg hmore] at h
    exact absurd h List.not_mem_nil

theorem le_of_mem_checkLens {cnt len : ℕ} (h : len ∈ checkLens cnt) :
    len ≤ 2 * compressParam + 2 := by
  rcases List.mem_append.mp h with h | h
  · exact le_of_mem_foldLens h
  · exact (List.mem_singleton.mp h).le

/-- The values of a round fit the sharings of a refill. -/
theorem nBatch_le {k len : ℕ} (hlen : len ≤ 2 * compressParam + 2) :
    (len + k - 1) / k ≤ preAuthSharingNum := by
  rcases Nat.eq_zero_or_pos k with rfl | hk
  · rw [Nat.div_zero]
    exact Nat.zero_le _
  · have hle : (len + k - 1) / k ≤ len := by
      rw [Nat.div_le_iff_le_mul_add_pred hk]
      have := Nat.le_mul_of_pos_left len hk
      omega
    exact hle.trans (hlen.trans (by decide))

omit [Field F] in
theorem Verifier.recvDiffs_in_step {lens : List ℕ}
    (hlens : ∀ len ∈ lens, len ≤ 2 * compressParam + 2) (pre : PreAuthSharing C.usable) (i : ℕ)
    (rest : List (Msg F)) :
    recvDiffs C lens pre ((Prover.sendDiffs C lens pre).2.map (· i) ++ rest)
      = some ((Prover.sendDiffs C lens pre).1, rest) := by
  induction lens generalizing pre with
  | nil => rfl
  | cons len lens ih =>
    have hnum := nBatch_le (k := C.poly.k) (hlens len List.mem_cons_self)
    have hdiff : ∀ queue : List (Msg F), Msg.recvDiff len (.diff len :: queue) = some queue :=
      fun queue => if_pos rfl
    rw [recvDiffs, Prover.sendDiffs]
    simp only [List.map_append, List.map_cons, List.append_assoc, List.cons_append]
    rw [ensurePreAuth_in_step, Option.bind_some, hdiff, Option.bind_some]
    show ((ensurePreAuth C _ (pre.ensure C.usable_pos _) _).bind _) = _
    rw [ensurePreAuth_again C hnum, Option.bind_some]
    exact ih (fun l hl => hlens l (List.mem_cons_of_mem len hl)) _

/-! ## The relation -/

/-- The prover and the verifiers between two calls, with the pending wires `ws`: the prover is ahead
by the multiplications among them. -/
structure InStep (isMult : W → Bool) (p : ProverState F W C.usable)
    (v : ℕ → VerifierState F W M C.usable) (ws : List W) : Prop where
  /-- The preprocessed sharings. -/
  pre : ∀ i, (v i).pre = p.pre
  /-- The pending wires of the verifiers. -/
  wires : ∀ i, (v i).wires = ws
  /-- The pending wires of the prover. -/
  wiresVal : p.wiresVal.length = ws.length
  /-- The recorded gates. -/
  gates : ∀ i, p.multGate.map Prod.fst = (v i).multGate.map Prod.fst ++ ws.filter isMult
  /-- The batches. -/
  batchesDone : ∀ i, (v i).batchesDone = p.batchesDone
  /-- The checks. -/
  checks : ∀ i, (v i).checks = p.checks

/-- No verifier is due to check. -/
def Room (v : ℕ → VerifierState F W M C.usable) : Prop :=
  ∀ i, (v i).multGate.length < multGateBufSz

section Calls

variable {C} {isMult : W → Bool} {p : ProverState F W C.usable}
  {v : ℕ → VerifierState F W M C.usable} {ws : List W}

omit [Field F] in
theorem InStep.gates_length (h : InStep C isMult p v ws) (i : ℕ) :
    p.multGate.length = (v i).multGate.length + (ws.filter isMult).length := by
  have hlen := congrArg List.length (h.gates i)
  rwa [List.length_map, List.length_append, List.length_map] at hlen

omit [Field F] in
/-- A wire that is no multiplication becomes pending. -/
theorem InStep.input (h : InStep C isMult p v ws) {w : W} (hw : isMult w = false) (val : F) :
    InStep C isMult { p with wiresVal := p.wiresVal ++ [val] }
      (fun i => { v i with wires := (v i).wires ++ [w] }) (ws ++ [w]) :=
  { h with
    wires := fun i => congrArg (· ++ [w]) (h.wires i)
    wiresVal := by
      rw [List.length_append, List.length_append, h.wiresVal]
      rfl
    gates := fun i => by
      rw [List.filter_append, List.filter_singleton, hw, ← List.append_assoc, ← h.gates i]
      exact (List.append_nil _).symm }

omit [Field F] in
/-- A multiplication is recorded at the prover, and its wire becomes pending. -/
theorem InStep.mult (h : InStep C isMult p v ws) {w : W} (hw : isMult w = true) (t : Triple F)
    (val : F) :
    InStep C isMult
      { p with multGate := p.multGate ++ [(w, t)], wiresVal := p.wiresVal ++ [val] }
      (fun i => { v i with wires := (v i).wires ++ [w] }) (ws ++ [w]) :=
  { h with
    wires := fun i => congrArg (· ++ [w]) (h.wires i)
    wiresVal := by
      rw [List.length_append, List.length_append, h.wiresVal]
      rfl
    gates := fun i => by
      rw [List.filter_append, List.filter_singleton, hw, ← List.append_assoc, ← h.gates i,
        List.map_append]
      rfl }

omit [Field F] in
/-- There is room for a multiplication. -/
theorem Prover.mult_eq (h : InStep C isMult p v ws) (hroom : Room C v) (hlen : ws.length < C.poly.k)
    (w : W) (t : Triple F) :
    mult C w t p = some { p with multGate := p.multGate ++ [(w, t)] } := by
  have hle := (List.length_filter_le isMult ws).trans_lt hlen
  refine if_pos ?_
  rw [h.gates_length 0]
  exact Nat.add_lt_add (hroom 0) hle

omit [Field F] in
/-- **Both sides check the same gates**, once no wire is pending. -/
theorem Verifier.verifyAuthTriple_in_step (h : InStep C isMult p v []) :
    ∃ v', (∀ i rest, verifyAuthTriple C (v i)
        ((Prover.verifyAuthTriple C p).2.map (· i) ++ rest) = some (v' i, rest)) ∧
      InStep C isMult (Prover.verifyAuthTriple C p).1 v' [] ∧ Room C v' ∧
      ∀ i, (v' i).mem = (v i).mem := by
  have hnames : ∀ i, (v i).multGate.map Prod.fst = p.multGate.map Prod.fst := fun i => by
    rw [h.gates i, List.filter_nil, List.append_nil]
  refine ⟨fun i => { v i with
      pre := (Prover.verifyAuthTriple C p).1.pre
      multGate := []
      checks := (v i).checks ++ [((v i).batchesDone, (v i).multGate.map Prod.fst)] },
    fun i rest => ?_, ?_, fun _ => (by decide : 0 < multGateBufSz), fun _ => rfl⟩
  · have hcnt : (v i).multGate.length = p.multGate.length := (h.gates_length i).symm
    have hcoms : ∀ queue : List (Msg F),
        Msg.recvComs (2 * C.poly.n) (.coms (2 * C.poly.n) :: queue) = some queue := fun queue =>
      if_pos rfl
    rw [verifyAuthTriple, Prover.verifyAuthTriple, List.map_cons, List.cons_append, hcoms,
      Option.bind_some, h.pre i, hcnt, recvDiffs_in_step C fun _ => le_of_mem_checkLens]
    rfl
  · exact ⟨fun _ => rfl, h.wires, h.wiresVal, fun _ => rfl, h.batchesDone, fun i => by
      rw [h.checks i, h.batchesDone i, hnames i]
      rfl⟩

omit [Field F] in
theorem Verifier.checkIfFull_in_step (h : InStep C isMult p v []) :
    ∃ v', (∀ i rest, checkIfFull C (v i)
        ((Prover.checkIfFull C p).2.map (· i) ++ rest) = some (v' i, rest)) ∧
      InStep C isMult (Prover.checkIfFull C p).1 v' [] ∧ Room C v' ∧
      ∀ i, (v' i).mem = (v i).mem := by
  have hcnt : ∀ i, (v i).multGate.length = p.multGate.length := fun i => (h.gates_length i).symm
  by_cases hfull : p.multGate.length ≥ multGateBufSz
  · obtain ⟨v', hrecv, hstep, hroom, hmem⟩ := verifyAuthTriple_in_step h
    refine ⟨v', fun i rest => ?_, ?_, hroom, hmem⟩
    · rw [checkIfFull, if_pos ((hcnt i).symm ▸ hfull), Prover.checkIfFull, if_pos hfull]
      exact hrecv i rest
    · rwa [Prover.checkIfFull, if_pos hfull]
  · refine ⟨v, fun i rest => ?_, ?_, fun i => not_le.mp ((hcnt i).symm ▸ hfull), fun _ => rfl⟩
    · rw [checkIfFull, if_neg ((hcnt i).symm ▸ hfull), Prover.checkIfFull, if_neg hfull]
      rfl
    · rwa [Prover.checkIfFull, if_neg hfull]

end Calls

/-! ## A batch -/

/-- The loop of `shareBatch`, on the memory alone: what is written, and the triples. -/
def fillAll (fill : W → AuthShare F → M → Option (M × Option (Triple (AuthShare F))))
    (shares : ℕ → AuthShare F) : List W → ℕ → M → Option (M × List (W × Triple (AuthShare F)))
  | [], _, mem => some (mem, [])
  | w :: ws, slot, mem =>
    (fill w (shares slot) mem).bind fun r =>
      (fillAll fill shares ws (slot + 1) r.1).map fun r' =>
        (r'.1, (r.2.toList.map fun t => (w, t)) ++ r'.2)

/-- The shares that verifier `i` makes of the wires of a batch. -/
def batchShares (p : ProverState F W C.usable) (i : ℕ) : ℕ → AuthShare F :=
  let pre := p.pre.ensure C.usable_pos 1
  Verifier.genShares C i (pre.source pre.ptr) (Prover.packedShares C p i)

section Batch

variable {C} {isMult : W → Bool} {p : ProverState F W C.usable}
  {v : ℕ → VerifierState F W M C.usable} {ws : List W}

omit [Field F] in
theorem Verifier.fillWires_eq
    {fill : W → AuthShare F → M → Option (M × Option (Triple (AuthShare F)))}
    {shares : ℕ → AuthShare F} {ws : List W} {slot : ℕ} {v : VerifierState F W M C.usable} {mem : M}
    {gates : List (W × Triple (AuthShare F))}
    (h : fillAll fill shares ws slot v.mem = some (mem, gates))
    (hroom : v.multGate.length + gates.length ≤ multGateBufSz + C.poly.k) :
    fillWires C fill shares ws slot v
      = some { v with mem := mem, multGate := v.multGate ++ gates } := by
  induction ws generalizing slot v mem gates with
  | nil =>
    cases h
    rw [fillWires, List.append_nil]
  | cons w ws ih =>
    obtain ⟨⟨mem₁, t⟩, hfill, hrest⟩ := Option.bind_eq_some_iff.mp h
    obtain ⟨⟨mem₂, gates₂⟩, hfills, heq⟩ := Option.map_eq_some_iff.mp hrest
    cases heq
    rw [fillWires, hfill, Option.bind_some]
    cases t with
    | none =>
      rw [Option.bind_some, ih hfills (by simpa using hroom)]
      rfl
    | some t =>
      have hcons : gates₂.length + 1 = ([(w, t)] ++ gates₂).length := by simp
      have hroom' : v.multGate.length + (gates₂.length + 1) ≤ multGateBufSz + C.poly.k := by
        rw [hcons]
        exact hroom
      have hmult : mult C w t { v with mem := mem₁ }
          = some { v with mem := mem₁, multGate := v.multGate ++ [(w, t)] } :=
        if_pos (show v.multGate.length < _ by omega)
      show (mult C w t { v with mem := mem₁ }).bind _ = _
      rw [hmult, Option.bind_some, ih hfills (by
        rw [List.length_append, List.length_singleton]
        omega)]
      simp only [List.append_assoc, Option.toList_some, List.map_cons, List.map_nil]

omit [Field F] in
/-- The wires of the triples are the multiplications among the wires. -/
theorem map_fst_fillAll
    {fill : W → AuthShare F → M → Option (M × Option (Triple (AuthShare F)))}
    (hfill : ∀ w s mem r, fill w s mem = some r → r.2.isSome = isMult w) {shares : ℕ → AuthShare F}
    {ws : List W} {slot : ℕ} {mem mem' : M} {gates : List (W × Triple (AuthShare F))}
    (h : fillAll fill shares ws slot mem = some (mem', gates)) :
    gates.map Prod.fst = ws.filter isMult := by
  induction ws generalizing slot mem mem' gates with
  | nil =>
    cases h
    rfl
  | cons w ws ih =>
    obtain ⟨⟨mem₁, t⟩, hw, hrest⟩ := Option.bind_eq_some_iff.mp h
    obtain ⟨⟨mem₂, gates₂⟩, hws, heq⟩ := Option.map_eq_some_iff.mp hrest
    cases heq
    have hmult := hfill w _ _ _ hw
    rw [List.map_append, ih hws]
    cases t with
    | none =>
      rw [List.filter_cons_of_neg (by rw [← hmult]; exact Bool.false_ne_true)]
      rfl
    | some t =>
      rw [List.filter_cons_of_pos hmult.symm]
      rfl

/-- **A batch on both sides**, if every verifier can fill its wires. -/
theorem Verifier.shareBatch_in_step
    {fill : ℕ → W → AuthShare F → M → Option (M × Option (Triple (AuthShare F)))}
    (hmult : ∀ i w s mem r, fill i w s mem = some r → r.2.isSome = isMult w)
    (h : InStep C isMult p v ws) (hroom : Room C v) (hlen : ws.length ≤ C.poly.k)
    {filled : ℕ → M × List (W × Triple (AuthShare F))}
    (hfill : ∀ i, fillAll (fill i) (batchShares C p i) ws 0 (v i).mem = some (filled i)) :
    ∃ v', (∀ i rest, shareBatch C (fill i) i (v i)
        ((Prover.shareBatch C p).2.map (· i) ++ rest) = some (v' i, rest)) ∧
      InStep C isMult (Prover.shareBatch C p).1 v' [] ∧ Room C v' ∧
      ∀ i, (v' i).mem = (filled i).1 := by
  have hnames : ∀ i, (filled i).2.map Prod.fst = ws.filter isMult := fun i =>
    map_fst_fillAll (hmult i) (hfill i)
  have hstep : InStep C isMult
      { p with
        pre := (p.pre.ensure C.usable_pos 1).advance 1
        wiresVal := []
        batchesDone := p.batchesDone + 1 }
      (fun i => { v i with
        pre := (p.pre.ensure C.usable_pos 1).advance 1
        wires := []
        multGate := (v i).multGate ++ (filled i).2
        batchesDone := (v i).batchesDone + 1
        mem := (filled i).1 }) [] :=
    { pre := fun _ => rfl
      wires := fun _ => rfl
      wiresVal := rfl
      gates := fun i => by
        rw [h.gates i, List.map_append, hnames i, List.filter_nil, List.append_nil]
      batchesDone := fun i => congrArg (· + 1) (h.batchesDone i)
      checks := h.checks }
  obtain ⟨v', hrecv, hstep', hroom', hmem⟩ := checkIfFull_in_step hstep
  refine ⟨v', fun i rest => ?_, hstep', hroom', hmem⟩
  have hgates : (filled i).2.length ≤ C.poly.k := by
    rw [← List.length_map Prod.fst, hnames i]
    exact (List.length_filter_le _ _).trans hlen
  have hshare : ∀ (s : F) (queue : List (Msg F)),
      Msg.recvShare (.share s :: queue) = some (s, queue) := fun _ _ => rfl
  have hwires : fillWires C (fill i) (batchShares C p i) (v i).wires 0
      { v i with pre := (p.pre.ensure C.usable_pos 1).advance 1 }
        = some { v i with
          pre := (p.pre.ensure C.usable_pos 1).advance 1
          multGate := (v i).multGate ++ (filled i).2
          mem := (filled i).1 } := by
    rw [h.wires i]
    exact fillWires_eq (hfill i) (Nat.add_le_add (hroom i).le hgates)
  rw [shareBatch, Prover.shareBatch]
  simp only [List.map_append, List.map_cons, List.append_assoc, List.cons_append]
  rw [h.pre i, ensurePreAuth_in_step, Option.bind_some, hshare, Option.bind_some]
  show (fillWires C (fill i) (batchShares C p i) (v i).wires 0
    { v i with pre := (p.pre.ensure C.usable_pos 1).advance 1 }).bind _ = _
  rw [hwires, Option.bind_some]
  exact hrecv i rest

end Batch

/-! ## One call -/

/-- What `fill` does with the wires of a batch: it returns the triple of a multiplication, and it
succeeds and keeps the invariant `D` of the pending wires, their values and the memories. -/
structure Fills (fill : ℕ → W → AuthShare F → M → Option (M × Option (Triple (AuthShare F))))
    (isMult : W → Bool) (D : List W → List F → (ℕ → M) → Prop) : Prop where
  /-- Multiplications have triples. -/
  isSome : ∀ i w s mem r, fill i w s mem = some r → r.2.isSome = isMult w
  /-- A batch. -/
  batch : ∀ (p : ProverState F W C.usable) ws mem, p.wiresVal.length = ws.length →
    ws.length ≤ C.poly.k → D ws p.wiresVal mem → ∃ filled : ℕ → M × List (W × Triple (AuthShare F)),
      (∀ i, fillAll (fill i) (batchShares C p i) ws 0 (mem i) = some (filled i)) ∧
      D [] [] fun i => (filled i).1

/-- The parties between two calls. -/
structure Together (isMult : W → Bool) (D : List W → List F → (ℕ → M) → Prop)
    (p : ProverState F W C.usable) (v : ℕ → VerifierState F W M C.usable) (ws : List W) : Prop
    extends InStep C isMult p v ws where
  /-- No verifier is due to check. -/
  room : Room C v
  /-- The packed share is not full. -/
  pending : ws.length < C.poly.k
  /-- The invariant of the memories. -/
  data : D ws p.wiresVal fun i => (v i).mem

section Calls

variable {C} {isMult : W → Bool} {D : List W → List F → (ℕ → M) → Prop}
  {fill : ℕ → W → AuthShare F → M → Option (M × Option (Triple (AuthShare F)))}
  {p : ProverState F W C.usable} {v : ℕ → VerifierState F W M C.usable} {ws : List W}

omit [Field F] in
/-- The backends do not change when a verifier writes its memory. -/
theorem Together.setMem (h : Together C isMult D p v ws)
    {D' : List W → List F → (ℕ → M) → Prop} {mem : ℕ → M} (hdata : D' ws p.wiresVal mem) :
    Together C isMult D' p (fun i => { v i with mem := mem i }) ws :=
  { pre := h.pre
    wires := h.wires
    wiresVal := h.wiresVal
    gates := h.gates
    batchesDone := h.batchesDone
    checks := h.checks
    room := h.room
    pending := h.pending
    data := hdata }

omit [Field F] in
theorem Prover.wiresVal_checkIfFull (p : ProverState F W C.usable) :
    (checkIfFull C p).1.wiresVal = p.wiresVal := by
  rw [checkIfFull]
  split <;> rfl

theorem Verifier.shareBatch_together (hfills : Fills C fill isMult D) (h : InStep C isMult p v ws)
    (hroom : Room C v) (hlen : ws.length ≤ C.poly.k) (hdata : D ws p.wiresVal fun i => (v i).mem) :
    ∃ v', (∀ i rest, shareBatch C (fill i) i (v i)
        ((Prover.shareBatch C p).2.map (· i) ++ rest) = some (v' i, rest)) ∧
      Together C isMult D (Prover.shareBatch C p).1 v' [] := by
  obtain ⟨filled, hfill, hdata'⟩ := hfills.batch p ws _ h.wiresVal hlen hdata
  obtain ⟨v', hrecv, hstep, hroom', hmem⟩ := shareBatch_in_step hfills.isSome h hroom hlen hfill
  refine ⟨v', hrecv, hstep, hroom', Poly.k_pos _, ?_⟩
  rw [Prover.shareBatch, Prover.wiresVal_checkIfFull, funext hmem]
  exact hdata'

/-- **A shared wire.**  The packed share is sent once it is full. -/
theorem Verifier.share_together (hfills : Fills C fill isMult D) {w : W} {val : F}
    (h : InStep C isMult { p with wiresVal := p.wiresVal ++ [val] }
      (fun i => { v i with wires := (v i).wires ++ [w] }) (ws ++ [w]))
    (hroom : Room C v) (hlen : ws.length < C.poly.k)
    (hdata : D (ws ++ [w]) (p.wiresVal ++ [val]) fun i => (v i).mem) :
    ∃ v', (∀ i rest, share C (fill i) i w (v i)
        ((Prover.share C val p).2.map (· i) ++ rest) = some (v' i, rest)) ∧
      Together C isMult D (Prover.share C val p).1 v'
        (if ws.length + 1 = C.poly.k then [] else ws ++ [w]) := by
  have hcnt : (p.wiresVal ++ [val]).length = ws.length + 1 := by
    rw [h.wiresVal, List.length_append, List.length_singleton]
  have hcnt' : ∀ i, ((v i).wires ++ [w]).length = ws.length + 1 := fun i => by
    rw [show (v i).wires ++ [w] = ws ++ [w] from h.wires i, List.length_append,
      List.length_singleton]
  by_cases hfull : ws.length + 1 = C.poly.k
  · obtain ⟨v', hrecv, htog⟩ := shareBatch_together hfills h hroom
      (by rw [List.length_append, List.length_singleton, hfull]) hdata
    rw [if_pos hfull, Prover.share, if_pos (hcnt.trans hfull)]
    refine ⟨v', fun i rest => ?_, htog⟩
    rw [share, if_pos ((hcnt' i).trans hfull)]
    exact hrecv i rest
  · rw [if_neg hfull, Prover.share, if_neg fun hk => hfull (hcnt.symm.trans hk)]
    refine ⟨fun i => { v i with wires := (v i).wires ++ [w] }, fun i rest => ?_, h, hroom, ?_,
      hdata⟩
    · rw [share, if_neg fun hk => hfull ((hcnt' i).symm.trans hk)]
      rfl
    · rw [List.length_append, List.length_singleton]
      omega

/-- **A flush.** -/
theorem Verifier.shareFlush_together (hfills : Fills C fill isMult D)
    (h : Together C isMult D p v ws) :
    ∃ v', (∀ i rest, shareFlush C (fill i) i (v i)
        ((Prover.shareFlush C p).2.map (· i) ++ rest) = some (v' i, rest)) ∧
      Together C isMult D (Prover.shareFlush C p).1 v' [] := by
  by_cases hne : ws.length ≠ 0
  · obtain ⟨v', hrecv, htog⟩ :=
      shareBatch_together hfills h.toInStep h.room h.pending.le h.data
    rw [Prover.shareFlush, if_pos (h.wiresVal.symm ▸ hne)]
    refine ⟨v', fun i rest => ?_, htog⟩
    rw [shareFlush, if_pos ((h.wires i).symm ▸ hne)]
    exact hrecv i rest
  · have hnil : ws = [] := List.length_eq_zero_iff.mp (not_not.mp hne)
    subst hnil
    rw [Prover.shareFlush, if_neg (h.wiresVal.symm ▸ hne)]
    refine ⟨v, fun i rest => ?_, h⟩
    rw [shareFlush, if_neg ((h.wires i).symm ▸ hne)]
    rfl

/-- **The end of a session.** -/
theorem Verifier.multFlush_together (hfills : Fills C fill isMult D)
    (h : Together C isMult D p v ws) :
    ∃ v', (∀ i rest, multFlush C (fill i) i (v i)
        ((Prover.multFlush C p).2.map (· i) ++ rest) = some (v' i, rest)) ∧
      Together C isMult D (Prover.multFlush C p).1 v' [] := by
  obtain ⟨v₁, hrecv₁, htog₁⟩ := shareFlush_together hfills h
  have hcnt : ∀ i, (v₁ i).multGate.length = (Prover.shareFlush C p).1.multGate.length := fun i =>
    (htog₁.gates_length i).symm
  by_cases hmore : (Prover.shareFlush C p).1.multGate.length ≠ 0
  · obtain ⟨v', hrecv, hstep, hroom, hmem⟩ := verifyAuthTriple_in_step htog₁.toInStep
    rw [Prover.multFlush, if_pos hmore]
    refine ⟨v', fun i rest => ?_, hstep, hroom, htog₁.pending, ?_⟩
    · rw [multFlush, List.map_append, List.append_assoc, hrecv₁, Option.bind_some,
        if_pos ((hcnt i).symm ▸ hmore)]
      exact hrecv i rest
    · rw [funext hmem]
      exact htog₁.data
  · rw [Prover.multFlush, if_neg hmore]
    refine ⟨v₁, fun i rest => ?_, htog₁⟩
    rw [multFlush, hrecv₁, Option.bind_some, if_neg ((hcnt i).symm ▸ hmore)]

end Calls

end VoleZk.Mvzk
