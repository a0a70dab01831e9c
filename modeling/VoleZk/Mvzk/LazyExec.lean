import VoleZk.Mvzk.Lazy

/-!
# Programs on slots

The prover and the verifiers run the operations of a program one by one.  Between two operations
the pending wires are the slots that a verifier holds, and a slot that is created gets the next
number on all parties.

## What is here

* `SlotsOk.alloc`, `ExecData.alloc`, `ExecData.push` — a new slot;
* `ExecTogether`, the parties between two operations, and `ExecTogether.step` — **one operation**;
* `eager`, the shares without delay, and `lazy_transparent` — **every program**;
* `lazy_not_shared` — `2 ^ 30` parties and four secrets.
-/

set_option autoImplicit false

open Finset

namespace VoleZk.Mvzk

variable {F : Type*} [Field F] {C : BackendConfig F} {i : ℕ}

/-! ## A new slot -/

section Alloc

variable {defs : List (SlotDef F)} {pending : List ℕ}

/-- An entry of a list with one more. -/
theorem of_getElem?_concat {α : Type*} {l : List α} {a b : α} {s : ℕ}
    (h : (l ++ [a])[s]? = some b) : s < l.length ∧ l[s]? = some b ∨ s = l.length ∧ a = b := by
  rcases Nat.lt_or_ge s l.length with hs | hs
  · rw [List.getElem?_append_left hs] at h
    exact Or.inl ⟨hs, h⟩
  · rw [List.getElem?_append_right hs] at h
    obtain ⟨hlt, heq⟩ := List.getElem?_eq_some_iff.mp h
    rw [List.length_singleton] at hlt
    rw [List.getElem_singleton] at heq
    exact Or.inr ⟨by omega, heq⟩

/-- **A new slot of one verifier**, which is pending or not. -/
theorem SlotsOk.alloc {m : Slots F} (h : SlotsOk C i defs pending m) {d : SlotDef F} {x : Slot F}
    {pending' : List ℕ} (hpending : ∀ s < m.count, s ∈ pending' ↔ s ∈ pending)
    (hsorted : pending'.Pairwise (· < ·))
    (hwire : ∀ s ∈ pending', (defs ++ [d])[s]? = some .wire)
    (hok : SlotOk C i pending' (m.alloc x) m.count d) :
    SlotsOk C i (defs ++ [d]) pending' (m.alloc x) := by
  have hold : ∀ s < m.count, (m.alloc x).slot s = m.slot s := fun s hs =>
    m.slot_alloc_of_ne x hs.ne
  refine
    { count := by rw [List.length_append, List.length_singleton, ← h.count]; rfl
      slot := fun s d' hd' => ?_
      sorted := hsorted
      pendingWire := hwire
      nodup := ?_
      mem_filled := fun s => ?_ }
  · rcases of_getElem?_concat hd' with ⟨hs, hd'⟩ | ⟨hs, heq⟩
    · rw [← h.count] at hs
      have hslot := h.slot s d' hd'
      cases d' with
      | wire =>
        rw [SlotOk, hold s hs, hpending s hs]
        exact hslot
      | pub c =>
        rw [SlotOk, hold s hs]
        exact hslot
      | linear terms c =>
        obtain ⟨hlt, hwait, hready⟩ := hslot
        have hterm : ∀ t ∈ terms, (m.alloc x).slot t.2 = m.slot t.2 := fun t ht =>
          hold t.2 ((hlt t ht).trans hs)
        rw [SlotOk, hold s hs]
        refine ⟨hlt, hwait, fun hr => ⟨fun t ht => ?_, ?_⟩⟩
        · rw [hterm t ht]
          exact (hready hr).1 t ht
        · rw [(hready hr).2]
          exact evalLinear_congr (fun t ht => by rw [hterm t ht]) c
    · rw [hs, ← h.count, ← heq]
      exact hok
  · show (if x.ready then m.filled ++ [m.count] else m.filled).Nodup
    split
    · refine List.nodup_append.mpr ⟨h.nodup, List.nodup_singleton _, fun a ha b hb heq => ?_⟩
      rw [heq, List.mem_singleton.mp hb] at ha
      exact lt_irrefl _ ((h.mem_filled _).mp ha).1
    · exact h.nodup
  · have hmem : s ∈ (m.alloc x).filled ↔ s ∈ m.filled ∨ (x.ready = true ∧ s = m.count) := by
      show s ∈ (if x.ready then m.filled ++ [m.count] else m.filled) ↔ _
      split
      · rename_i hr
        rw [List.mem_append, List.mem_singleton, and_iff_right hr]
      · rename_i hr
        rw [or_iff_left fun hx => hr hx.1]
    rw [hmem, h.mem_filled s]
    show _ ↔ s < m.count + 1 ∧ _
    rcases lt_trichotomy s m.count with hs | hs | hs
    · rw [hold s hs]
      simp [hs, hs.ne, hs.trans (Nat.lt_succ_self _)]
    · rw [hs, Slots.slot_alloc_self]
      simp
    · simp [hs.ne', hs.not_gt, (Nat.succ_le_of_lt hs).not_gt]

variable {pv : ℕ → F} {ws : List SlotWire} {vals : List F} {m : ℕ → Slots F}

theorem SlotDef.ValOk.congr {d : SlotDef F} {s : ℕ} {pv' : ℕ → F} (h : d.ValOk pv s)
    (hlt : ∀ terms c, d = .linear terms c → ∀ t ∈ terms, t.2 < s) (hpv : ∀ t ≤ s, pv' t = pv t) :
    d.ValOk pv' s := by
  cases d with
  | wire => trivial
  | pub c => exact (hpv s le_rfl).trans h
  | linear terms c =>
    rw [ValOk, hpv s le_rfl, show pv s = _ from h]
    exact List.foldl_ext _ _ _ fun acc t ht => by rw [hpv t.2 (hlt terms c rfl t ht).le]

/-- The values of the prover, with one more slot. -/
theorem valOk_concat (h : ∀ i, SlotsOk C i defs pending (m i))
    (hvals : ∀ s (d : SlotDef F), defs[s]? = some d → d.ValOk pv s) {d : SlotDef F} {v : F}
    (hd : d.ValOk (Function.update pv defs.length v) defs.length) {s : ℕ} {d' : SlotDef F}
    (hd' : (defs ++ [d])[s]? = some d') : d'.ValOk (Function.update pv defs.length v) s := by
  rcases of_getElem?_concat hd' with ⟨hs, hd'⟩ | ⟨hs, heq⟩
  · refine (hvals s d' hd').congr (fun terms c hlin => ?_) fun t ht =>
      Function.update_of_ne (ht.trans_lt hs).ne _ _
    subst hlin
    exact ((h 0).slot s _ hd').1
  · rw [hs, ← heq]
    exact hd

/-- **A constant or a linear combination.** -/
theorem ExecData.alloc (h : ExecData C defs pv ws vals m) {d : SlotDef F} (hd : d ≠ .wire) (v : F)
    {x : ℕ → Slot F}
    (hok : ∀ i, SlotOk C i (ws.map SlotWire.slot) ((m i).alloc (x i)) (m i).count d) :
    ExecData C (defs ++ [d]) (Function.update pv defs.length v) ws vals
      fun i => (m i).alloc (x i) := by
  have hpv : ∀ {s}, s < defs.length → Function.update pv defs.length v s = pv s := fun hs =>
    Function.update_of_ne hs.ne _ _
  have hlt : ∀ {s}, s ∈ ws.map SlotWire.slot → s < defs.length := fun hs =>
    (List.getElem?_eq_some_iff.mp ((h.slots 0).pendingWire _ hs)).1
  refine ⟨fun i => ?_, h.inputs, fun j w hw => ?_, fun hR s hs hnot => ?_⟩
  · refine (h.slots i).alloc (fun _ _ => Iff.rfl) (h.slots i).sorted (fun s hs => ?_) (hok i)
    rw [List.getElem?_append_left (hlt hs)]
    exact (h.slots i).pendingWire s hs
  · rw [h.vals j w hw, hpv (hlt (List.mem_map_of_mem (List.mem_of_getElem? hw)))]
  · rcases of_getElem?_concat hs with ⟨hlt, hs⟩ | ⟨-, heq⟩
    · rw [hpv hlt]
      refine (h.shared hR s hs hnot).congr fun i _ => ?_
      rw [(m i).slot_alloc_of_ne (x i) ((h.slots i).count ▸ hlt.ne)]
    · exact absurd heq hd

/-- **An input or a product** is pending. -/
theorem ExecData.push (h : ExecData C defs pv ws vals m) (hlen : vals.length = ws.length)
    {inputs : Option (ℕ × ℕ)}
    (hin : ∀ ab ∈ inputs, ab.1 < defs.length ∧ ab.2 < defs.length) (v : F) :
    ExecData C (defs ++ [.wire]) (Function.update pv defs.length v)
      (ws ++ [⟨defs.length, inputs⟩]) (vals ++ [v]) fun i => (m i).alloc .new := by
  have hpv : ∀ {s}, s < defs.length → Function.update pv defs.length v s = pv s := fun hs =>
    Function.update_of_ne hs.ne _ _
  have hlt : ∀ {s}, s ∈ ws.map SlotWire.slot → s < defs.length := fun hs =>
    (List.getElem?_eq_some_iff.mp ((h.slots 0).pendingWire _ hs)).1
  have hmap : (ws ++ [SlotWire.mk defs.length inputs]).map SlotWire.slot
      = ws.map SlotWire.slot ++ [defs.length] := List.map_append
  refine ⟨fun i => ?_, fun w hw => ?_, fun j w hw => ?_, fun hR s hs hnot => ?_⟩
  · rw [hmap]
    refine (h.slots i).alloc (fun s hs => ?_) ?_ (fun s hs => ?_) ?_
    · rw [List.mem_append, List.mem_singleton, or_iff_left ((h.slots i).count ▸ hs.ne)]
    · refine List.pairwise_append.mpr ⟨(h.slots i).sorted, List.pairwise_singleton _ _,
        fun a ha b hb => ?_⟩
      rw [List.mem_singleton.mp hb]
      exact hlt ha
    · rcases List.mem_append.mp hs with hs | hs
      · rw [List.getElem?_append_left (hlt hs)]
        exact (h.slots i).pendingWire s hs
      · rw [List.mem_singleton.mp hs]
        exact List.getElem?_concat_length
    · rw [SlotOk, Slots.slot_alloc_self, (h.slots i).count]
      refine iff_of_false Bool.false_ne_true (not_not.mpr ?_)
      exact List.mem_append_right _ (List.mem_singleton.mpr rfl)
  · rcases List.mem_append.mp hw with hw | hw
    · exact h.inputs w hw
    · rw [List.mem_singleton.mp hw]
      exact hin
  · rcases of_getElem?_concat hw with ⟨hj, hw⟩ | ⟨hj, heq⟩
    · rw [List.getD_append _ _ _ _ (hlen ▸ hj), h.vals j w hw,
        hpv (hlt (List.mem_map_of_mem (List.mem_of_getElem? hw)))]
    · rw [hj, ← heq, ← hlen, List.getD_append_right _ _ _ _ le_rfl, Nat.sub_self,
        Function.update_self]
      rfl
  · rw [hmap, List.mem_append, List.mem_singleton, not_or] at hnot
    rcases of_getElem?_concat hs with ⟨hlt, hs⟩ | ⟨hs, -⟩
    · rw [hpv hlt]
      refine (h.shared hR s hs hnot.1).congr fun i _ => ?_
      rw [(m i).slot_alloc_of_ne .new ((h.slots i).count ▸ hlt.ne)]
    · exact absurd hs hnot.2

end Alloc

/-! ## The number of batches -/

namespace Prover

variable {W : Type*} (p : ProverState F W C.usable)

omit [Field F] in
theorem batchesDone_checkIfFull : (checkIfFull C p).1.batchesDone = p.batchesDone := by
  rw [checkIfFull]
  split <;> rfl

theorem batchesDone_shareBatch : (shareBatch C p).1.batchesDone = p.batchesDone + 1 := by
  rw [shareBatch]
  exact batchesDone_checkIfFull _

theorem batchesDone_share (val : F) : (share C val p).1.batchesDone
    = if p.wiresVal.length + 1 = C.poly.k then p.batchesDone + 1 else p.batchesDone := by
  have hlen : (p.wiresVal ++ [val]).length = p.wiresVal.length + 1 := by
    rw [List.length_append, List.length_singleton]
  rw [share]
  split
  · rename_i hfull
    rw [if_pos (hlen.symm.trans hfull)]
    exact batchesDone_shareBatch _
  · rename_i hmore
    rw [if_neg fun h => hmore (hlen.trans h)]

theorem batchesDone_shareFlush : (shareFlush C p).1.batchesDone
    = if p.wiresVal.length ≠ 0 then p.batchesDone + 1 else p.batchesDone := by
  rw [shareFlush]
  split
  · exact batchesDone_shareBatch _
  · rfl

theorem batchesDone_multFlush :
    (multFlush C p).1.batchesDone = (shareFlush C p).1.batchesDone := by
  rw [multFlush]
  split <;> rfl

end Prover

/-! ## Between two operations -/

/-- **The parties between two operations.** -/
structure ExecTogether (C : BackendConfig F) (defs : List (SlotDef F)) (p : ProverExec F C.usable)
    (v : ℕ → VerifierExec F C.usable) (ws : List SlotWire) : Prop where
  /-- The backends. -/
  backend : Together C SlotWire.isMult (ExecData C defs p.val) p.backend (fun i => (v i).backend) ws
  /-- The prover has the same slots. -/
  count : p.count = defs.length
  /-- The prover's values are those of the program. -/
  vals : ∀ s (d : SlotDef F), defs[s]? = some d → d.ValOk p.val s
  /-- The pending wires are held. -/
  hold : ∀ i, (v i).hold = ws.map SlotWire.slot
  /-- No batch went unseen. -/
  seen : ∀ i, (v i).seenBatches = (v i).backend.batchesDone
  /-- The opened wires were shared. -/
  opened : ∃ wires : List ((ℕ → AuthShare F) × F × F),
    (∀ i, (v i).opened = wires.map fun x => (x.1 i, x.2.2)) ∧ p.opened = wires.map Prod.snd ∧
      (C.Right → ∀ x ∈ wires, Shared C.poly.n C.delta x.1 x.2.1)

section Steps

variable {defs : List (SlotDef F)} {p : ProverExec F C.usable} {v : ℕ → VerifierExec F C.usable}
  {ws : List SlotWire}

omit [Field F] in
/-- `afterOp` lets go of the slots of a batch that was filled. -/
theorem VerifierExec.afterOp_eq {e : VerifierExec F C.usable} {full : Prop} [Decidable full]
    (h : e.backend.batchesDone = if full then e.seenBatches + 1 else e.seenBatches) :
    e.afterOp = { e with
      seenBatches := e.backend.batchesDone
      hold := if full then [] else e.hold } := by
  rw [afterOp]
  by_cases hfull : full
  · rw [if_pos hfull] at h
    rw [if_pos (h ▸ Nat.succ_ne_self _), if_pos hfull]
  · rw [if_neg hfull] at h
    rw [if_neg (not_not.mpr h), if_neg hfull, h]

/-- The end of the packed share of a flush. -/
theorem ExecTogether.after_flush (h : ExecTogether C defs p v ws)
    {q : ProverState F SlotWire C.usable}
    {v' : ℕ → VerifierState F SlotWire (Slots F) C.usable}
    (htog : Together C SlotWire.isMult (ExecData C defs p.val) q v' [])
    (hdone : ∀ i, (v' i).batchesDone
      = if ws.length ≠ 0 then (v i).seenBatches + 1 else (v i).seenBatches) :
    ExecTogether C defs { p with backend := q }
      (fun i => VerifierExec.afterOp { v i with backend := v' i }) [] := by
  have hafter : ∀ i, VerifierExec.afterOp { v i with backend := v' i }
      = { v i with
        backend := v' i
        seenBatches := (v' i).batchesDone
        hold := if ws.length ≠ 0 then [] else (v i).hold } :=
    fun i => VerifierExec.afterOp_eq (hdone i)
  simp only [hafter]
  refine
    { backend := htog
      count := h.count
      vals := h.vals
      hold := fun i => ?_
      seen := fun _ => rfl
      opened := h.opened }
  show (if ws.length ≠ 0 then [] else (v i).hold) = []
  rw [h.hold i]
  split
  · rfl
  · rename_i hzero
    rw [List.length_eq_zero_iff.mp (not_not.mp hzero)]
    rfl

/-- **An input or a product**, once the prover has recorded its triple in `q`. -/
theorem VerifierExec.share_together (h : ExecTogether C defs p v ws) {inputs : Option (ℕ × ℕ)}
    (hin : ∀ ab ∈ inputs, ab.1 < defs.length ∧ ab.2 < defs.length) (val : F)
    {q : ProverState F SlotWire C.usable} (hvals : q.wiresVal = p.backend.wiresVal)
    (hbatches : q.batchesDone = p.backend.batchesDone)
    (hpush : InStep C SlotWire.isMult { q with wiresVal := q.wiresVal ++ [val] }
      (fun i => { ((v i).alloc .new).backend with
        wires := ((v i).alloc .new).backend.wires ++ [⟨defs.length, inputs⟩] })
      (ws ++ [⟨defs.length, inputs⟩])) :
    ∃ v', (∀ i rest, share C i inputs (v i)
        ((Prover.share C val q).2.map (· i) ++ rest) = some (v' i, rest)) ∧
      ExecTogether C (defs ++ [.wire]) { p.alloc val with backend := (Prover.share C val q).1 } v'
        (if ws.length + 1 = C.poly.k then [] else ws ++ [⟨defs.length, inputs⟩]) := by
  have hdata := h.backend.data.push h.backend.wiresVal hin val
  rw [← hvals] at hdata
  obtain ⟨v', hrecv, htog⟩ := Verifier.share_together (execData_fills _ _) hpush h.backend.room
    h.backend.pending hdata
  have hdone : ∀ i, (v' i).batchesDone
      = if ws.length + 1 = C.poly.k then (v i).seenBatches + 1 else (v i).seenBatches := fun i => by
    rw [htog.batchesDone i, Prover.batchesDone_share, hvals, h.backend.wiresVal, hbatches,
      h.seen i, h.backend.batchesDone i]
  have hcount : ∀ i, (v i).backend.mem.count = defs.length := fun i =>
    (h.backend.data.slots i).count
  have hval : Function.update p.val defs.length val = (p.alloc val).val := by
    rw [← h.count]
    rfl
  refine ⟨fun i => (afterOp { v i with
    backend := v' i, hold := (v i).hold ++ [defs.length] }), fun i rest => ?_, ?_⟩
  · rw [share]
    simp only [hcount i]
    rw [hrecv i rest]
    rfl
  · have hafter : ∀ i, afterOp { v i with backend := v' i, hold := (v i).hold ++ [defs.length] }
        = { v i with
          backend := v' i
          seenBatches := (v' i).batchesDone
          hold := if ws.length + 1 = C.poly.k then [] else (v i).hold ++ [defs.length] } :=
      fun i => afterOp_eq (hdone i)
    simp only [hafter]
    refine
      { backend := ?_
        count := ?_
        vals := fun s d hd => ?_
        hold := fun i => ?_
        seen := fun _ => rfl
        opened := h.opened }
    · exact hval ▸ htog
    · rw [List.length_append, List.length_singleton, ← h.count]
      rfl
    · have hwire : SlotDef.ValOk (Function.update p.val defs.length val) defs.length .wire :=
        trivial
      exact hval ▸ valOk_concat h.backend.data.slots h.vals hwire hd
    · show (if ws.length + 1 = C.poly.k then [] else (v i).hold ++ [defs.length]) = _
      rw [h.hold i]
      split
      · rfl
      · rw [List.map_append]
        rfl

/-- **A flush.** -/
theorem VerifierExec.flush_together (h : ExecTogether C defs p v ws) :
    ∃ v', (∀ i rest, flush C i (v i)
        ((ProverExec.flush C p).2.map (· i) ++ rest) = some (v' i, rest)) ∧
      ExecTogether C defs (ProverExec.flush C p).1 v' [] := by
  obtain ⟨v', hrecv, htog⟩ := Verifier.shareFlush_together (execData_fills _ _) h.backend
  have hdone : ∀ i, (v' i).batchesDone
      = if ws.length ≠ 0 then (v i).seenBatches + 1 else (v i).seenBatches := fun i => by
    rw [htog.batchesDone i, Prover.batchesDone_shareFlush, h.backend.wiresVal, h.seen i,
      h.backend.batchesDone i]
  refine ⟨fun i => afterOp { v i with backend := v' i }, fun i rest => ?_,
    h.after_flush htog hdone⟩
  rw [flush, ProverExec.flush]
  simp only
  rw [hrecv i rest]
  rfl

/-- **Opened wires**, after a flush. -/
theorem VerifierExec.check_together (h : ExecTogether C defs p v []) {claims : List (ℕ × F)}
    (hclaims : ∀ c ∈ claims, c.1 < defs.length) :
    ∃ v', (∀ i, check C i claims (v i) = some (v' i)) ∧
      ExecTogether C defs
        { p with opened := p.opened ++ claims.map fun c => (p.val c.1, c.2) } v' [] := by
  have hslots := h.backend.data.slots
  choose m hrun hok hext hready using fun i => checkClaimed_ok (hslots i)
    fun c (hc : c ∈ claims) => (hslots i).count ▸ hclaims c hc
  have hdata : ExecData C defs p.val [] p.backend.wiresVal m := h.backend.data.extends hok hext
  obtain ⟨wires, hver, hprv, hshared⟩ := h.opened
  refine ⟨fun i => { v i with
    backend := { (v i).backend with mem := m i }
    opened := (v i).opened ++ claims.map fun c => (((m i).slot c.1).sh, c.2) }, fun i => ?_, ?_⟩
  · rw [check, hrun i]
    rfl
  · refine
      { backend := { h.backend with data := hdata }
        count := h.count
        vals := h.vals
        hold := h.hold
        seen := h.seen
        opened := ⟨wires ++ claims.map fun c => (fun i => ((m i).slot c.1).sh, p.val c.1, c.2),
          fun i => ?_, ?_, fun hR x hx => ?_⟩ }
    · rw [List.map_append, List.map_map, hver i]
      rfl
    · rw [List.map_append, List.map_map, hprv]
      rfl
    · rcases List.mem_append.mp hx with hx | hx
      · exact hshared hR x hx
      · obtain ⟨c, hc, rfl⟩ := List.mem_map.mp hx
        exact hdata.ready_shared hR h.vals (hclaims c hc) fun i _ => hready i c hc

/-- **A constant or a linear combination** is no matter of the backend. -/
theorem ExecTogether.alloc (h : ExecTogether C defs p v ws) {d : SlotDef F} (hd : d ≠ .wire)
    {val : F} (hval : d.ValOk (Function.update p.val defs.length val) defs.length)
    {x : ℕ → Slot F} (hok : ∀ i, SlotOk C i (ws.map SlotWire.slot)
      ((v i).backend.mem.alloc (x i)) (v i).backend.mem.count d) :
    ExecTogether C (defs ++ [d]) (p.alloc val) (fun i => (v i).alloc (x i)) ws := by
  have hpv : Function.update p.val defs.length val = (p.alloc val).val := by
    rw [← h.count]
    rfl
  exact
    { backend := h.backend.setMem (hpv ▸ h.backend.data.alloc hd val hok)
      count := by
        rw [List.length_append, List.length_singleton, ← h.count]
        rfl
      vals := fun s d' hd' => hpv ▸ valOk_concat h.backend.data.slots h.vals hval hd'
      hold := h.hold
      seen := h.seen
      opened := h.opened }

/-- What a linear combination of a verifier is. -/
theorem linearSlot_ok {pending : List ℕ} {m : Slots F} (h : SlotsOk C i defs pending m)
    {terms : List (F × ℕ)} (hterms : ∀ t ∈ terms, t.2 < defs.length) (c : F) :
    SlotOk C i pending (m.alloc (VerifierExec.linearSlot C i terms c m)) m.count
      (.linear terms c) := by
  have hlt : ∀ t ∈ terms, t.2 < m.count := fun t ht => h.count ▸ hterms t ht
  have hold : ∀ x, ∀ t ∈ terms, (m.alloc x).slot t.2 = m.slot t.2 := fun x t ht =>
    m.slot_alloc_of_ne x (hlt t ht).ne
  rw [SlotOk, Slots.slot_alloc_self]
  refine ⟨hlt, fun hr => ?_, fun hr => ?_⟩
  · rw [VerifierExec.linearSlot] at hr ⊢
    split at hr
    · cases hr
    · rename_i hall
      rw [if_neg hall]
      refine ⟨rfl, rfl, fun hnil => hall ?_⟩
      rw [hnil]
      rfl
  · rw [VerifierExec.linearSlot] at hr
    split at hr
    · rename_i hall
      refine ⟨fun t ht => ?_, ?_⟩
      · rw [hold _ t ht]
        exact List.all_eq_true.mp hall t ht
      · rw [VerifierExec.linearSlot, if_pos hall]
        show evalLinear C i (fun s => (m.slot s).sh) terms c = _
        exact evalLinear_congr (fun t ht => by rw [hold _ t ht]) c
    · cases hr

/-- The backends have not changed when a slot was created. -/
theorem ExecTogether.inStep_alloc (h : ExecTogether C defs p v ws) :
    InStep C SlotWire.isMult p.backend (fun i => ((v i).alloc .new).backend) ws :=
  { h.backend.toInStep with }

/-- **One operation.** -/
theorem ExecTogether.step (h : ExecTogether C defs p v ws) {op : Op F}
    (hop : op.Scoped defs.length) :
    ∃ p' msgs v' ws', ProverExec.step C op p = some (p', msgs) ∧
      (∀ i rest, VerifierExec.step C i op (v i) (msgs.map (· i) ++ rest) = some (v' i, rest)) ∧
      ExecTogether C (defs ++ op.slotDef.toList) p' v' ws' ∧ (op = .flush → ws' = []) := by
  cases op with
  | feed val =>
    obtain ⟨v', hrecv, htog⟩ := VerifierExec.share_together h
      (fun ab hab => absurd hab (Option.not_mem_none ab)) val rfl rfl
      (h.inStep_alloc.input (w := ⟨defs.length, none⟩) rfl val)
    exact ⟨_, _, v', _, rfl, hrecv, htog, by rintro ⟨⟩⟩
  | pub c =>
    have hne : SlotDef.pub c ≠ .wire := by rintro ⟨⟩
    refine ⟨_, [], _, ws, rfl, fun i rest => rfl, h.alloc hne ?_ fun i => ?_, by rintro ⟨⟩⟩
    · exact Function.update_self _ _ _
    · rw [SlotOk, Slots.slot_alloc_self]
      exact ⟨rfl, rfl⟩
  | linear terms c =>
    have hne : SlotDef.linear terms c ≠ .wire := by rintro ⟨⟩
    refine ⟨_, [], _, ws, rfl, fun i rest => rfl, h.alloc hne ?_
      fun i => linearSlot_ok (h.backend.data.slots i) hop c, by rintro ⟨⟩⟩
    rw [SlotDef.ValOk, Function.update_self]
    exact List.foldl_ext _ _ _ fun acc t ht => by rw [Function.update_of_ne (hop t ht).ne]
  | mult a b =>
    let w : SlotWire := ⟨defs.length, some (a, b)⟩
    let t : Triple F := ⟨p.val a, p.val b, p.val a * p.val b⟩
    have hmult := Prover.mult_eq h.backend.toInStep h.backend.room h.backend.pending w t
    obtain ⟨v', hrecv, htog⟩ := VerifierExec.share_together (q := { p.backend with
      multGate := p.backend.multGate ++ [(w, t)] }) h
      (fun ab hab => by
        cases hab
        exact hop) (p.val a * p.val b) rfl rfl
      (h.inStep_alloc.mult (w := w) rfl t _)
    refine ⟨_, _, v', _, ?_, hrecv, htog, by rintro ⟨⟩⟩
    rw [ProverExec.step, Prover.computeMult, h.count, hmult]
    rfl
  | reveal w =>
    obtain ⟨v₁, hrecv₁, htog₁⟩ := VerifierExec.flush_together h
    let q := ProverExec.flush C p
    let vals : List F := w.map q.1.val
    have hzip : w.zip vals = w.map fun s => (s, q.1.val s) := List.map_prod_left_eq_zip.symm
    have hclaims : ∀ c ∈ w.zip vals, c.1 < defs.length := fun c hc =>
      hop c.1 (List.of_mem_zip hc).1
    have hopened : (w.zip vals).map (fun c => (q.1.val c.1, c.2)) = vals.map fun v => (v, v) := by
      rw [hzip, List.map_map, List.map_map]
      rfl
    obtain ⟨v', hcheck, htog⟩ := VerifierExec.check_together htog₁ hclaims
    rw [hopened] at htog
    have hreveal : ∀ queue : List (Msg F),
        Msg.recvReveal w.length (.reveal vals :: queue) = some (vals, queue) := fun queue =>
      if_pos (List.length_map _)
    refine ⟨_, q.2 ++ [fun _ => Msg.reveal vals], v', [], rfl, fun i rest => ?_,
      (List.append_nil defs).symm ▸ htog, fun _ => rfl⟩
    rw [VerifierExec.step, List.map_append, List.append_assoc, hrecv₁, Option.bind_some]
    show (Msg.recvReveal w.length (.reveal vals :: rest)).bind _ = _
    rw [hreveal, Option.bind_some, hcheck]
    rfl
  | revealCheck claims =>
    obtain ⟨v₁, hrecv₁, htog₁⟩ := VerifierExec.flush_together h
    obtain ⟨v', hcheck, htog⟩ := VerifierExec.check_together htog₁ hop
    refine ⟨_, _, v', [], rfl, fun i rest => ?_,
      (List.append_nil defs).symm ▸ htog, fun _ => rfl⟩
    rw [VerifierExec.step, hrecv₁, Option.bind_some, hcheck]
    rfl
  | flush =>
    obtain ⟨v', hrecv, htog⟩ := VerifierExec.flush_together h
    exact ⟨_, _, v', [], rfl, hrecv, (List.append_nil defs).symm ▸ htog, fun _ => rfl⟩
  | finalize =>
    obtain ⟨v', hrecv, htog⟩ := Verifier.multFlush_together (execData_fills _ _) h.backend
    have hdone : ∀ i, (v' i).batchesDone
        = if ws.length ≠ 0 then (v i).seenBatches + 1 else (v i).seenBatches := fun i => by
      rw [htog.batchesDone i, Prover.batchesDone_multFlush, Prover.batchesDone_shareFlush,
        h.backend.wiresVal, h.seen i, h.backend.batchesDone i]
    refine ⟨_, _, _, [], rfl, fun i rest => ?_,
      (List.append_nil defs).symm ▸ h.after_flush htog hdone, fun _ => rfl⟩
    rw [VerifierExec.step, hrecv]
    rfl

end Steps

/-! ## Programs -/

/-- **The start of a session.** -/
theorem execTogether_init (C : BackendConfig F) :
    ExecTogether C [] (ProverExec.init C.usable) (fun _ => VerifierExec.init C.usable) [] where
  backend :=
    { pre := fun _ => rfl
      wires := fun _ => rfl
      wiresVal := rfl
      gates := fun _ => rfl
      batchesDone := fun _ => rfl
      checks := fun _ => rfl
      room := fun _ => (by decide : 0 < multGateBufSz)
      pending := Poly.k_pos _
      data :=
        { slots := fun i =>
            { count := rfl
              slot := fun s d hd => by
                rw [List.getElem?_nil] at hd
                cases hd
              sorted := List.Pairwise.nil
              pendingWire := fun s hs => absurd hs List.not_mem_nil
              nodup := List.nodup_nil
              mem_filled := fun s =>
                iff_of_false List.not_mem_nil fun hs => absurd hs.1 (Nat.not_lt_zero s) }
          inputs := fun w hw => absurd hw List.not_mem_nil
          vals := fun j w hw => by
            rw [List.getElem?_nil] at hw
            cases hw
          shared := fun _ s hs => by
            rw [List.getElem?_nil] at hs
            cases hs } }
  count := rfl
  vals s d hd := by
    rw [List.getElem?_nil] at hd
    cases hd
  hold _ := rfl
  seen _ := rfl
  opened := ⟨[], fun _ => rfl, rfl, fun _ x hx => absurd hx List.not_mem_nil⟩

/-- **A program.** -/
theorem exec_together (C : BackendConfig F) {ops : List (Op F)} (hops : Op.ScopedAll ops 0) :
    ∃ p msgs, ∃ v : ℕ → VerifierExec F C.usable, ∃ ws,
      Lockstep.sendRun (ProverExec.step C) ops (.init C.usable) = some (p, msgs) ∧
      (∀ i rest, Lockstep.recvRun (VerifierExec.step C i) ops (.init C.usable)
        (msgs.map (· i) ++ rest) = some (v i, rest)) ∧
      ExecTogether C (ops.filterMap Op.slotDef) p v ws ∧
      (ops.getLast? = some .flush → ws = []) := by
  obtain ⟨p, msgs, v, hsend, hrecv, done, ws, hdone, -, htog, hflush⟩ :=
    Lockstep.run_in_step (ProverExec.step C) (VerifierExec.step C)
      (fun rest p v => ∃ done ws, done ++ rest = ops ∧
        Op.ScopedAll rest (done.filterMap Op.slotDef).length ∧
        ExecTogether C (done.filterMap Op.slotDef) p v ws ∧
        (done.getLast? = some .flush → ws = []))
      (fun op rest p v hrel => by
        obtain ⟨done, ws, hdone, ⟨hop, hrest⟩, htog, -⟩ := hrel
        obtain ⟨p', msgs, v', ws', hsend, hrecv, htog', hflush⟩ := htog.step hop
        have hdefs : (done ++ [op]).filterMap Op.slotDef
            = done.filterMap Op.slotDef ++ op.slotDef.toList := by
          rw [List.filterMap_append, List.filterMap_cons]
          cases op.slotDef <;> rfl
        refine ⟨p', msgs, v', hsend, hrecv, done ++ [op], ws', ?_, ?_, ?_, fun hlast => ?_⟩
        · rw [List.append_assoc]
          exact hdone
        · rw [hdefs, List.length_append]
          exact hrest
        · rw [hdefs]
          exact htog'
        · rw [List.getLast?_concat, Option.some_inj] at hlast
          exact hflush hlast)
      ops (s := .init C.usable) (r := fun _ => .init C.usable)
      ⟨[], [], rfl, hops, execTogether_init C, fun _ => rfl⟩
  rw [List.append_nil] at hdone
  subst hdone
  exact ⟨p, msgs, v, ws, hsend, hrecv, htog, hflush⟩

/-- **Lazy evaluation is transparent.**  On every program no party fails, which it would at a slot
that waits for nothing, and every verifier takes exactly the messages that the prover sent to it.
No slot is filled twice; a slot that is filled holds the share that it would hold without delay.
After a flush every slot can be evaluated.  With up to `2 ^ 26` parties the slots are then shares of
the prover's values, and so was every wire that was opened. -/
theorem lazy_transparent (C : BackendConfig (ZMod P59)) (ops : List (Op (ZMod P59)))
    (hops : Op.ScopedAll ops 0) :
    ∃ p msgs, ∃ v : ℕ → VerifierExec (ZMod P59) C.usable, ∃ m : ℕ → ℕ → Slots (ZMod P59),
      Lockstep.sendRun (ProverExec.step C) ops (.init C.usable) = some (p, msgs) ∧
      (∀ i rest, Lockstep.recvRun (VerifierExec.step C i) ops (.init C.usable)
        (msgs.map (· i) ++ rest) = some (v i, rest)) ∧
      p.count = (ops.filterMap Op.slotDef).length ∧
      (∀ s (d : SlotDef (ZMod P59)), (ops.filterMap Op.slotDef)[s]? = some d → d.ValOk p.val s) ∧
      (∀ i, (v i).backend.mem.count = p.count ∧ (v i).backend.mem.filled.Nodup ∧
        (∀ s, s ∈ (v i).backend.mem.filled
          ↔ s < p.count ∧ ((v i).backend.mem.slot s).ready = true) ∧
        ∀ s < p.count, ((v i).backend.mem.slot s).ready = true →
          ((v i).backend.mem.slot s).sh
            = (eager C i (fun t => ((v i).backend.mem.slot t).sh)
              (ops.filterMap Op.slotDef)).getD s 0) ∧
      (ops.getLast? = some .flush → ∀ s < p.count, ∀ i,
        materialize C i s (v i).backend.mem = some (m s i) ∧ (m s i).filled.Nodup ∧
          s ∈ (m s i).filled ∧ ((m s i).slot s).sh
            = (eager C i (fun t => ((v i).backend.mem.slot t).sh)
              (ops.filterMap Op.slotDef)).getD s 0) ∧
      ∀ logK logN, logK < logN → logN ≤ 26 → Poly.init logK logN = some C.poly →
        C.poly.initLagrangeTable = some C.tab → C.Vole →
          (ops.getLast? = some .flush → ∀ s < p.count,
            Shared C.poly.n C.delta (fun i => ((m s i).slot s).sh) (p.val s)) ∧
          ∃ wires : List ((ℕ → AuthShare (ZMod P59)) × ZMod P59 × ZMod P59),
            (∀ i, (v i).opened = wires.map fun x => (x.1 i, x.2.2)) ∧
            p.opened = wires.map Prod.snd ∧ ∀ x ∈ wires, Shared C.poly.n C.delta x.1 x.2.1 := by
  obtain ⟨p, msgs, v, ws, hsend, hrecv, htog, hflush⟩ := exec_together C hops
  have hslots := htog.backend.data.slots
  have hcount : ∀ i, (v i).backend.mem.count = p.count := fun i =>
    (hslots i).count.trans htog.count.symm
  -- what `materialize` makes of a slot after a flush
  have hmat : ∀ s i, ∃ m, ops.getLast? = some .flush → s < p.count →
      materialize C i s (v i).backend.mem = some m ∧
      SlotsOk C i (ops.filterMap Op.slotDef) [] m ∧ (v i).backend.mem.Extends m ∧
      (m.slot s).ready = true := fun s i => by
    by_cases hlast : ops.getLast? = some .flush ∧ s < p.count
    · have hempty := hslots i
      rw [hflush hlast.1] at hempty
      obtain ⟨m, hm⟩ := materialize_ok hempty ((hcount i).symm ▸ hlast.2)
        fun s hs => absurd hs List.not_mem_nil
      exact ⟨m, fun _ _ => hm⟩
    · exact ⟨.empty, fun h hs => absurd ⟨h, hs⟩ hlast⟩
  choose m hm using hmat
  refine ⟨p, msgs, v, m, hsend, hrecv, htog.count, htog.vals, fun i => ?_,
    fun hlast s hs i => ?_, fun logK logN hlt hle hpoly htab hvole => ?_⟩
  · refine ⟨hcount i, (hslots i).nodup, fun s => ?_, fun s hs hready => ?_⟩
    · rw [(hslots i).mem_filled s, hcount i]
    · exact (hslots i).sh_eq_eager (htog.count ▸ hs) hready
  · obtain ⟨hrun, hok, hext, hready⟩ := hm s i hlast hs
    have hs' : s < (ops.filterMap Op.slotDef).length := htog.count ▸ hs
    refine ⟨hrun, hok.nodup, (hok.mem_filled s).mpr ⟨hok.count.symm ▸ hs', hready⟩, ?_⟩
    rw [hok.sh_eq_eager hs' hready, eager_congr _ fun t ht => ?_]
    have hnot : t ∉ ws.map SlotWire.slot := by
      rw [hflush hlast]
      exact List.not_mem_nil
    rw [hext t (((hslots i).slot t _ ht).mpr hnot)]
  · have hR := BackendConfig.right_of_init hlt hle hpoly htab hvole
    obtain ⟨wires, hver, hprv, hshared⟩ := htog.opened
    refine ⟨fun hlast s hs => ?_, wires, hver, hprv, hshared hR⟩
    have hdata := htog.backend.data
    rw [hflush hlast] at hdata
    have hall := hdata.extends (fun i => (hm s i hlast hs).2.1) fun i => (hm s i hlast hs).2.2.1
    exact hall.ready_shared hR htog.vals (htog.count ▸ hs) fun i _ => (hm s i hlast hs).2.2.2

theorem lazy_transparent_two : ∃ C : BackendConfig (ZMod P59), Poly.init 0 1 = some C.poly ∧
    ∃ p msgs, ∃ v : ℕ → VerifierExec (ZMod P59) C.usable, ∃ m : ℕ → Slots (ZMod P59),
      Lockstep.sendRun (ProverExec.step C)
        [.feed 5, .feed 7, IntFp.add 0 1, .mult 0 2, .flush] (.init C.usable) = some (p, msgs) ∧
      (∀ i, materialize C i 3 (v i).backend.mem = some (m i)) ∧
      Shared C.poly.n C.delta (fun i => ((m i).slot 3).sh) (p.val 3) := by
  obtain ⟨poly, tab, hpoly, htab⟩ := Poly.init_tables_ok (show 0 < 1 by decide) (by decide)
  let C := constBackend poly tab
  obtain ⟨p, msgs, v, m, hsend, -, hcount, -, -, hmat, hshared⟩ :=
    lazy_transparent C [.feed 5, .feed 7, IntFp.add 0 1, .mult 0 2, .flush]
      (by simp [Op.ScopedAll, Op.Scoped, Op.slotDef, IntFp.add])
  have hthree : 3 < p.count := hcount ▸ (by decide : 3 < 4)
  obtain ⟨hall, -⟩ :=
    hshared 0 1 (by decide) (by decide) hpoly htab (constBackend_vole poly tab)
  exact ⟨C, hpoly, p, msgs, v, m 3, hsend, fun i => (hmat rfl 3 hthree i).1, hall rfl 3 hthree⟩

/-! ## Where the conversions are wrong -/

section Wide

variable {poly : Poly (ZMod P59)} {tab : LagrangeTables (ZMod P59)}

/-- The wires of four inputs. -/
def turningSlots : List SlotWire := [⟨0, none⟩, ⟨1, none⟩, ⟨2, none⟩, ⟨3, none⟩]

theorem turning_slots_fills (hk : poly.k = 4) :
    Fills (turningBackend poly tab) (fillSlot (turningBackend poly tab)) SlotWire.isMult
      fun ws vals m =>
        (ws = turningSlots ∧ vals = turningVals poly) ∨
        (ws = [] ∧ (∀ i, ((m i).slot 3).ready = true) ∧
          ∑ i ∈ range poly.n, ((m i).slot 3).sh.share
            = poly.lagrangeEvalN2K tab (halfTurn poly.unityRoot2N (2 ^ 29)) 3) where
  isSome _ _ _ _ _ hr := isSome_fillSlot hr
  batch p ws m _ _ hdata := by
    rcases hdata with ⟨rfl, hvals⟩ | ⟨rfl, hready, hsum⟩
    · refine ⟨fun i => (_, []), fun i => rfl, Or.inr ⟨rfl, fun i => ?_, ?_⟩⟩
      · rw [Slots.slot_write_self]
      · refine Eq.trans ?_ (sum_share_turning p (fun m hm => ?_) 3)
        · refine sum_congr rfl fun i _ => ?_
          rw [Slots.slot_write_self]
        · rw [hvals, turningVals, List.getD_eq_getElem?_getD, List.getElem?_map,
            List.getElem?_range (hk ▸ hm)]
          rfl
    · exact ⟨fun i => (m i, []), fun _ => rfl, Or.inr ⟨rfl, hready, hsum⟩⟩

/-- The prover after `len` inputs. -/
def turningProver (poly : Poly (ZMod P59)) (tab : LagrangeTables (ZMod P59)) (len : ℕ)
    (val : ℕ → ZMod P59) : ProverExec (ZMod P59) (turningBackend poly tab).usable where
  backend := { Prover.init (turningBackend poly tab).usable with
    wiresVal := (List.range len).map (turningInput poly) }
  val := val
  count := len
  opened := []

/-- A verifier after `len` inputs. -/
def turningVerifier (poly : Poly (ZMod P59)) (tab : LagrangeTables (ZMod P59)) (len : ℕ) :
    VerifierExec (ZMod P59) (turningBackend poly tab).usable where
  backend := { Verifier.init (turningBackend poly tab).usable { Slots.empty with count := len } with
    wires := (List.range len).map fun s => ⟨s, none⟩ }
  hold := List.range len
  seenBatches := 0
  opened := []

/-- An input that does not fill the packed share, at the prover. -/
theorem turningProver_feed (hk : poly.k = 4) {len : ℕ} (hlen : len < 3) (val : ℕ → ZMod P59) :
    ProverExec.step (turningBackend poly tab) (.feed (turningInput poly len))
        (turningProver poly tab len val)
      = some (turningProver poly tab (len + 1)
          (Function.update val len (turningInput poly len)), []) := by
  have hfree : (turningProver poly tab len val).backend.wiresVal.length + 1
      < (turningBackend poly tab).poly.k := by
    rw [turningProver, List.length_map, List.length_range, show (turningBackend poly tab).poly.k = 4
      from hk]
    omega
  rw [ProverExec.step, Prover.share_of_lt _ hfree]
  simp [turningProver, ProverExec.alloc, List.range_succ]

/-- An input that does not fill the packed share, at a verifier. -/
theorem turningVerifier_feed (hk : poly.k = 4) {len : ℕ} (hlen : len < 3) (i : ℕ)
    (queue : List (Msg (ZMod P59))) :
    VerifierExec.share (turningBackend poly tab) i none (turningVerifier poly tab len) queue
      = some (turningVerifier poly tab (len + 1), queue) := by
  have hfree : ((turningVerifier poly tab len).alloc .new).backend.wires.length + 1
      < (turningBackend poly tab).poly.k := by
    rw [VerifierExec.alloc, turningVerifier, List.length_map, List.length_range,
      show (turningBackend poly tab).poly.k = 4 from hk]
    omega
  rw [VerifierExec.share, Verifier.share_of_lt _ _ _ hfree]
  simp [turningVerifier, VerifierExec.alloc, VerifierExec.afterOp, Slots.alloc, Slots.empty,
    Verifier.init, List.range_succ, Slot.new]

end Wide

/-- With `2 ^ 30` parties and four secrets there are correlations and inputs whose last wire is not
shared after a flush. -/
theorem lazy_not_shared : ∃ C : BackendConfig (ZMod P59), Poly.init 2 30 = some C.poly ∧
    C.poly.initLagrangeTable = some C.tab ∧ C.Vole ∧
    ∃ ops, Op.ScopedAll ops 0 ∧ ops.getLast? = some .flush ∧
      ∃ p msgs, ∃ v : ℕ → VerifierExec (ZMod P59) C.usable, ∃ m : ℕ → Slots (ZMod P59),
        Lockstep.sendRun (ProverExec.step C) ops (.init C.usable) = some (p, msgs) ∧
        (∀ i rest, Lockstep.recvRun (VerifierExec.step C i) ops (.init C.usable)
          (msgs.map (· i) ++ rest) = some (v i, rest)) ∧
        3 < p.count ∧ (∀ i, materialize C i 3 (v i).backend.mem = some (m i)) ∧
        ∑ i ∈ range C.poly.n, ((m i).slot 3).sh.share ≠ p.val 3 := by
  obtain ⟨poly, tab, hpoly, htab⟩ := Poly.init_tables_wide
  obtain ⟨-, hlogK, -⟩ := Poly.init_eq_some hpoly
  have hk : poly.k = 4 := by
    rw [Poly.k, hlogK]
    decide
  have htabOk := Poly.initLagrangeTable_eq_some htab
  let C := turningBackend poly tab
  let x := turningInput poly
  -- the prover's values after three inputs
  let val₃ : ℕ → ZMod P59 :=
    Function.update (Function.update (Function.update (fun _ => 0) 0 (x 0)) 1 (x 1)) 2 (x 2)
  let p₃ := turningProver poly tab 3 val₃
  let v₃ := turningVerifier poly tab 3
  have hpush : InStep C SlotWire.isMult
      { p₃.backend with wiresVal := p₃.backend.wiresVal ++ [x 3] }
      (fun _ => { (v₃.alloc .new).backend with
        wires := (v₃.alloc .new).backend.wires ++ [⟨3, none⟩] })
      (turningSlots.take 3 ++ [⟨3, none⟩]) :=
    ⟨fun _ => rfl, fun _ => rfl, rfl, fun _ => rfl, fun _ => rfl, fun _ => rfl⟩
  obtain ⟨v', hrecv, htog⟩ := Verifier.share_together (turning_slots_fills hk) hpush
    (fun _ => (by decide : 0 < multGateBufSz)) (show 3 < poly.k by rw [hk]; decide)
    (Or.inl ⟨rfl, rfl⟩)
  have hfull : (turningSlots.take 3).length + 1 = (turningBackend poly tab).poly.k := hk.symm
  rw [if_pos hfull] at htog
  obtain ⟨hready, hsum⟩ : (∀ i, ((v' i).mem.slot 3).ready = true) ∧
      ∑ i ∈ range poly.n, ((v' i).mem.slot 3).sh.share
        = poly.lagrangeEvalN2K tab (halfTurn poly.unityRoot2N (2 ^ 29)) 3 := by
    rcases htog.data with ⟨hws, -⟩ | ⟨-, hdata⟩
    · cases hws
    · exact hdata
  let r := Prover.share C (x 3) p₃.backend
  let e (i : ℕ) := VerifierExec.afterOp { v₃ with backend := v' i, hold := v₃.hold ++ [3] }
  have hback : ∀ i, (e i).backend = v' i := fun i => by
    show (VerifierExec.afterOp _).backend = _
    rw [VerifierExec.afterOp]
    split <;> rfl
  have hflushP : Prover.shareFlush C r.1 = (r.1, []) := by
    rw [Prover.shareFlush, if_neg]
    rw [htog.wiresVal]
    decide
  have hflushV : ∀ i queue,
      Verifier.shareFlush C (fillSlot C i) i (v' i) queue = some (v' i, queue) := fun i queue => by
    rw [Verifier.shareFlush, if_neg]
    rw [htog.wires i]
    decide
  have hsend : Lockstep.sendRun (ProverExec.step C)
      [.feed (x 0), .feed (x 1), .feed (x 2), .feed (x 3), .flush] (.init C.usable)
        = some ({ p₃.alloc (x 3) with backend := r.1 }, r.2) := by
    have hstart : ProverExec.init C.usable = turningProver poly tab 0 fun _ => 0 := rfl
    have hlast : ProverExec.step C (.feed (x 3)) (turningProver poly tab 3 val₃)
        = some ({ p₃.alloc (x 3) with backend := r.1 }, r.2) := rfl
    have hflush : ProverExec.step C .flush { p₃.alloc (x 3) with backend := r.1 }
        = some ({ p₃.alloc (x 3) with backend := r.1 }, []) := by
      rw [ProverExec.step, ProverExec.flush, hflushP]
    simp only [Lockstep.sendRun]
    rw [hstart, turningProver_feed hk (by decide), Option.bind_some,
      turningProver_feed hk (by decide), Option.bind_some, turningProver_feed hk (by decide),
      Option.bind_some, hlast, Option.bind_some, hflush]
    simp only [Option.bind_some, Option.map_some, List.nil_append, List.append_nil]
  have hrecvs : ∀ i rest, Lockstep.recvRun (VerifierExec.step C i)
      [.feed (x 0), .feed (x 1), .feed (x 2), .feed (x 3), .flush] (.init C.usable)
        (r.2.map (· i) ++ rest) = some (VerifierExec.afterOp (e i), rest) := fun i rest => by
    have hstart : VerifierExec.init C.usable = turningVerifier poly tab 0 := rfl
    have hlast : VerifierExec.share C i none (turningVerifier poly tab 3) (r.2.map (· i) ++ rest)
        = some (e i, rest) := by
      rw [VerifierExec.share]
      exact (congrArg (Option.map _) (hrecv i rest)).trans rfl
    have hflush : VerifierExec.flush C i (e i) rest = some (VerifierExec.afterOp (e i), rest) := by
      rw [VerifierExec.flush, hback i, hflushV i rest, Option.map_some, ← hback i]
    simp only [Lockstep.recvRun, VerifierExec.step]
    rw [hstart, turningVerifier_feed hk (by decide), Option.bind_some,
      turningVerifier_feed hk (by decide), Option.bind_some, turningVerifier_feed hk (by decide),
      Option.bind_some, hlast, Option.bind_some, hflush, Option.bind_some]
  have hmem : ∀ i, (VerifierExec.afterOp (e i)).backend.mem = (v' i).mem := fun i => by
    rw [VerifierExec.afterOp]
    split <;> rw [hback i]
  refine ⟨C, hpoly, htab, fun _ _ _ _ _ _ _ => ?_,
    [.feed (x 0), .feed (x 1), .feed (x 2), .feed (x 3), .flush],
    ⟨trivial, trivial, trivial, trivial, trivial, trivial⟩, rfl, _, _, _, fun i => (v' i).mem,
    hsend, hrecvs, (by decide : 3 < 4), fun i => ?_, ?_⟩
  · exact (zero_add _).symm.trans (congrArg (0 + ·) (mul_zero _).symm)
  · rw [hmem i, materialize, if_pos (hready i)]
  · have hval : (p₃.alloc (x 3)).val 3 = x 3 := by
      show Function.update val₃ 3 (x 3) 3 = x 3
      rw [Function.update_self]
    exact fun heq => nttEvalN2K_ne_wide hpoly htabOk ((heq.trans hval).symm.trans hsum)

end VoleZk.Mvzk
