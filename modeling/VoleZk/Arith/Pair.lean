import VoleZk.Arith.Half
import VoleZk.Arith.FpComplete

/-!
# The two parties of the arithmetic engine as one half

A session of honest parties is itself a half of the engine, whose wires are the labels of both.  It
keeps the words that were sent, those that correct a correlation or hide behind one with its number,
and one word for each word of `auth_helper`.

## What is here

* `FpPair`, `FpConfig.pair`;
* `FpPair.Within`, `FpConfig.pair_persists` — what is sent stays sent;
* `FpConfig.pair_iterates` — a block is one product after the other;
* `openedWords`, `Opens` — what is opened are the outputs and what the program says;
* `FpSession.pair_program` — **a session is a program of the pair.**
-/

set_option autoImplicit false

namespace VoleZk

open FpOSTriple

/-! ## Definitions -/

/-- Both parties, and what was sent. -/
structure FpPair where
  /-- The prover's engine. -/
  prover : FpOSTriple
  /-- The verifier's engine. -/
  verifier : FpOSTriple
  /-- Where the buffers of the batch were filled from. -/
  base : ℕ
  /-- The words that a correlation hides, each with the number of the correlation. -/
  sent : List (ℕ × ℕ)
  /-- For each word of `auth_helper`, the word that was opened. -/
  opened : List ℕ
  /-- All words, in the order they were sent. -/
  transcript : List ℕ

/-- Words under the correlations from `d` on. -/
def numbered (d : ℕ) (words : List ℕ) : List (ℕ × ℕ) := (List.range' d words.length).zip words

namespace FpConfig

/-- The two parties. -/
def pair (C : FpConfig) : FpHalf FpPair Label where
  checkSz := C.checkSz
  checkCnt x := x.prover.checkCnt
  newBatch x :=
    { x with
      prover := fillVole C C.volePrv { x.prover with checkCnt := 0 }
      verifier := fillVole C C.voleVer { x.verifier with checkCnt := 0 }
      base := x.prover.drawn }
  pubLabel := C.pubLabel
  addGate := C.addGate
  subGate := C.subGate
  negGate := C.negGate
  mulConstGate := C.mulConstGate
  authenticatedValInput x w :=
    let (p, Ms, lam) := authenticatedValInputSend C.F C.volePrv x.prover w
    let (v, Ks) := authenticatedValInputRecv C.F C.voleVer C.delta x.verifier lam
    ({ x with
        prover := p
        verifier := v
        sent := x.sent ++ numbered x.prover.drawn lam
        transcript := x.transcript ++ lam }, List.zipWith Label.mk Ms Ks)
  checkManage x :=
    let (p, checkSum) := checkManageSend C x.prover
    (checkManageRecv C x.verifier checkSum).map fun v =>
      { x with
        prover := p
        verifier := v
        sent := x.sent ++ [(x.prover.drawn, checkSum.2)]
        transcript := x.transcript ++ [checkSum.1, checkSum.2] }
  authComputeMul x a b :=
    let (p, M, d) := mulSend C.F x.prover x.prover.checkCnt a.prover b.prover
    let (v, K) := mulRecv C.F C.delta x.verifier x.verifier.checkCnt a.verifier b.verifier d
    ({ x with
        prover := { p with checkCnt := p.checkCnt + 1 }
        verifier := { v with checkCnt := v.checkCnt + 1 }
        sent := x.sent ++ [(x.base + x.prover.checkCnt, d)]
        transcript := x.transcript ++ [d] }, ⟨M, K⟩)
  mulBlock x ab :=
    let (p, Ms, ds) := mulBlockSend C.F x.prover x.prover.checkCnt
      (ab.map fun l => (l.1.prover, l.2.prover))
    let (v, Ks) := mulBlockRecv C.F C.delta x.verifier x.verifier.checkCnt
      (ab.map fun l => (l.1.verifier, l.2.verifier)) ds
    ({ x with
        prover := { p with checkCnt := p.checkCnt + ab.length }
        verifier := { v with checkCnt := v.checkCnt + ab.length }
        sent := x.sent ++ numbered (x.base + x.prover.checkCnt) ds
        transcript := x.transcript ++ ds }, List.zipWith Label.mk Ms Ks)
  reveal x ls :=
    let (p, value) := revealSend x.prover (ls.map Label.prover)
    let v := revealRecv C.F C.delta x.verifier (ls.map Label.verifier) value
    ({ x with
        prover := p
        verifier := v
        opened := x.opened ++ value
        transcript := x.transcript ++ value }, value)
  revealCheckZero x ls :=
    { x with
      prover := FpOSTriple.revealCheckZero x.prover (ls.map Label.prover)
      verifier := FpOSTriple.revealCheckZero x.verifier (ls.map Label.verifier)
      opened := x.opened ++ List.replicate ls.length 0 }

end FpConfig

/-! ## What was sent -/

/-- What was sent and what was opened so far is what `S` and `outs` start with. -/
structure FpPair.Within (S : List (ℕ × ℕ)) (outs : List ℕ) (x : FpPair) : Prop where
  /-- The words that a correlation hides. -/
  sent : x.sent <+: S
  /-- The openings. -/
  opened : x.opened <+: outs

namespace FpConfig

variable {C : FpConfig}

theorem pair_ready_cases {x x₁ : FpPair} (h : C.pair.ready x = some x₁) :
    x₁ = x ∨ ∃ x₂, C.pair.checkManage x = some x₂ ∧ x₁ = C.pair.newBatch x₂ := by
  rw [FpHalf.ready] at h
  split at h
  · obtain ⟨x₂, hcheck, rfl⟩ := Option.map_eq_some_iff.mp h
    exact .inr ⟨x₂, hcheck, rfl⟩
  · exact .inl (Option.some_inj.mp h).symm

theorem pair_persists (C : FpConfig) (S : List (ℕ × ℕ)) (outs : List ℕ) :
    C.pair.Persists (FpPair.Within S outs) := by
  have hcheck : ∀ x x₁, C.pair.checkManage x = some x₁ → FpPair.Within S outs x₁ →
      FpPair.Within S outs x := by
    rintro x x₁ hx₁ ⟨hsent, hopened⟩
    obtain ⟨v, -, rfl⟩ := Option.map_eq_some_iff.mp hx₁
    exact ⟨(List.prefix_append _ _).trans hsent, hopened⟩
  exact {
    ready := by
      rintro x x₁ hready hx₁
      rcases pair_ready_cases hready with rfl | ⟨x₂, hx₂, rfl⟩
      · exact hx₁
      · exact hcheck x x₂ hx₂ ⟨hx₁.sent, hx₁.opened⟩
    authenticatedValInput := fun _ _ h => ⟨(List.prefix_append _ _).trans h.sent, h.opened⟩
    checkManage := hcheck
    authComputeMul := fun _ _ _ h => ⟨(List.prefix_append _ _).trans h.sent, h.opened⟩
    mulBlock := fun _ _ h => ⟨(List.prefix_append _ _).trans h.sent, h.opened⟩
    reveal := fun _ _ h => ⟨h.sent, (List.prefix_append _ _).trans h.opened⟩
    revealCheckZero := fun _ _ h => ⟨h.sent, (List.prefix_append _ _).trans h.opened⟩ }

/-! ## Blocks -/

/-- The counter of the batch plays no part in a block. -/
theorem mulBlockSend_checkCnt (F : FpOps) (cnt : ℕ) (e : FpOSTriple) (i : ℕ)
    (Ms : List (AuthVal × AuthVal)) :
    mulBlockSend F { e with checkCnt := cnt } i Ms
      = ({ (mulBlockSend F e i Ms).1 with checkCnt := cnt }, (mulBlockSend F e i Ms).2) := by
  induction Ms generalizing e i with
  | nil => rfl
  | cons M Ms ih =>
    have hone : mulSend F { e with checkCnt := cnt } i M.1 M.2
        = ({ (mulSend F e i M.1 M.2).1 with checkCnt := cnt }, (mulSend F e i M.1 M.2).2) := rfl
    simp only [mulBlockSend, hone, ih]

theorem mulBlockSend_same (F : FpOps) (e : FpOSTriple) (i : ℕ) (Ms : List (AuthVal × AuthVal)) :
    (mulBlockSend F e i Ms).1.checkCnt = e.checkCnt := by
  induction Ms generalizing e i with
  | nil => rfl
  | cons M Ms ih => exact ih _ _

theorem numbered_cons (d w : ℕ) (words : List ℕ) :
    numbered d (w :: words) = (d, w) :: numbered (d + 1) words := by
  rw [numbered, List.length_cons, List.range'_succ, List.zip_cons_cons, numbered]

theorem pair_iterates (C : FpConfig) : C.pair.Iterates where
  nil x := by
    simp [pair, mulBlockSend, mulBlockRecv, numbered]
  cons x a b ab := by
    simp only [pair, List.map_cons, mulBlockSend, mulBlockRecv, mulBlockSend_checkCnt,
      FpPeer.mulBlockRecv_checkCnt, mulBlockSend_same, FpPeer.mulBlockRecv_same, numbered_cons,
      List.length_cons, List.zipWith_cons_cons, List.append_assoc, List.singleton_append]
    rw [Nat.add_comm ab.length 1, ← Nat.add_assoc, ← Nat.add_assoc]
    rfl
  checkCnt _ _ _ := rfl

end FpConfig

/-! ## Openings -/

/-- The words that are opened by a program with the outputs `outs`, and 0 where
`reveal_check_zero` opens nothing. -/
def openedWords : List FpOp → List (List ℕ) → List ℕ
  | .reveal _ :: ops, value :: outs => value ++ openedWords ops outs
  | .revealCheck _ expected :: ops, outs => expected ++ openedWords ops outs
  | .revealZero is :: ops, outs => List.replicate is.length 0 ++ openedWords ops outs
  | _ :: ops, outs => openedWords ops outs
  | [], _ => []

/-- What operation `op` opens: its outputs are what is new among the outputs. -/
def Opens (op : FpOp) (x x' : FpHalfState FpPair Label) : Prop :=
  ∃ outs, x'.out = x.out ++ outs ∧ ∀ ops outs',
    x'.engine.opened ++ openedWords ops outs'
      = x.engine.opened ++ openedWords (op :: ops) (outs ++ outs')

/-! ## The two parties as one half -/

/-- A session with other engines. -/
def FpPair.into (x : FpPair) (s : FpSession) : FpSession :=
  { s with prover := x.prover, verifier := x.verifier }

/-- The session of the two parties. -/
def FpSession.ofPair (x : FpHalfState FpPair Label) (outPrv : List (List ℕ)) : FpSession where
  prover := x.engine.prover
  verifier := x.engine.verifier
  wires := x.wires
  outPrv := outPrv
  outVer := x.out

namespace FpSession

variable {C : FpConfig}

theorem pair_checkManage {s s' : FpSession} {x : FpPair}
    (h : checkManage C (x.into s) = some s') :
    ∃ x', C.pair.checkManage x = some x' ∧ s' = x'.into s ∧ x'.opened = x.opened := by
  obtain ⟨v, hcheck, rfl⟩ := Option.map_eq_some_iff.mp h
  exact ⟨_, Option.map_eq_some_iff.mpr ⟨v, hcheck, rfl⟩, rfl, rfl⟩

theorem pair_ready {s s' : FpSession} {x : FpPair} (h : ready C (x.into s) = some s') :
    ∃ x', C.pair.ready x = some x' ∧ s' = x'.into s ∧ x'.opened = x.opened := by
  rw [ready] at h
  rw [FpHalf.ready]
  split at h
  · rename_i hfull
    obtain ⟨s₁, hcheck, rfl⟩ := Option.map_eq_some_iff.mp h
    obtain ⟨x₁, hx₁, rfl, hopened⟩ := pair_checkManage hcheck
    have hcnt : C.pair.checkCnt x = C.pair.checkSz := hfull.1
    exact ⟨C.pair.newBatch x₁, by rw [if_pos hcnt, hx₁, Option.map_some], rfl, hopened⟩
  · split at h
    · cases h
    · rename_i hroom
      cases h
      exact ⟨x, if_neg fun hp => hroom (.inl hp), rfl, rfl⟩

/-- One turn of the vectorized product of the session. -/
theorem mulVec_turn {s s' : FpSession} {ab : List (Label × Label)} {cs : List Label}
    (hnil : ab ≠ []) (h : mulVec C s ab = some (s', cs)) :
    ∃ s₁ take rest, ready C s = some s₁ ∧
      take = min (C.checkSz - s₁.prover.checkCnt) ab.length ∧ 0 < take ∧
      mulVec C (mulBlock C s₁ (ab.take take)).1 (ab.drop take) = some (s', rest) ∧
      cs = (mulBlock C s₁ (ab.take take)).2 ++ rest := by
  rw [mulVec, dif_neg hnil] at h
  obtain ⟨s₁, hready, h⟩ := Option.bind_eq_some_iff.mp h
  dsimp only at h
  split at h
  · cases h
  · rename_i hboth
    obtain ⟨⟨s₂, rest⟩, hloop, hout⟩ := Option.map_eq_some_iff.mp h
    rw [Prod.mk.injEq] at hout
    obtain ⟨rfl, rfl⟩ := hout
    exact ⟨s₁, _, rest, hready, rfl, Nat.pos_of_ne_zero fun hzero => hboth (.inl hzero), hloop, rfl⟩

/-- The loop over the blocks, by induction on the products left. -/
theorem pair_mulVec {s s' : FpSession} {x : FpPair} {ab : List (Label × Label)}
    {cs : List Label} (h : mulVec C (x.into s) ab = some (s', cs)) :
    ∃ x', C.pair.mulVec x ab = some (x', cs) ∧ s' = x'.into s ∧ x'.opened = x.opened := by
  by_cases hnil : ab = []
  · subst hnil
    rw [mulVec, dif_pos rfl, Option.some_inj, Prod.mk.injEq] at h
    obtain ⟨rfl, rfl⟩ := h
    exact ⟨x, by rw [FpHalf.mulVec, dif_pos rfl], rfl, rfl⟩
  · obtain ⟨s₁, take, rest, hready, htake, hpos, hloop, rfl⟩ := mulVec_turn hnil h
    obtain ⟨x₁, hx₁, rfl, hopened₁⟩ := pair_ready hready
    have hshort : (ab.drop take).length < ab.length := by
      have := List.length_pos_of_ne_nil hnil
      rw [List.length_drop]
      omega
    obtain ⟨x', hx', rfl, hopened⟩ :=
      pair_mulVec (x := (C.pair.mulBlock x₁ (ab.take take)).1) hloop
    exact ⟨x', FpHalf.mulVec_of_turn hnil hx₁ htake hpos hx', rfl, hopened.trans hopened₁⟩
termination_by ab.length

theorem pair_sum (C : FpConfig) (ls : List Label) : C.pair.sum ls = C.sum ls := by
  cases ls <;> rfl

section Operations

variable {x : FpHalfState FpPair Label} {outPrv : List (List ℕ)} {s' : FpSession}

theorem pair_mul {i j : ℕ} (h : step C (ofPair x outPrv) (.mul i j) = some s') :
    ∃ x', C.pair.step x (.mul i j) = some x' ∧ s' = ofPair x' outPrv ∧ Opens (.mul i j) x x' := by
  obtain ⟨ls, hls, h⟩ := Option.bind_eq_some_iff.mp h
  obtain ⟨a, b, rfl⟩ := List.length_eq_two.mp (FpHalfState.length_labels (s := x) hls)
  obtain ⟨⟨s₁, c⟩, hgate, rfl⟩ := Option.map_eq_some_iff.mp h
  obtain ⟨s₂, hready, hslot⟩ := Option.map_eq_some_iff.mp hgate
  have hready : ready C (x.engine.into (ofPair x outPrv)) = some s₂ := hready
  obtain ⟨x₂, hx₂, rfl, hopened⟩ := pair_ready hready
  cases hslot
  refine ⟨x.push (C.pair.authComputeMul x₂ a b).1 [(C.pair.authComputeMul x₂ a b).2],
    Option.bind_eq_some_iff.mpr ⟨[a, b], hls, ?_⟩, rfl, [], (List.append_nil _).symm,
    fun _ _ => congrArg (· ++ _) hopened⟩
  show (C.pair.mulGate x.engine a b).map _ = _
  rw [FpHalf.mulGate, hx₂]
  rfl

theorem pair_mulVecStep {ij : List (ℕ × ℕ)}
    (h : step C (ofPair x outPrv) (.mulVec ij) = some s') :
    ∃ x', C.pair.step x (.mulVec ij) = some x' ∧ s' = ofPair x' outPrv ∧
      Opens (.mulVec ij) x x' := by
  obtain ⟨as, has, h⟩ := Option.bind_eq_some_iff.mp h
  obtain ⟨bs, hbs, h⟩ := Option.bind_eq_some_iff.mp h
  obtain ⟨⟨s₁, cs⟩, hgates, rfl⟩ := Option.map_eq_some_iff.mp h
  have hgates : mulVec C (x.engine.into (ofPair x outPrv)) (as.zip bs) = some (s₁, cs) := hgates
  obtain ⟨x₁, hx₁, rfl, hopened⟩ := pair_mulVec hgates
  refine ⟨x.push x₁ cs, Option.bind_eq_some_iff.mpr ⟨as, has,
    Option.bind_eq_some_iff.mpr ⟨bs, hbs, ?_⟩⟩, rfl, [], (List.append_nil _).symm,
    fun _ _ => congrArg (· ++ _) hopened⟩
  rw [hx₁, Option.map_some]

theorem pair_revealCheck {is expected : List ℕ}
    (h : step C (ofPair x outPrv) (.revealCheck is expected) = some s') :
    ∃ x', C.pair.step x (.revealCheck is expected) = some x' ∧ s' = ofPair x' outPrv ∧
      Opens (.revealCheck is expected) x x' := by
  obtain ⟨ls, hls, h⟩ := Option.bind_eq_some_iff.mp h
  dsimp only at h
  split at h
  · rename_i heq
    cases h
    have heq : expected = (C.pair.reveal x.engine ls).2 := heq
    refine ⟨{ x with engine := (C.pair.reveal x.engine ls).1 },
      Option.bind_eq_some_iff.mpr ⟨ls, hls, if_pos heq⟩, rfl, [], (List.append_nil _).symm,
      fun _ _ => ?_⟩
    rw [heq]
    exact List.append_assoc _ _ _
  · cases h

theorem pair_revealZero {is : List ℕ}
    (h : step C (ofPair x outPrv) (.revealZero is) = some s') :
    ∃ x', C.pair.step x (.revealZero is) = some x' ∧ s' = ofPair x' outPrv ∧
      Opens (.revealZero is) x x' := by
  obtain ⟨ls, hls, rfl⟩ := Option.map_eq_some_iff.mp h
  refine ⟨{ x with engine := C.pair.revealCheckZero x.engine ls },
    Option.map_eq_some_iff.mpr ⟨ls, hls, rfl⟩, rfl, [], (List.append_nil _).symm, fun _ _ => ?_⟩
  have hlen : ls.length = is.length := FpHalfState.length_labels (s := x) hls
  rw [openedWords, ← hlen]
  exact List.append_assoc _ _ _

/-- **One operation** of the session is one of the pair. -/
theorem pair_step {op : FpOp} (h : step C (ofPair x outPrv) op = some s') :
    ∃ x' outPrv', C.pair.step x op = some x' ∧ s' = ofPair x' outPrv' ∧ Opens op x x' := by
  have hnone : x.out = x.out ++ [] := (List.append_nil _).symm
  cases op with
  | feed w =>
    cases h
    exact ⟨_, outPrv, rfl, rfl, [], hnone, fun _ _ => rfl⟩
  | pub a =>
    cases h
    exact ⟨_, outPrv, rfl, rfl, [], hnone, fun _ _ => rfl⟩
  | add i j =>
    obtain ⟨ls, hls, h⟩ := Option.bind_eq_some_iff.mp h
    obtain ⟨a, b, rfl⟩ := List.length_eq_two.mp (FpHalfState.length_labels (s := x) hls)
    cases h
    exact ⟨_, outPrv, Option.bind_eq_some_iff.mpr ⟨[a, b], hls, rfl⟩, rfl, [], hnone,
      fun _ _ => rfl⟩
  | sub i j =>
    obtain ⟨ls, hls, h⟩ := Option.bind_eq_some_iff.mp h
    obtain ⟨a, b, rfl⟩ := List.length_eq_two.mp (FpHalfState.length_labels (s := x) hls)
    cases h
    exact ⟨_, outPrv, Option.bind_eq_some_iff.mpr ⟨[a, b], hls, rfl⟩, rfl, [], hnone,
      fun _ _ => rfl⟩
  | negate i =>
    obtain ⟨ls, hls, h⟩ := Option.bind_eq_some_iff.mp h
    obtain ⟨a, rfl⟩ := List.length_eq_one_iff.mp (FpHalfState.length_labels (s := x) hls)
    cases h
    exact ⟨_, outPrv, Option.bind_eq_some_iff.mpr ⟨[a], hls, rfl⟩, rfl, [], hnone, fun _ _ => rfl⟩
  | mul i j =>
    obtain ⟨x', hx'⟩ := pair_mul h
    exact ⟨x', outPrv, hx'⟩
  | mulVec ij =>
    obtain ⟨x', hx'⟩ := pair_mulVecStep h
    exact ⟨x', outPrv, hx'⟩
  | addConst i c =>
    obtain ⟨ls, hls, h⟩ := Option.bind_eq_some_iff.mp h
    obtain ⟨a, rfl⟩ := List.length_eq_one_iff.mp (FpHalfState.length_labels (s := x) hls)
    cases h
    exact ⟨_, outPrv, Option.bind_eq_some_iff.mpr ⟨[a], hls, rfl⟩, rfl, [], hnone, fun _ _ => rfl⟩
  | subConst i c =>
    obtain ⟨ls, hls, h⟩ := Option.bind_eq_some_iff.mp h
    obtain ⟨a, rfl⟩ := List.length_eq_one_iff.mp (FpHalfState.length_labels (s := x) hls)
    cases h
    exact ⟨_, outPrv, Option.bind_eq_some_iff.mpr ⟨[a], hls, rfl⟩, rfl, [], hnone, fun _ _ => rfl⟩
  | mulConst i c =>
    obtain ⟨ls, hls, h⟩ := Option.bind_eq_some_iff.mp h
    obtain ⟨a, rfl⟩ := List.length_eq_one_iff.mp (FpHalfState.length_labels (s := x) hls)
    cases h
    exact ⟨_, outPrv, Option.bind_eq_some_iff.mpr ⟨[a], hls, rfl⟩, rfl, [], hnone, fun _ _ => rfl⟩
  | sum is =>
    obtain ⟨ls, hls, rfl⟩ := Option.map_eq_some_iff.mp h
    refine ⟨x.push x.engine [C.sum ls], outPrv, Option.map_eq_some_iff.mpr ⟨ls, hls, ?_⟩, rfl, [],
      hnone, fun _ _ => rfl⟩
    rw [pair_sum]
  | reveal is =>
    obtain ⟨ls, hls, rfl⟩ := Option.map_eq_some_iff.mp h
    exact ⟨_, _, Option.map_eq_some_iff.mpr ⟨ls, hls, rfl⟩, rfl, [(C.pair.reveal x.engine ls).2],
      rfl, fun _ _ => List.append_assoc _ _ _⟩
  | revealCheck is expected =>
    obtain ⟨x', hx'⟩ := pair_revealCheck h
    exact ⟨x', outPrv, hx'⟩
  | revealZero is =>
    obtain ⟨x', hx'⟩ := pair_revealZero h
    exact ⟨x', outPrv, hx'⟩

end Operations

theorem pair_run {ops : List FpOp} {x : FpHalfState FpPair Label}
    {outPrv : List (List ℕ)} {s' : FpSession}
    (h : Runs.run (step C) (ofPair x outPrv) ops = some s') :
    ∃ x' outPrv', Runs.run C.pair.step x ops = some x' ∧ s' = ofPair x' outPrv' ∧
      ∃ outs, x'.out = x.out ++ outs ∧
        x'.engine.opened = x.engine.opened ++ openedWords ops outs := by
  induction ops generalizing x outPrv with
  | nil =>
    cases h
    refine ⟨x, outPrv, rfl, rfl, [], ?_, ?_⟩
    · rw [List.append_nil]
    · rw [openedWords, List.append_nil]
  | cons op ops ih =>
    obtain ⟨s₁, hstep, hrun⟩ := Runs.run_cons_eq_some.mp h
    obtain ⟨x₁, outPrv₁, hx₁, rfl, outs₁, hout₁, hopened₁⟩ := pair_step hstep
    obtain ⟨x', outPrv', hx', rfl, outs, hout, hopened⟩ := ih hrun
    refine ⟨x', outPrv', Runs.run_cons_eq_some.mpr ⟨x₁, hx₁, hx'⟩, rfl, outs₁ ++ outs, ?_, ?_⟩
    · rw [hout, hout₁, List.append_assoc]
    · rw [hopened, hopened₁]

theorem pair_finish {x : FpHalfState FpPair Label} {outPrv : List (List ℕ)}
    {s' : FpSession} (h : finish C (ofPair x outPrv) = some s') :
    ∃ x', C.pair.finish x = some x' ∧ s' = ofPair x' outPrv ∧
      x'.engine.opened = x.engine.opened := by
  rw [finish] at h
  rw [FpHalf.finish]
  split at h
  · rename_i hboth
    have hcheck : checkManage C (x.engine.into (ofPair x outPrv)) = some s' := h
    obtain ⟨x₁, hx₁, rfl, hopened⟩ := pair_checkManage hcheck
    have hcnt : C.pair.checkCnt x.engine ≠ 0 := hboth.1
    exact ⟨_, by rw [if_pos hcnt, hx₁, Option.map_some], rfl, hopened⟩
  · split at h
    · cases h
    · rename_i hzero
      cases h
      exact ⟨x, if_neg fun hp => hzero (.inl hp), rfl, rfl⟩

/-- Before the first operation. -/
def pairInit (C : FpConfig) : FpPair :=
  ⟨FpOSTriple.init C C.volePrv, FpOSTriple.init C C.voleVer, 1, [], [], []⟩

/-- **The two parties as one half**, and what they open. -/
theorem pair_program {ops : List FpOp} {s s' : FpSession}
    (hrun : Runs.run (step C) (init C) ops = some s) (hfinish : finish C s = some s') :
    ∃ x outPrv, C.pair.program (pairInit C) ops = some x ∧ s' = ofPair x outPrv ∧
      x.engine.opened = openedWords ops s'.outVer := by
  have hrun : Runs.run (step C) (ofPair ⟨pairInit C, [], []⟩ []) ops = some s := hrun
  obtain ⟨x₁, outPrv, hx₁, rfl, outs, hout, hopened₁⟩ := pair_run hrun
  obtain ⟨x, hx, rfl, hopened⟩ := pair_finish hfinish
  have hsame : x.out = x₁.out := by
    rw [FpHalf.finish] at hx
    split at hx
    · obtain ⟨e, -, rfl⟩ := Option.map_eq_some_iff.mp hx
      rfl
    · rw [Option.some_inj.mp hx]
  refine ⟨x, outPrv, by rw [FpHalf.program, hx₁, Option.bind_some, hx], rfl, ?_⟩
  rw [hopened, hopened₁]
  show openedWords ops outs = openedWords ops x.out
  rw [hsame, hout]
  rfl

end FpSession

end VoleZk
