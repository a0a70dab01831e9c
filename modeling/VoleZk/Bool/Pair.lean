import VoleZk.Bool.Half
import VoleZk.Bool.Complete

/-!
# The two parties as one half

A session of honest parties is itself a half of the engine, whose wires are the labels of both.  It
keeps a tape of the bits that were sent under the COTs, and the bits that were opened.

## What is here

* `EnginePair`, `BoolConfig.pair`;
* `BoolConfig.pair_persists`, `BoolConfig.pair_collects` — tape and openings only grow, and the
  openings are what the reveals return;
* `BoolSession.pair_program` — **a session is a program of the pair.**
-/

set_option autoImplicit false

namespace VoleZk

open ZKBool

/-! ## Definitions -/

/-- Both parties, and what was sent. -/
structure EnginePair where
  /-- The prover's engine. -/
  prover : ZKBool
  /-- The verifier's engine. -/
  verifier : ZKBool
  /-- For each COT, the bit that was sent under it. -/
  tape : List Bool
  /-- The bits that were opened. -/
  opened : List Bool

namespace BoolConfig

/-- The bits of a block. -/
def bitsOf (A : Block) : List Bool := (List.range 128).map fun i => A.getLsbD i

/-- The two parties. -/
def pair (C : BoolConfig) : BoolHalf EnginePair BitLabel where
  checkSz := C.checkSz
  checkCnt x := x.prover.checkCnt
  newBatch x :=
    { x with
      prover := { x.prover with checkCnt := 0 }
      verifier := { x.verifier with checkCnt := 0 } }
  publicBlock := C.publicBlock
  xorBlock := BoolConfig.xorBlock
  notBlock := C.notBlock
  authenticatedBitsInput x input :=
    let (p, Ms, mask) := authenticatedBitsInputSend C x.prover input
    let (v, Ks) := authenticatedBitsInputRecv C x.verifier mask
    ({ x with prover := p, verifier := v, tape := x.tape ++ mask }, List.zipWith BitLabel.mk Ms Ks)
  checkManage x :=
    let (p, A) := checkManageSend C x.prover
    (checkManageRecv C x.verifier A).map fun v =>
      { x with prover := p, verifier := v, tape := x.tape ++ bitsOf A.2 }
  authComputeAnd x a b :=
    let (p, M, d) := authComputeAndSend C x.prover a.prover b.prover
    let (v, K) := authComputeAndRecv C x.verifier a.verifier b.verifier d
    ({ x with prover := p, verifier := v, tape := x.tape ++ [d] }, ⟨M, K⟩)
  wave x ab :=
    let (p, Ms, bits) := waveSend C x.prover (ab.map fun l => (l.1.prover, l.2.prover))
    let (v, Ks) := waveRecv C x.verifier (ab.map fun l => (l.1.verifier, l.2.verifier)) bits
    ({ x with prover := p, verifier := v, tape := x.tape ++ bits }, List.zipWith BitLabel.mk Ms Ks)
  verifyOutput x ls :=
    let (p, b) := verifyOutputSend x.prover (ls.map BitLabel.prover)
    let v := verifyOutputRecv C x.verifier (ls.map BitLabel.verifier) b
    ({ x with prover := p, verifier := v, opened := x.opened ++ b }, b)

end BoolConfig

/-! ## The tape and the openings -/

/-- What was sent so far is what the tape and the outputs start with. -/
structure EnginePair.Within (T outs : List Bool) (x : EnginePair) : Prop where
  /-- The bits under the COTs. -/
  tape : x.tape <+: T
  /-- The opened bits. -/
  opened : x.opened <+: outs

namespace BoolConfig

theorem pair_persists (C : BoolConfig) (T outs : List Bool) :
    C.pair.Persists (EnginePair.Within T outs) where
  newBatch _ h := ⟨h.tape, h.opened⟩
  authenticatedBitsInput _ _ h := ⟨(List.prefix_append _ _).trans h.tape, h.opened⟩
  checkManage := by
    intro x x₁ hcheck h
    obtain ⟨v, -, rfl⟩ := Option.map_eq_some_iff.mp hcheck
    exact ⟨(List.prefix_append _ _).trans h.tape, h.opened⟩
  authComputeAnd _ _ _ h := ⟨(List.prefix_append _ _).trans h.tape, h.opened⟩
  wave _ _ h := ⟨(List.prefix_append _ _).trans h.tape, h.opened⟩
  verifyOutput _ _ h := ⟨h.tape, (List.prefix_append _ _).trans h.opened⟩

/-- The openings are what the reveals return. -/
theorem pair_collects (C : BoolConfig) : C.pair.Collects EnginePair.opened where
  gates c :=
    { newBatch := fun _ h => h
      authenticatedBitsInput := fun _ _ h => h
      checkManage := by
        rintro x x₁ hcheck rfl
        obtain ⟨v, -, rfl⟩ := Option.map_eq_some_iff.mp hcheck
        rfl
      authComputeAnd := fun _ _ _ h => h
      wave := fun _ _ h => h }
  verifyOutput _ _ := rfl

end BoolConfig

/-! ## The two parties as one half -/

/-- A session with other engines. -/
def EnginePair.into (x : EnginePair) (s : BoolSession) : BoolSession :=
  { s with prover := x.prover, verifier := x.verifier }

/-- The session of the two parties. -/
def BoolSession.ofPair (x : HalfState EnginePair BitLabel) (outPrv : List (List Bool)) :
    BoolSession where
  prover := x.engine.prover
  verifier := x.engine.verifier
  wires := x.wires
  outPrv := outPrv
  outVer := x.out

namespace BoolSession

variable {C : BoolConfig}

theorem pair_checkManage {s s' : BoolSession} {x : EnginePair}
    (h : checkManage C (x.into s) = some s') :
    ∃ x', C.pair.checkManage x = some x' ∧ s' = x'.into s := by
  obtain ⟨v, hcheck, rfl⟩ := Option.map_eq_some_iff.mp h
  exact ⟨_, Option.map_eq_some_iff.mpr ⟨v, hcheck, rfl⟩, rfl⟩

theorem pair_ready {s s' : BoolSession} {x : EnginePair} (h : ready C (x.into s) = some s') :
    ∃ x', C.pair.ready x = some x' ∧ s' = x'.into s := by
  rw [ready] at h
  rw [BoolHalf.ready]
  split at h
  · rename_i hfull
    obtain ⟨s₁, hcheck, rfl⟩ := Option.map_eq_some_iff.mp h
    obtain ⟨x₁, hx₁, rfl⟩ := pair_checkManage hcheck
    have hcnt : C.pair.checkCnt x = C.pair.checkSz := hfull.1
    exact ⟨_, by rw [if_pos hcnt, hx₁, Option.map_some], rfl⟩
  · split at h
    · cases h
    · rename_i hroom
      cases h
      exact ⟨x, if_neg fun hp => hroom (.inl hp), rfl⟩

/-- One turn of the vectorized AND of the session. -/
theorem andBlocks_turn {s s' : BoolSession} {ab : List (BitLabel × BitLabel)} {cs : List BitLabel}
    (hnil : ab ≠ []) (h : andBlocks C s ab = some (s', cs)) :
    ∃ s₁ take rest, ready C s = some s₁ ∧
      take = min (C.checkSz - s₁.prover.checkCnt) ab.length ∧ 0 < take ∧
      andBlocks C (wave C s₁ (ab.take take)).1 (ab.drop take) = some (s', rest) ∧
      cs = (wave C s₁ (ab.take take)).2 ++ rest := by
  rw [andBlocks, dif_neg hnil] at h
  obtain ⟨s₁, hready, h⟩ := Option.bind_eq_some_iff.mp h
  dsimp only at h
  split at h
  · cases h
  · rename_i hboth
    obtain ⟨⟨s₂, rest⟩, hloop, hout⟩ := Option.map_eq_some_iff.mp h
    rw [Prod.mk.injEq] at hout
    obtain ⟨rfl, rfl⟩ := hout
    exact ⟨s₁, _, rest, hready, rfl, Nat.pos_of_ne_zero fun hzero => hboth (.inl hzero), hloop, rfl⟩

/-- The loop over the waves, by induction on the gates left. -/
theorem pair_andBlocks {s s' : BoolSession} {x : EnginePair} {ab : List (BitLabel × BitLabel)}
    {cs : List BitLabel} (h : andBlocks C (x.into s) ab = some (s', cs)) :
    ∃ x', C.pair.andBlocks x ab = some (x', cs) ∧ s' = x'.into s := by
  by_cases hnil : ab = []
  · subst hnil
    rw [andBlocks, dif_pos rfl, Option.some_inj, Prod.mk.injEq] at h
    obtain ⟨rfl, rfl⟩ := h
    exact ⟨x, by rw [BoolHalf.andBlocks, dif_pos rfl], rfl⟩
  · obtain ⟨s₁, take, rest, hready, htake, hpos, hloop, rfl⟩ := andBlocks_turn hnil h
    obtain ⟨x₁, hx₁, rfl⟩ := pair_ready hready
    have hshort : (ab.drop take).length < ab.length := by
      have := List.length_pos_of_ne_nil hnil
      rw [List.length_drop]
      omega
    obtain ⟨x', hx', rfl⟩ := pair_andBlocks (x := (C.pair.wave x₁ (ab.take take)).1) hloop
    exact ⟨x', BoolHalf.andBlocks_of_turn hnil hx₁ htake hpos hx', rfl⟩
termination_by ab.length

theorem pair_step {x : HalfState EnginePair BitLabel} {outPrv : List (List Bool)}
    {s' : BoolSession} {op : BoolOp} (h : step C (ofPair x outPrv) op = some s') :
    ∃ x' outPrv', C.pair.step x op = some x' ∧ s' = ofPair x' outPrv' := by
  cases op with
  | feedBits fromParty input =>
    cases fromParty with
    | alice =>
      cases h
      exact ⟨_, outPrv, rfl, rfl⟩
    | bob => cases h
    | pub =>
      cases h
      exact ⟨_, outPrv, rfl, rfl⟩
  | publicBlock b =>
    cases h
    exact ⟨_, outPrv, rfl, rfl⟩
  | xorBlock i j =>
    obtain ⟨ls, hls, h⟩ := Option.bind_eq_some_iff.mp h
    match ls, h with
    | [a, b], h =>
      cases h
      exact ⟨_, outPrv, Option.bind_eq_some_iff.mpr ⟨[a, b], hls, rfl⟩, rfl⟩
  | notBlock i =>
    obtain ⟨ls, hls, h⟩ := Option.bind_eq_some_iff.mp h
    match ls, h with
    | [a], h =>
      cases h
      exact ⟨_, outPrv, Option.bind_eq_some_iff.mpr ⟨[a], hls, rfl⟩, rfl⟩
  | andBlock i j =>
    obtain ⟨ls, hls, h⟩ := Option.bind_eq_some_iff.mp h
    match ls, h with
    | [a, b], h =>
      obtain ⟨⟨s₁, c⟩, hgate, rfl⟩ := Option.map_eq_some_iff.mp h
      obtain ⟨s₂, hready, hslot⟩ := Option.map_eq_some_iff.mp hgate
      have hready : ready C (x.engine.into (ofPair x outPrv)) = some s₂ := hready
      obtain ⟨x₂, hx₂, rfl⟩ := pair_ready hready
      cases hslot
      refine ⟨x.push (C.pair.authComputeAnd x₂ a b).1 [(C.pair.authComputeAnd x₂ a b).2], outPrv,
        Option.bind_eq_some_iff.mpr ⟨[a, b], hls, ?_⟩, rfl⟩
      show (C.pair.andBlock x.engine a b).map _ = _
      rw [BoolHalf.andBlock, hx₂]
      rfl
  | andBlocks ij =>
    obtain ⟨as, has, h⟩ := Option.bind_eq_some_iff.mp h
    obtain ⟨bs, hbs, h⟩ := Option.bind_eq_some_iff.mp h
    obtain ⟨⟨s₁, cs⟩, hgates, rfl⟩ := Option.map_eq_some_iff.mp h
    have hgates : andBlocks C (x.engine.into (ofPair x outPrv)) (as.zip bs) = some (s₁, cs) :=
      hgates
    obtain ⟨x₁, hx₁, rfl⟩ := pair_andBlocks hgates
    refine ⟨x.push x₁ cs, outPrv, Option.bind_eq_some_iff.mpr ⟨as, has,
      Option.bind_eq_some_iff.mpr ⟨bs, hbs, ?_⟩⟩, rfl⟩
    rw [hx₁, Option.map_some]
  | revealBits toParty is =>
    cases toParty with
    | alice =>
      obtain ⟨ls, hls, rfl⟩ := Option.map_eq_some_iff.mp h
      exact ⟨x, _, Option.map_eq_some_iff.mpr ⟨ls, hls, rfl⟩, rfl⟩
    | bob =>
      obtain ⟨ls, hls, rfl⟩ := Option.map_eq_some_iff.mp h
      exact ⟨C.pair.revealTo x ls, _, Option.map_eq_some_iff.mpr ⟨ls, hls, rfl⟩, rfl⟩
    | pub =>
      obtain ⟨ls, hls, rfl⟩ := Option.map_eq_some_iff.mp h
      exact ⟨C.pair.revealTo x ls, _, Option.map_eq_some_iff.mpr ⟨ls, hls, rfl⟩, rfl⟩

theorem pair_run {ops : List BoolOp} {x : HalfState EnginePair BitLabel}
    {outPrv : List (List Bool)} {s' : BoolSession}
    (h : Runs.run (step C) (ofPair x outPrv) ops = some s') :
    ∃ x' outPrv', Runs.run C.pair.step x ops = some x' ∧ s' = ofPair x' outPrv' := by
  induction ops generalizing x outPrv with
  | nil =>
    cases h
    exact ⟨x, outPrv, rfl, rfl⟩
  | cons op ops ih =>
    obtain ⟨s₁, hstep, hrun⟩ := Runs.run_cons_eq_some.mp h
    obtain ⟨x₁, outPrv₁, hx₁, rfl⟩ := pair_step hstep
    obtain ⟨x', outPrv', hx', rfl⟩ := ih hrun
    exact ⟨x', outPrv', Runs.run_cons_eq_some.mpr ⟨x₁, hx₁, hx'⟩, rfl⟩

theorem pair_finish {x : HalfState EnginePair BitLabel} {outPrv : List (List Bool)}
    {s' : BoolSession} (h : finish C (ofPair x outPrv) = some s') :
    ∃ x', C.pair.finish x = some x' ∧ s' = ofPair x' outPrv := by
  rw [finish] at h
  rw [BoolHalf.finish]
  split at h
  · rename_i hboth
    have hcheck : checkManage C (x.engine.into (ofPair x outPrv)) = some s' := h
    obtain ⟨x₁, hx₁, rfl⟩ := pair_checkManage hcheck
    have hcnt : C.pair.checkCnt x.engine ≠ 0 := hboth.1
    exact ⟨_, by rw [if_pos hcnt, hx₁, Option.map_some], rfl⟩
  · split at h
    · cases h
    · rename_i hzero
      cases h
      exact ⟨x, if_neg fun hp => hzero (.inl hp), rfl⟩

/-- Before the first operation. -/
def pairInit : EnginePair := ⟨ZKBool.init, ZKBool.init, [], []⟩

/-- **The two parties as one half.** -/
theorem pair_program {ops : List BoolOp} {s s' : BoolSession}
    (hrun : Runs.run (step C) init ops = some s) (hfinish : finish C s = some s') :
    ∃ x outPrv, C.pair.program pairInit ops = some x ∧ s' = ofPair x outPrv := by
  have hrun : Runs.run (step C) (ofPair ⟨pairInit, [], []⟩ []) ops = some s := hrun
  obtain ⟨x₁, outPrv, hx₁, rfl⟩ := pair_run hrun
  obtain ⟨x, hx, rfl⟩ := pair_finish hfinish
  exact ⟨x, outPrv, by rw [BoolHalf.program, hx₁, Option.bind_some, hx], rfl⟩

end BoolSession

end VoleZk
