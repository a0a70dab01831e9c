import VoleZk.Bool.ZKBool

/-!
# One party's half of the Boolean engine

`ZKBoolBase` is what the two parties' engines have in common: when a batch is checked, how a
vectorized AND is cut into waves, what a program does to the wires.  The gates, the check and the
reveals are the party's own.  Nothing is ever sent to the prover, so the verifier's half runs by
itself on what it receives: the masking bits, the two blocks of each check and the opened bits.

## What is here

* `BoolHalf` — the party's own operations, `BoolHalf.step`, `BoolHalf.finish`, `BoolHalf.program` —
  **a program, run by one party**;
* `BoolPeer`, `BoolPeer.verifier` — what a prover sends, and the verifier of `ZKBoolVerifier`;
* `BoolOp.SameShape` — programs that differ in the prover's inputs only;
* `BoolHalf.Persists` — what holds at the end held all along; `BoolHalf.Collects` — what has been
  opened;
* `BoolHalf.Follows`, `BoolHalf.Follows.program` — **a half that follows another one gate by gate
  follows its programs.**
-/

set_option autoImplicit false

namespace VoleZk

/-! ## Halves -/

/-- The operations in which the parties differ, on an engine `E` and wires `L`. -/
structure BoolHalf (E L : Type) where
  /-- `CHECK_SZ`. -/
  checkSz : ℕ
  /-- `check_cnt`. -/
  checkCnt : E → ℕ
  /-- `check_cnt = 0`. -/
  newBatch : E → E
  /-- `public_block`. -/
  publicBlock : Bool → L
  /-- `xor_block`. -/
  xorBlock : L → L → L
  /-- `not_block`. -/
  notBlock : L → L
  /-- `authenticated_bits_input`. -/
  authenticatedBitsInput : E → List Bool → E × List L
  /-- `andgate_correctness_check_manage`. -/
  checkManage : E → Option E
  /-- The scalar `auth_compute_and`, past its head. -/
  authComputeAnd : E → L → L → E × L
  /-- One wave of the vectorized `auth_compute_and`. -/
  wave : E → List (L × L) → E × List L
  /-- `verify_output`. -/
  verifyOutput : E → List L → E × List Bool

/-- One party in the middle of a program. -/
@[ext]
structure HalfState (E L : Type) where
  /-- The engine. -/
  engine : E
  /-- The wires so far. -/
  wires : List L
  /-- What `reveal_bits` returned, where the verifier takes part. -/
  out : List (List Bool)

namespace HalfState

variable {E L : Type}

/-- The wires at the given positions. -/
def labels (s : HalfState E L) (is : List ℕ) : Option (List L) := is.mapM fun i => s.wires[i]?

theorem length_labels {s : HalfState E L} {is : List ℕ} {ls : List L}
    (h : s.labels is = some ls) : ls.length = is.length := Runs.length_mapM h

/-- Append wires. -/
def push (s : HalfState E L) (e : E) (ls : List L) : HalfState E L :=
  { s with engine := e, wires := s.wires ++ ls }

end HalfState

namespace BoolHalf

variable {E L : Type} (H : BoolHalf E L)

/-- The head of an AND gate: a full batch is checked, and a new one started. -/
def ready (e : E) : Option E :=
  if H.checkCnt e = H.checkSz then (H.checkManage e).map H.newBatch else some e

/-- The scalar `and_block`. -/
def andBlock (e : E) (a b : L) : Option (E × L) :=
  (H.ready e).map fun e => H.authComputeAnd e a b

/-- The vectorized `and_block`, wave after wave.  If a wave were empty, the loop would not end. -/
def andBlocks (e : E) (ab : List (L × L)) : Option (E × List L) :=
  if _h : ab = [] then some (e, [])
  else
    (H.ready e).bind fun e =>
      let take := min (H.checkSz - H.checkCnt e) ab.length
      if _h : take = 0 then none
      else
        let (e, outs) := H.wave e (ab.take take)
        (andBlocks e (ab.drop take)).map fun (e, rest) => (e, outs ++ rest)
termination_by ab.length
decreasing_by
  have : 0 < ab.length := List.length_pos_of_ne_nil ‹_›
  simp only [List.length_drop]
  omega

/-- One turn of the loop. -/
theorem andBlocks_turn {H : BoolHalf E L} {e e₁ : E} {ab : List (L × L)} {cs : List L}
    (hnil : ab ≠ []) (h : H.andBlocks e ab = some (e₁, cs)) :
    ∃ e₂ take rest, H.ready e = some e₂ ∧ take = min (H.checkSz - H.checkCnt e₂) ab.length ∧
      0 < take ∧ H.andBlocks (H.wave e₂ (ab.take take)).1 (ab.drop take) = some (e₁, rest) ∧
      cs = (H.wave e₂ (ab.take take)).2 ++ rest := by
  rw [andBlocks, dif_neg hnil] at h
  obtain ⟨e₂, hready, h⟩ := Option.bind_eq_some_iff.mp h
  dsimp only at h
  split at h
  · cases h
  · rename_i hzero
    obtain ⟨⟨e₃, rest⟩, hloop, hout⟩ := Option.map_eq_some_iff.mp h
    rw [Prod.mk.injEq] at hout
    obtain ⟨rfl, rfl⟩ := hout
    exact ⟨e₂, _, rest, hready, rfl, Nat.pos_of_ne_zero hzero, hloop, rfl⟩

/-- The loop, put together again. -/
theorem andBlocks_of_turn {H : BoolHalf E L} {e e₁ e₂ : E} {ab : List (L × L)} {rest : List L}
    {take : ℕ} (hnil : ab ≠ []) (hready : H.ready e = some e₂)
    (htake : take = min (H.checkSz - H.checkCnt e₂) ab.length) (hpos : 0 < take)
    (hloop : H.andBlocks (H.wave e₂ (ab.take take)).1 (ab.drop take) = some (e₁, rest)) :
    H.andBlocks e ab = some (e₁, (H.wave e₂ (ab.take take)).2 ++ rest) := by
  subst htake
  rw [andBlocks, dif_neg hnil, hready, Option.bind_some]
  exact (dif_neg hpos.ne').trans (congrArg (Option.map _) hloop)

/-- The opening of wires to the verifier. -/
def revealTo (s : HalfState E L) (ls : List L) : HalfState E L :=
  let (e, b) := H.verifyOutput s.engine ls
  { s with engine := e, out := s.out ++ [b] }

/-- One operation; `none` when an error is raised or a wire does not exist. -/
def step (s : HalfState E L) : BoolOp → Option (HalfState E L)
  | .feedBits .alice input =>
    let (e, ls) := H.authenticatedBitsInput s.engine input
    some (s.push e ls)
  | .feedBits .pub input => some (s.push s.engine (input.map H.publicBlock))
  | .feedBits .bob _ => none
  | .publicBlock b => some (s.push s.engine [H.publicBlock b])
  | .xorBlock i j => (s.labels [i, j]).bind fun
    | [a, b] => some (s.push s.engine [H.xorBlock a b])
    | _ => none
  | .notBlock i => (s.labels [i]).bind fun
    | [a] => some (s.push s.engine [H.notBlock a])
    | _ => none
  | .andBlock i j => (s.labels [i, j]).bind fun
    | [a, b] => (H.andBlock s.engine a b).map fun (e, c) => s.push e [c]
    | _ => none
  | .andBlocks ij => (s.labels (ij.map Prod.fst)).bind fun as =>
    (s.labels (ij.map Prod.snd)).bind fun bs =>
      (H.andBlocks s.engine (as.zip bs)).map fun (e, cs) => s.push e cs
  | .revealBits .alice is => (s.labels is).map fun _ => s
  | .revealBits _ is => (s.labels is).map fun ls => H.revealTo s ls

/-- The destructor, up to the digests: the last batch is checked if there is one. -/
def finish (s : HalfState E L) : Option (HalfState E L) :=
  if H.checkCnt s.engine ≠ 0 then (H.checkManage s.engine).map fun e => { s with engine := e }
  else some s

/-- A whole program, from the engine `e` on. -/
def program (e : E) (ops : List BoolOp) : Option (HalfState E L) :=
  (Runs.run H.step ⟨e, [], []⟩ ops).bind H.finish

end BoolHalf

/-! ## The verifier -/

/-- What a prover sends: everything it sends is a masking bit of a COT, one of the two blocks of a
check, or an opened bit. -/
structure BoolPeer where
  /-- The masking bit of COT `i`. -/
  mask : ℕ → Bool
  /-- The two blocks sent for the check in whose state the verifier is. -/
  check : ZKBool → Block × Block
  /-- The bit opened for block `k` of `auth_hash`. -/
  opened : ℕ → Bool

namespace BoolPeer

open ZKBool

/-- A prover that does not know the keys: its blocks are those of the check that draws its COTs from
`d` on. -/
def blind (mask : ℕ → Bool) (A : ℕ → Block × Block) (opened : ℕ → Bool) : BoolPeer :=
  ⟨mask, fun e => A e.drawn, opened⟩

variable (P : BoolPeer)

/-- The masking bits of the `n` COTs from `d` on. -/
def masks (d n : ℕ) : List Bool := (List.range n).map fun i => P.mask (d + i)

/-- The bits opened for `n` blocks, when `k` have been hashed. -/
def openings (k n : ℕ) : List Bool := (List.range n).map fun i => P.opened (k + i)

/-- The verifier, on what the prover sends. -/
def verifier (C : BoolConfig) : BoolHalf ZKBool Block where
  checkSz := C.checkSz
  checkCnt := ZKBool.checkCnt
  newBatch e := { e with checkCnt := 0 }
  publicBlock := C.pubLabelVer
  xorBlock l r := l ^^^ r
  notBlock l := l ^^^ C.zdelta
  authenticatedBitsInput e input :=
    authenticatedBitsInputRecv C e (P.masks e.drawn input.length)
  checkManage e := checkManageRecv C e (P.check e)
  authComputeAnd e a b := authComputeAndRecv C e a b (P.mask e.drawn)
  wave e ab := waveRecv C e ab (P.masks e.drawn ab.length)
  verifyOutput e ls :=
    let b := P.openings e.hashed.length ls.length
    (verifyOutputRecv C e ls b, b)

end BoolPeer

/-! ## Programs that differ in the inputs -/

namespace BoolOp

/-- The same operation, up to the values of the prover's inputs. -/
inductive SameShape : BoolOp → BoolOp → Prop where
  | feedBits {input input' : List Bool} (h : input.length = input'.length) :
      SameShape (.feedBits .alice input) (.feedBits .alice input')
  | refl (op : BoolOp) : SameShape op op

end BoolOp

namespace BoolHalf

variable {E L : Type} {H : BoolHalf E L}

/-- A half that does not look at the values of the inputs. -/
theorem step_sameShape (hH : ∀ e input input', input.length = input'.length →
      H.authenticatedBitsInput e input = H.authenticatedBitsInput e input')
    {op op' : BoolOp} (h : BoolOp.SameShape op op') (s : HalfState E L) :
    H.step s op = H.step s op' := by
  cases h with
  | feedBits hlen => rw [step, step, hH _ _ _ hlen]
  | refl => rfl

theorem program_sameShape (hH : ∀ e input input', input.length = input'.length →
      H.authenticatedBitsInput e input = H.authenticatedBitsInput e input')
    {ops ops' : List BoolOp} (h : List.Forall₂ BoolOp.SameShape ops ops') (e : E) :
    H.program e ops = H.program e ops' := by
  have hrun : ∀ s, Runs.run H.step s ops = Runs.run H.step s ops' := by
    induction h with
    | nil => exact fun _ => rfl
    | cons hop _ ih =>
      intro s
      rw [Runs.run, Runs.run, step_sameShape hH hop, funext ih]
  rw [program, program, hrun]

end BoolHalf

/-! ## What held all along -/

namespace BoolHalf

section Persists

variable {E L : Type}

/-- If `Good` holds after an operation other than an opening, it held before. -/
structure GatesPersist (H : BoolHalf E L) (Good : E → Prop) : Prop where
  /-- A new batch. -/
  newBatch : ∀ e, Good (H.newBatch e) → Good e
  /-- Inputs. -/
  authenticatedBitsInput : ∀ e input, Good (H.authenticatedBitsInput e input).1 → Good e
  /-- A check. -/
  checkManage : ∀ e e₁, H.checkManage e = some e₁ → Good e₁ → Good e
  /-- A gate. -/
  authComputeAnd : ∀ e a b, Good (H.authComputeAnd e a b).1 → Good e
  /-- A wave. -/
  wave : ∀ e ab, Good (H.wave e ab).1 → Good e

/-- If `Good` holds after an operation, it held before. -/
structure Persists (H : BoolHalf E L) (Good : E → Prop) : Prop extends GatesPersist H Good where
  /-- Opened wires. -/
  verifyOutput : ∀ e ls, Good (H.verifyOutput e ls).1 → Good e

variable {H : BoolHalf E L} {Good : E → Prop}

namespace GatesPersist

variable (hH : H.GatesPersist Good)
include hH

theorem ready {e e₁ : E} (h : H.ready e = some e₁) (h₁ : Good e₁) : Good e := by
  rw [BoolHalf.ready] at h
  split at h
  · obtain ⟨e₂, hcheck, rfl⟩ := Option.map_eq_some_iff.mp h
    exact hH.checkManage e e₂ hcheck (hH.newBatch e₂ h₁)
  · exact Option.some_inj.mp h ▸ h₁

theorem andBlock {e e₁ : E} {a b c : L} (h : H.andBlock e a b = some (e₁, c)) (h₁ : Good e₁) :
    Good e := by
  obtain ⟨e₂, hready, hgate⟩ := Option.map_eq_some_iff.mp h
  refine hH.ready hready (hH.authComputeAnd e₂ a b ?_)
  rwa [hgate]

/-- The loop over the waves, by induction on the gates left. -/
theorem andBlocks {e e₁ : E} {ab : List (L × L)} {cs : List L}
    (h : H.andBlocks e ab = some (e₁, cs)) (h₁ : Good e₁) : Good e := by
  by_cases hnil : ab = []
  · subst hnil
    rw [BoolHalf.andBlocks, dif_pos rfl, Option.some_inj, Prod.mk.injEq] at h
    exact h.1 ▸ h₁
  · obtain ⟨e₂, take, rest, hready, -, hpos, hloop, -⟩ := andBlocks_turn hnil h
    have hshort : (ab.drop take).length < ab.length := by
      have := List.length_pos_of_ne_nil hnil
      rw [List.length_drop]
      omega
    exact hH.ready hready (hH.wave e₂ _ (andBlocks hloop h₁))
termination_by ab.length

end GatesPersist

namespace Persists

theorem trivial (H : BoolHalf E L) : H.Persists fun _ => True where
  newBatch _ _ := ⟨⟩
  authenticatedBitsInput _ _ _ := ⟨⟩
  checkManage _ _ _ _ := ⟨⟩
  authComputeAnd _ _ _ _ := ⟨⟩
  wave _ _ _ := ⟨⟩
  verifyOutput _ _ _ := ⟨⟩

variable (hH : H.Persists Good)
include hH

theorem step {s s₁ : HalfState E L} {op : BoolOp} (h : H.step s op = some s₁)
    (h₁ : Good s₁.engine) : Good s.engine := by
  cases op with
  | feedBits fromParty input =>
    cases fromParty with
    | alice =>
      cases h
      exact hH.authenticatedBitsInput _ input h₁
    | bob => cases h
    | pub =>
      cases h
      exact h₁
  | publicBlock b =>
    cases h
    exact h₁
  | xorBlock i j =>
    obtain ⟨ls, -, h⟩ := Option.bind_eq_some_iff.mp h
    match ls, h with
    | [a, b], h =>
      cases h
      exact h₁
  | notBlock i =>
    obtain ⟨ls, -, h⟩ := Option.bind_eq_some_iff.mp h
    match ls, h with
    | [a], h =>
      cases h
      exact h₁
  | andBlock i j =>
    obtain ⟨ls, -, h⟩ := Option.bind_eq_some_iff.mp h
    match ls, h with
    | [a, b], h =>
      obtain ⟨⟨e, c⟩, hgate, rfl⟩ := Option.map_eq_some_iff.mp h
      exact hH.andBlock hgate h₁
  | andBlocks ij =>
    obtain ⟨as, -, h⟩ := Option.bind_eq_some_iff.mp h
    obtain ⟨bs, -, h⟩ := Option.bind_eq_some_iff.mp h
    obtain ⟨⟨e, cs⟩, hgates, rfl⟩ := Option.map_eq_some_iff.mp h
    exact hH.andBlocks hgates h₁
  | revealBits toParty is =>
    cases toParty with
    | alice =>
      obtain ⟨ls, -, rfl⟩ := Option.map_eq_some_iff.mp h
      exact h₁
    | bob =>
      obtain ⟨ls, -, rfl⟩ := Option.map_eq_some_iff.mp h
      exact hH.verifyOutput _ ls h₁
    | pub =>
      obtain ⟨ls, -, rfl⟩ := Option.map_eq_some_iff.mp h
      exact hH.verifyOutput _ ls h₁

theorem run {s s₁ : HalfState E L} {ops : List BoolOp} (h : Runs.run H.step s ops = some s₁)
    (h₁ : Good s₁.engine) : Good s.engine := by
  induction ops generalizing s with
  | nil => exact Option.some_inj.mp h ▸ h₁
  | cons op ops ih =>
    obtain ⟨s₂, hstep, hrun⟩ := Runs.run_cons_eq_some.mp h
    exact hH.step hstep (ih hrun)

theorem finish {s s₁ : HalfState E L} (h : H.finish s = some s₁) (h₁ : Good s₁.engine) :
    Good s.engine := by
  rw [BoolHalf.finish] at h
  split at h
  · obtain ⟨e, hcheck, rfl⟩ := Option.map_eq_some_iff.mp h
    exact hH.checkManage _ e hcheck h₁
  · exact Option.some_inj.mp h ▸ h₁

end Persists

/-- Openings append to `g` what they return, and nothing else changes it. -/
structure Collects (H : BoolHalf E L) (g : E → List Bool) : Prop where
  /-- The other operations. -/
  gates : ∀ c, H.GatesPersist fun e => g e = c
  /-- Opened wires. -/
  verifyOutput : ∀ e ls, g (H.verifyOutput e ls).1 = g e ++ (H.verifyOutput e ls).2

namespace Collects

variable {g : E → List Bool} (hg : H.Collects g)
include hg

theorem step {s s₁ : HalfState E L} {op : BoolOp} (h : H.step s op = some s₁)
    (hs : g s.engine = s.out.flatten) : g s₁.engine = s₁.out.flatten := by
  have hgates := hg.gates (g s₁.engine)
  cases op with
  | feedBits fromParty input =>
    cases fromParty with
    | alice =>
      cases h
      exact (hgates.authenticatedBitsInput _ input rfl).symm.trans hs
    | bob => cases h
    | pub =>
      cases h
      exact hs
  | publicBlock b =>
    cases h
    exact hs
  | xorBlock i j =>
    obtain ⟨ls, -, h⟩ := Option.bind_eq_some_iff.mp h
    match ls, h with
    | [a, b], h =>
      cases h
      exact hs
  | notBlock i =>
    obtain ⟨ls, -, h⟩ := Option.bind_eq_some_iff.mp h
    match ls, h with
    | [a], h =>
      cases h
      exact hs
  | andBlock i j =>
    obtain ⟨ls, -, h⟩ := Option.bind_eq_some_iff.mp h
    match ls, h with
    | [a, b], h =>
      obtain ⟨⟨e, c⟩, hgate, rfl⟩ := Option.map_eq_some_iff.mp h
      exact (hgates.andBlock hgate rfl).symm.trans hs
  | andBlocks ij =>
    obtain ⟨as, -, h⟩ := Option.bind_eq_some_iff.mp h
    obtain ⟨bs, -, h⟩ := Option.bind_eq_some_iff.mp h
    obtain ⟨⟨e, cs⟩, hloop, rfl⟩ := Option.map_eq_some_iff.mp h
    exact (hgates.andBlocks hloop rfl).symm.trans hs
  | revealBits toParty is =>
    have hreveal : ∀ ls, g (H.revealTo s ls).engine = (H.revealTo s ls).out.flatten := fun ls => by
      show g (H.verifyOutput s.engine ls).1 = (s.out ++ [(H.verifyOutput s.engine ls).2]).flatten
      rw [hg.verifyOutput, hs]
      simp
    cases toParty with
    | alice =>
      obtain ⟨ls, -, rfl⟩ := Option.map_eq_some_iff.mp h
      exact hs
    | bob =>
      obtain ⟨ls, -, rfl⟩ := Option.map_eq_some_iff.mp h
      exact hreveal ls
    | pub =>
      obtain ⟨ls, -, rfl⟩ := Option.map_eq_some_iff.mp h
      exact hreveal ls

/-- **What a program has opened** is what its openings have returned. -/
theorem program {e : E} {s : HalfState E L} {ops : List BoolOp} (h : H.program e ops = some s)
    (he : g e = []) : g s.engine = s.out.flatten := by
  obtain ⟨s₁, hrun, hfinish⟩ := Option.bind_eq_some_iff.mp h
  have hstep : ∀ {s s' : HalfState E L} {op : BoolOp}, g s.engine = s.out.flatten →
      H.step s op = some s' → g s'.engine = s'.out.flatten := fun hs h => hg.step h hs
  have hinit : g (⟨e, [], []⟩ : HalfState E L).engine = [] := he
  have hs₁ : g s₁.engine = s₁.out.flatten := Runs.invariant_of_run hstep hinit hrun
  rw [BoolHalf.finish] at hfinish
  split at hfinish
  · obtain ⟨e₁, hcheck, rfl⟩ := Option.map_eq_some_iff.mp hfinish
    exact ((hg.gates (g e₁)).checkManage _ e₁ hcheck rfl).symm.trans hs₁
  · cases hfinish
    exact hs₁

end Collects

end Persists

/-! ## A half that follows another -/

section Follows

variable {E L E' L' : Type}

/-- `H` can follow `H'` gate by gate, to where `Good` holds: its engine is related by `R`, its wires
by `W`. -/
structure Follows (H : BoolHalf E L) (H' : BoolHalf E' L') (Good : E' → Prop) (R : E → E' → Prop)
    (W : L → L' → Prop) : Prop where
  /-- What is good was good. -/
  persists : H'.Persists Good
  /-- The batches are of the same size. -/
  checkSz : H.checkSz = H'.checkSz
  /-- The counters agree. -/
  checkCnt : ∀ e e', R e e' → H.checkCnt e = H'.checkCnt e'
  /-- A new batch. -/
  newBatch : ∀ e e', R e e' → R (H.newBatch e) (H'.newBatch e')
  /-- Public wires. -/
  publicBlock : ∀ b, W (H.publicBlock b) (H'.publicBlock b)
  /-- Exclusive or. -/
  xorBlock : ∀ l r l' r', W l l' → W r r' → W (H.xorBlock l r) (H'.xorBlock l' r')
  /-- Negation. -/
  notBlock : ∀ l l', W l l' → W (H.notBlock l) (H'.notBlock l')
  /-- Inputs. -/
  authenticatedBitsInput : ∀ e e' input, R e e' → Good (H'.authenticatedBitsInput e' input).1 →
    R (H.authenticatedBitsInput e input).1 (H'.authenticatedBitsInput e' input).1 ∧
      List.Forall₂ W (H.authenticatedBitsInput e input).2 (H'.authenticatedBitsInput e' input).2
  /-- A check that passes. -/
  checkManage : ∀ e e' e₁', R e e' → H'.checkManage e' = some e₁' → Good e₁' →
    ∃ e₁, H.checkManage e = some e₁ ∧ R e₁ e₁'
  /-- A gate. -/
  authComputeAnd : ∀ e e' a b a' b', R e e' → W a a' → W b b' →
    Good (H'.authComputeAnd e' a' b').1 →
    R (H.authComputeAnd e a b).1 (H'.authComputeAnd e' a' b').1 ∧
      W (H.authComputeAnd e a b).2 (H'.authComputeAnd e' a' b').2
  /-- A wave. -/
  wave : ∀ e e' ab ab', R e e' →
    List.Forall₂ (fun x y => W x.1 y.1 ∧ W x.2 y.2) ab ab' → Good (H'.wave e' ab').1 →
    R (H.wave e ab).1 (H'.wave e' ab').1 ∧ List.Forall₂ W (H.wave e ab).2 (H'.wave e' ab').2
  /-- Opened wires. -/
  verifyOutput : ∀ e e' ls ls', R e e' → List.Forall₂ W ls ls' → Good (H'.verifyOutput e' ls').1 →
    R (H.verifyOutput e ls).1 (H'.verifyOutput e' ls').1 ∧
      (H.verifyOutput e ls).2 = (H'.verifyOutput e' ls').2

/-- The states of the two halves. -/
structure Related (R : E → E' → Prop) (W : L → L' → Prop) (s : HalfState E L)
    (s' : HalfState E' L') : Prop where
  /-- The engines are related. -/
  engine : R s.engine s'.engine
  /-- The wires are related. -/
  wires : List.Forall₂ W s.wires s'.wires
  /-- The outputs are the same. -/
  out : s.out = s'.out

variable {H : BoolHalf E L} {H' : BoolHalf E' L'} {Good : E' → Prop} {R : E → E' → Prop}
  {W : L → L' → Prop}

namespace Related

variable {s : HalfState E L} {s' : HalfState E' L'} (hs : Related R W s s')
include hs

theorem push {e : E} {e' : E'} (he : R e e') {ls : List L} {ls' : List L'}
    (hls : List.Forall₂ W ls ls') : Related R W (s.push e ls) (s'.push e' ls') :=
  ⟨he, List.rel_append hs.wires hls, hs.out⟩

theorem labels {is : List ℕ} {ls' : List L'} (h : s'.labels is = some ls') :
    ∃ ls, s.labels is = some ls ∧ List.Forall₂ W ls ls' := by
  have hrel := Runs.mapM_getElem?_rel hs.wires is
  rw [HalfState.labels] at h
  rw [h] at hrel
  rw [HalfState.labels]
  generalize (is.mapM fun i => s.wires[i]?) = found at hrel ⊢
  cases hrel with
  | some hls => exact ⟨_, rfl, hls⟩

end Related

namespace Follows

variable (hH : H.Follows H' Good R W)
include hH

theorem ready {e : E} {e' e₁' : E'} (he : R e e') (h : H'.ready e' = some e₁') (h₁ : Good e₁') :
    ∃ e₁, H.ready e = some e₁ ∧ R e₁ e₁' := by
  rw [BoolHalf.ready] at h ⊢
  rw [hH.checkCnt e e' he, hH.checkSz]
  split at h
  · rename_i hfull
    obtain ⟨e₂', hcheck, rfl⟩ := Option.map_eq_some_iff.mp h
    obtain ⟨e₂, he₂, hR⟩ :=
      hH.checkManage e e' e₂' he hcheck (hH.persists.newBatch e₂' h₁)
    rw [if_pos hfull, he₂]
    exact ⟨_, rfl, hH.newBatch _ _ hR⟩
  · rename_i hroom
    rw [if_neg hroom]
    exact ⟨e, rfl, Option.some_inj.mp h ▸ he⟩

theorem andBlock {e : E} {e' e₁' : E'} {a b : L} {a' b' c' : L'} (he : R e e') (ha : W a a')
    (hb : W b b') (h : H'.andBlock e' a' b' = some (e₁', c')) (h₁ : Good e₁') :
    ∃ e₁ c, H.andBlock e a b = some (e₁, c) ∧ R e₁ e₁' ∧ W c c' := by
  obtain ⟨e₂', hready, hgate⟩ := Option.map_eq_some_iff.mp h
  have hgood : Good (H'.authComputeAnd e₂' a' b').1 := by rwa [hgate]
  obtain ⟨e₂, he₂, hR⟩ :=
    hH.ready he hready (hH.persists.authComputeAnd e₂' a' b' hgood)
  obtain ⟨hR', hc⟩ := hH.authComputeAnd e₂ e₂' a b a' b' hR ha hb hgood
  rw [hgate] at hR' hc
  exact ⟨_, _, by rw [BoolHalf.andBlock, he₂, Option.map_some], hR', hc⟩

/-- The loop over the waves, by induction on the gates left. -/
theorem andBlocks {e : E} {e' e₁' : E'} {ab : List (L × L)} {ab' : List (L' × L')} {cs' : List L'}
    (he : R e e') (hab : List.Forall₂ (fun x y => W x.1 y.1 ∧ W x.2 y.2) ab ab')
    (h : H'.andBlocks e' ab' = some (e₁', cs')) (h₁ : Good e₁') :
    ∃ e₁ cs, H.andBlocks e ab = some (e₁, cs) ∧ R e₁ e₁' ∧ List.Forall₂ W cs cs' := by
  by_cases hnil : ab' = []
  · subst hnil
    cases hab
    rw [BoolHalf.andBlocks, dif_pos rfl, Option.some_inj, Prod.mk.injEq] at h
    obtain ⟨rfl, rfl⟩ := h
    exact ⟨e, [], by rw [BoolHalf.andBlocks, dif_pos rfl], he, .nil⟩
  · obtain ⟨e₂', take, rest', hready, htake, hpos, hloop, rfl⟩ := andBlocks_turn hnil h
    have hwave := hH.persists.andBlocks hloop h₁
    obtain ⟨e₂, he₂, hR⟩ := hH.ready he hready (hH.persists.wave _ _ hwave)
    obtain ⟨hR', hcs⟩ := hH.wave e₂ e₂' _ _ hR (List.forall₂_take take hab) hwave
    have hne : ab ≠ [] := by
      rintro rfl
      cases hab
      exact hnil rfl
    have hshort : (ab.drop take).length < ab.length := by
      have := List.length_pos_of_ne_nil hne
      rw [List.length_drop]
      omega
    obtain ⟨e₁, rest, he₁, hR₁, hrest⟩ := andBlocks hR' (List.forall₂_drop take hab) hloop h₁
    refine ⟨e₁, _, andBlocks_of_turn hne he₂ ?_ hpos he₁, hR₁, List.rel_append hcs hrest⟩
    rw [hH.checkSz, hH.checkCnt e₂ e₂' hR, hab.length_eq, htake]
termination_by ab.length

/-- **One operation.** -/
theorem step {s : HalfState E L} {s' s₁' : HalfState E' L'} {op : BoolOp} (hs : Related R W s s')
    (h : H'.step s' op = some s₁') (h₁ : Good s₁'.engine) :
    ∃ s₁, H.step s op = some s₁ ∧ Related R W s₁ s₁' := by
  cases op with
  | feedBits fromParty input =>
    cases fromParty with
    | alice =>
      cases h
      obtain ⟨hR, hls⟩ := hH.authenticatedBitsInput _ _ input hs.engine h₁
      exact ⟨_, rfl, hs.push hR hls⟩
    | bob => cases h
    | pub =>
      cases h
      refine ⟨_, rfl, hs.push hs.engine ?_⟩
      exact List.forall₂_map_left_iff.mpr (List.forall₂_map_right_iff.mpr
        (List.forall₂_same.mpr fun b _ => hH.publicBlock b))
  | publicBlock b =>
    cases h
    exact ⟨_, rfl, hs.push hs.engine (.cons (hH.publicBlock b) .nil)⟩
  | xorBlock i j =>
    obtain ⟨ls', hls', h⟩ := Option.bind_eq_some_iff.mp h
    obtain ⟨ls, hls, hW⟩ := hs.labels hls'
    rw [BoolHalf.step, hls]
    match ls', hW, h with
    | [a', b'], .cons ha (.cons hb .nil), h =>
      cases h
      exact ⟨_, rfl, hs.push hs.engine (.cons (hH.xorBlock _ _ _ _ ha hb) .nil)⟩
  | notBlock i =>
    obtain ⟨ls', hls', h⟩ := Option.bind_eq_some_iff.mp h
    obtain ⟨ls, hls, hW⟩ := hs.labels hls'
    rw [BoolHalf.step, hls]
    match ls', hW, h with
    | [a'], .cons ha .nil, h =>
      cases h
      exact ⟨_, rfl, hs.push hs.engine (.cons (hH.notBlock _ _ ha) .nil)⟩
  | andBlock i j =>
    obtain ⟨ls', hls', h⟩ := Option.bind_eq_some_iff.mp h
    obtain ⟨ls, hls, hW⟩ := hs.labels hls'
    rw [BoolHalf.step, hls]
    match ls', hW, h with
    | [a', b'], .cons ha (.cons hb .nil), h =>
      obtain ⟨⟨e₁', c'⟩, hgate, rfl⟩ := Option.map_eq_some_iff.mp h
      obtain ⟨e₁, c, he₁, hR, hc⟩ := hH.andBlock hs.engine ha hb hgate h₁
      exact ⟨_, congrArg (Option.map _) he₁, hs.push hR (.cons hc .nil)⟩
  | andBlocks ij =>
    obtain ⟨as', has', h⟩ := Option.bind_eq_some_iff.mp h
    obtain ⟨bs', hbs', h⟩ := Option.bind_eq_some_iff.mp h
    obtain ⟨as, has, hWa⟩ := hs.labels has'
    obtain ⟨bs, hbs, hWb⟩ := hs.labels hbs'
    obtain ⟨⟨e₁', cs'⟩, hgates, rfl⟩ := Option.map_eq_some_iff.mp h
    obtain ⟨e₁, cs, he₁, hR, hcs⟩ := hH.andBlocks hs.engine (Runs.zip_rel hWa hWb) hgates h₁
    refine ⟨_, ?_, hs.push hR hcs⟩
    rw [BoolHalf.step, has, Option.bind_some, hbs, Option.bind_some, he₁, Option.map_some]
  | revealBits toParty is =>
    have hreveal : ∀ ls ls', List.Forall₂ W ls ls' → H'.revealTo s' ls' = s₁' →
        Related R W (H.revealTo s ls) s₁' := by
      rintro ls ls' hW rfl
      obtain ⟨hR, hb⟩ := hH.verifyOutput _ _ ls ls' hs.engine hW h₁
      exact ⟨hR, hs.wires, congrArg₂ (· ++ [·]) hs.out hb⟩
    cases toParty with
    | alice =>
      obtain ⟨ls', hls', rfl⟩ := Option.map_eq_some_iff.mp h
      obtain ⟨ls, hls, -⟩ := hs.labels hls'
      exact ⟨s, congrArg (Option.map _) hls, hs⟩
    | bob =>
      obtain ⟨ls', hls', h⟩ := Option.map_eq_some_iff.mp h
      obtain ⟨ls, hls, hW⟩ := hs.labels hls'
      exact ⟨_, congrArg (Option.map _) hls, hreveal ls ls' hW h⟩
    | pub =>
      obtain ⟨ls', hls', h⟩ := Option.map_eq_some_iff.mp h
      obtain ⟨ls, hls, hW⟩ := hs.labels hls'
      exact ⟨_, congrArg (Option.map _) hls, hreveal ls ls' hW h⟩

/-- **A run.** -/
theorem run {s : HalfState E L} {s' s₁' : HalfState E' L'} {ops : List BoolOp}
    (hs : Related R W s s') (h : Runs.run H'.step s' ops = some s₁') (h₁ : Good s₁'.engine) :
    ∃ s₁, Runs.run H.step s ops = some s₁ ∧ Related R W s₁ s₁' := by
  induction ops generalizing s s' with
  | nil => exact ⟨s, rfl, Option.some_inj.mp h ▸ hs⟩
  | cons op ops ih =>
    obtain ⟨s₂', hstep, hrun⟩ := Runs.run_cons_eq_some.mp h
    obtain ⟨s₂, hs₂, hR₂⟩ := hH.step hs hstep (hH.persists.run hrun h₁)
    obtain ⟨s₁, hs₁, hR₁⟩ := ih hR₂ hrun
    exact ⟨s₁, Runs.run_cons_eq_some.mpr ⟨s₂, hs₂, hs₁⟩, hR₁⟩

/-- The destructor. -/
theorem finish {s : HalfState E L} {s' s₁' : HalfState E' L'} (hs : Related R W s s')
    (h : H'.finish s' = some s₁') (h₁ : Good s₁'.engine) :
    ∃ s₁, H.finish s = some s₁ ∧ Related R W s₁ s₁' := by
  rw [BoolHalf.finish] at h ⊢
  rw [hH.checkCnt _ _ hs.engine]
  split at h
  · rename_i hcnt
    obtain ⟨e₁', hcheck, rfl⟩ := Option.map_eq_some_iff.mp h
    obtain ⟨e₁, he₁, hR⟩ := hH.checkManage _ _ _ hs.engine hcheck h₁
    rw [if_pos hcnt, he₁]
    exact ⟨_, rfl, hR, hs.wires, hs.out⟩
  · rename_i hcnt
    rw [if_neg hcnt]
    exact ⟨s, rfl, Option.some_inj.mp h ▸ hs⟩

/-- **A whole program.** -/
theorem program {e : E} {e' : E'} {s₁' : HalfState E' L'} {ops : List BoolOp} (he : R e e')
    (h : H'.program e' ops = some s₁') (h₁ : Good s₁'.engine) :
    ∃ s₁, H.program e ops = some s₁ ∧ Related R W s₁ s₁' := by
  obtain ⟨s₂', hrun, hfinish⟩ := Option.bind_eq_some_iff.mp h
  have hinit : Related R W ⟨e, [], []⟩ ⟨e', [], []⟩ := ⟨he, .nil, rfl⟩
  obtain ⟨s₂, hs₂, hR₂⟩ := hH.run hinit hrun (hH.persists.finish hfinish h₁)
  obtain ⟨s₁, hs₁, hR₁⟩ := hH.finish hR₂ hfinish h₁
  exact ⟨s₁, by rw [BoolHalf.program, hs₂, Option.bind_some, hs₁], hR₁⟩

end Follows

end Follows

end BoolHalf

end VoleZk
