import VoleZk.Arith.FpExec

/-!
# One party's half of the arithmetic engine

`FpOSTriple` is the same class on both sides: when a batch of products is checked, how a vectorized
product is cut into blocks and what a program does to the wires is common to the parties.  The
gates, the batch check and the reveals are the party's own.  Nothing but seeds is ever sent to the
prover, so the verifier's half runs by itself on what it receives: the corrections of the
correlations, the two words of each check and the opened words.

## What is here

* `FpHalf` — the party's own operations, `FpHalf.step`, `FpHalf.finish`, `FpHalf.program` — **a
  program, run by one party**;
* `FpPeer`, `FpPeer.verifier` — what a prover sends, and the verifier of `ZKFpExecVer`;
* `FpHalf.Iterates`, `FpPeer.verifier_iterates` — a block is one product after the other;
* `FpOp.SameShape`, `FpHalf.program_sameShape` — programs that differ in the prover's inputs only;
* `FpHalf.Persists` — what holds at the end held all along;
* `FpHalf.Follows`, `FpHalf.Follows.program` — **a half that follows another one gate by gate
  follows its programs.**
-/

set_option autoImplicit false

namespace VoleZk

/-! ## Halves -/

/-- The operations in which the parties differ, on an engine `E` and wires `L`. -/
structure FpHalf (E L : Type) where
  /-- `CHECK_SZ`. -/
  checkSz : ℕ
  /-- `check_cnt`. -/
  checkCnt : E → ℕ
  /-- `check_cnt = 0` and `fill_vole_`. -/
  newBatch : E → E
  /-- `pub_label`. -/
  pubLabel : ℕ → L
  /-- `add_gate`. -/
  addGate : L → L → L
  /-- `sub_gate`. -/
  subGate : L → L → L
  /-- `neg_gate`. -/
  negGate : L → L
  /-- `mul_const_gate`. -/
  mulConstGate : L → ℕ → L
  /-- `authenticated_val_input`. -/
  authenticatedValInput : E → List ℕ → E × List L
  /-- `andgate_correctness_check_manage`. -/
  checkManage : E → Option E
  /-- The scalar `auth_compute_mul`, past its head. -/
  authComputeMul : E → L → L → E × L
  /-- One block of the vectorized `auth_compute_mul`. -/
  mulBlock : E → List (L × L) → E × List L
  /-- `reveal`. -/
  reveal : E → List L → E × List ℕ
  /-- `reveal_check_zero`. -/
  revealCheckZero : E → List L → E

/-- One party in the middle of a program. -/
@[ext]
structure FpHalfState (E L : Type) where
  /-- The engine. -/
  engine : E
  /-- The wires so far. -/
  wires : List L
  /-- What `reveal` returned. -/
  out : List (List ℕ)

namespace FpHalfState

variable {E L : Type}

/-- The wires at the given positions. -/
def labels (s : FpHalfState E L) (is : List ℕ) : Option (List L) := is.mapM fun i => s.wires[i]?

/-- Append wires. -/
def push (s : FpHalfState E L) (e : E) (ls : List L) : FpHalfState E L :=
  { s with engine := e, wires := s.wires ++ ls }

theorem length_labels {s : FpHalfState E L} {is : List ℕ} {ls : List L}
    (h : s.labels is = some ls) : ls.length = is.length := Runs.length_mapM h

end FpHalfState

namespace FpHalf

variable {E L : Type} (H : FpHalf E L)

/-- The head of a multiplication: a full batch is checked, and a new one started. -/
def ready (e : E) : Option E :=
  if H.checkCnt e = H.checkSz then (H.checkManage e).map H.newBatch else some e

/-- `mul_gate`. -/
def mulGate (e : E) (a b : L) : Option (E × L) :=
  (H.ready e).map fun e => H.authComputeMul e a b

/-- The vectorized `mul_gate`, block after block.  If a block were empty, the loop would not end. -/
def mulVec (e : E) (ab : List (L × L)) : Option (E × List L) :=
  if _h : ab = [] then some (e, [])
  else
    (H.ready e).bind fun e =>
      let take := min (H.checkSz - H.checkCnt e) ab.length
      if _h : take = 0 then none
      else
        let (e, outs) := H.mulBlock e (ab.take take)
        (mulVec e (ab.drop take)).map fun (e, rest) => (e, outs ++ rest)
termination_by ab.length
decreasing_by
  have : 0 < ab.length := List.length_pos_of_ne_nil ‹_›
  simp only [List.length_drop]
  omega

/-- One turn of the loop. -/
theorem mulVec_turn {H : FpHalf E L} {e e₁ : E} {ab : List (L × L)} {cs : List L}
    (hnil : ab ≠ []) (h : H.mulVec e ab = some (e₁, cs)) :
    ∃ e₂ take rest, H.ready e = some e₂ ∧ take = min (H.checkSz - H.checkCnt e₂) ab.length ∧
      0 < take ∧ H.mulVec (H.mulBlock e₂ (ab.take take)).1 (ab.drop take) = some (e₁, rest) ∧
      cs = (H.mulBlock e₂ (ab.take take)).2 ++ rest := by
  rw [mulVec, dif_neg hnil] at h
  obtain ⟨e₂, hready, h⟩ := Option.bind_eq_some_iff.mp h
  dsimp only at h
  split at h
  · cases h
  · rename_i hzero
    obtain ⟨⟨e₃, rest⟩, hloop, hout⟩ := Option.map_eq_some_iff.mp h
    rw [Prod.mk.injEq] at hout
    obtain ⟨rfl, rfl⟩ := hout
    exact ⟨e₂, _, rest, hready, rfl, Nat.pos_of_ne_zero hzero, hloop, rfl⟩

/-- The loop, put together again. -/
theorem mulVec_of_turn {H : FpHalf E L} {e e₁ e₂ : E} {ab : List (L × L)} {rest : List L}
    {take : ℕ} (hnil : ab ≠ []) (hready : H.ready e = some e₂)
    (htake : take = min (H.checkSz - H.checkCnt e₂) ab.length) (hpos : 0 < take)
    (hloop : H.mulVec (H.mulBlock e₂ (ab.take take)).1 (ab.drop take) = some (e₁, rest)) :
    H.mulVec e ab = some (e₁, (H.mulBlock e₂ (ab.take take)).2 ++ rest) := by
  subst htake
  rw [mulVec, dif_neg hnil, hready, Option.bind_some]
  exact (dif_neg hpos.ne').trans (congrArg (Option.map _) hloop)

/-- `IntFpVec::sum`. -/
def sum : List L → L
  | [] => H.pubLabel 0
  | a :: as => as.foldl H.addGate a

/-- One operation; `none` when an error is raised or a wire does not exist. -/
def step (s : FpHalfState E L) : FpOp → Option (FpHalfState E L)
  | .feed w =>
    let (e, ls) := H.authenticatedValInput s.engine w
    some (s.push e ls)
  | .pub a => some (s.push s.engine [H.pubLabel a])
  | .add i j => (s.labels [i, j]).bind fun
    | [a, b] => some (s.push s.engine [H.addGate a b])
    | _ => none
  | .sub i j => (s.labels [i, j]).bind fun
    | [a, b] => some (s.push s.engine [H.subGate a b])
    | _ => none
  | .negate i => (s.labels [i]).bind fun
    | [a] => some (s.push s.engine [H.negGate a])
    | _ => none
  | .mul i j => (s.labels [i, j]).bind fun
    | [a, b] => (H.mulGate s.engine a b).map fun (e, c) => s.push e [c]
    | _ => none
  | .mulVec ij => (s.labels (ij.map Prod.fst)).bind fun as =>
    (s.labels (ij.map Prod.snd)).bind fun bs =>
      (H.mulVec s.engine (as.zip bs)).map fun (e, cs) => s.push e cs
  | .addConst i c => (s.labels [i]).bind fun
    | [a] => some (s.push s.engine [H.addGate a (H.pubLabel c)])
    | _ => none
  | .subConst i c => (s.labels [i]).bind fun
    | [a] => some (s.push s.engine [H.subGate a (H.pubLabel c)])
    | _ => none
  | .mulConst i c => (s.labels [i]).bind fun
    | [a] => some (s.push s.engine [H.mulConstGate a c])
    | _ => none
  | .sum is => (s.labels is).map fun as => s.push s.engine [H.sum as]
  | .reveal is => (s.labels is).map fun ls =>
    let (e, value) := H.reveal s.engine ls
    { s with engine := e, out := s.out ++ [value] }
  | .revealCheck is expected => (s.labels is).bind fun ls =>
    let (e, value) := H.reveal s.engine ls
    if expected = value then some { s with engine := e } else none
  | .revealZero is => (s.labels is).map fun ls =>
    { s with engine := H.revealCheckZero s.engine ls }

/-- The destructor, up to the digests: the last batch is checked if there is one. -/
def finish (s : FpHalfState E L) : Option (FpHalfState E L) :=
  if H.checkCnt s.engine ≠ 0 then (H.checkManage s.engine).map fun e => { s with engine := e }
  else some s

/-- A whole program, from the engine `e` on. -/
def program (e : E) (ops : List FpOp) : Option (FpHalfState E L) :=
  (Runs.run H.step ⟨e, [], []⟩ ops).bind H.finish

/-- A block is one product after the other. -/
structure Iterates : Prop where
  /-- No products. -/
  nil : ∀ e, H.mulBlock e [] = (e, [])
  /-- The first product, and the others. -/
  cons : ∀ e a b ab, H.mulBlock e ((a, b) :: ab) =
    ((H.mulBlock (H.authComputeMul e a b).1 ab).1,
      (H.authComputeMul e a b).2 :: (H.mulBlock (H.authComputeMul e a b).1 ab).2)
  /-- A product counts. -/
  checkCnt : ∀ e a b, H.checkCnt (H.authComputeMul e a b).1 = H.checkCnt e + 1

end FpHalf

/-! ## The verifier -/

/-- The verifier's engine, and the first correlation of its current batch. -/
structure FpVerifier where
  /-- The engine. -/
  engine : FpOSTriple
  /-- Where `andgate_out_buffer` was filled from. -/
  base : ℕ

/-- What a prover sends: everything it sends corrects a correlation, is one of the two words of a
check, or is an opened word. -/
structure FpPeer where
  /-- The word sent under correlation `i`. -/
  correction : ℕ → ℕ
  /-- The two words sent for the check in whose state the verifier is. -/
  check : FpOSTriple → ℕ × ℕ
  /-- The word opened for word `k` of `auth_helper`. -/
  opened : ℕ → ℕ

namespace FpPeer

open FpOSTriple

/-- A prover that does not know the keys: its words are those of the check that draws correlation
`d`. -/
def blind (correction : ℕ → ℕ) (A : ℕ → ℕ × ℕ) (opened : ℕ → ℕ) : FpPeer :=
  ⟨correction, fun e => A e.drawn, opened⟩

variable (P : FpPeer)

/-- The words sent under the `n` correlations from `d` on. -/
def corrections (d n : ℕ) : List ℕ := (List.range n).map fun i => P.correction (d + i)

/-- The words opened for `n` words, when `k` have been hashed. -/
def openings (k n : ℕ) : List ℕ := (List.range n).map fun i => P.opened (k + i)

/-- The verifier, on what the prover sends. -/
def verifier (C : FpConfig) : FpHalf FpVerifier AuthVal where
  checkSz := C.checkSz
  checkCnt x := x.engine.checkCnt
  newBatch x := ⟨fillVole C C.voleVer { x.engine with checkCnt := 0 }, x.engine.drawn⟩
  pubLabel := Ver.pubLabel C.F C.delta C.pubMac
  addGate := Ver.addGate C.F
  subGate := Ver.subGate C.F
  negGate := Ver.negGate
  mulConstGate := Ver.mulConstGate C.F
  authenticatedValInput x w :=
    let (e, Ks) := authenticatedValInputRecv C.F C.voleVer C.delta x.engine
      (P.corrections x.engine.drawn w.length)
    ({ x with engine := e }, Ks)
  checkManage x :=
    (checkManageRecv C x.engine (P.check x.engine)).map fun e => { x with engine := e }
  authComputeMul x a b :=
    let (e, K) := mulRecv C.F C.delta x.engine x.engine.checkCnt a b
      (P.correction (x.base + x.engine.checkCnt))
    ({ x with engine := { e with checkCnt := e.checkCnt + 1 } }, K)
  mulBlock x ab :=
    let (e, Ks) := mulBlockRecv C.F C.delta x.engine x.engine.checkCnt ab
      (P.corrections (x.base + x.engine.checkCnt) ab.length)
    ({ x with engine := { e with checkCnt := e.checkCnt + ab.length } }, Ks)
  reveal x ls :=
    let value := P.openings x.engine.hashed.length ls.length
    ({ x with engine := revealRecv C.F C.delta x.engine ls value }, value)
  revealCheckZero x ls := { x with engine := FpOSTriple.revealCheckZero x.engine ls }

/-- The verifier before the first operation: one correlation is dropped. -/
def start (C : FpConfig) : FpVerifier := ⟨FpOSTriple.init C C.voleVer, 1⟩

/-- The counter of the batch plays no part in a block. -/
theorem mulBlockRecv_checkCnt (F : FpOps) (delta cnt : ℕ) (e : FpOSTriple) (i : ℕ)
    (Ks : List (AuthVal × AuthVal)) (ss : List ℕ) :
    mulBlockRecv F delta { e with checkCnt := cnt } i Ks ss
      = ({ (mulBlockRecv F delta e i Ks ss).1 with checkCnt := cnt },
        (mulBlockRecv F delta e i Ks ss).2) := by
  induction Ks generalizing e i ss with
  | nil => rfl
  | cons K Ks ih =>
    match ss with
    | [] => rfl
    | s :: ss =>
      have hone : mulRecv F delta { e with checkCnt := cnt } i K.1 K.2 s
          = ({ (mulRecv F delta e i K.1 K.2 s).1 with checkCnt := cnt },
            (mulRecv F delta e i K.1 K.2 s).2) := rfl
      simp only [mulBlockRecv, hone, ih]

theorem mulBlockRecv_same (F : FpOps) (delta : ℕ) (e : FpOSTriple) (i : ℕ)
    (Ks : List (AuthVal × AuthVal)) (ss : List ℕ) :
    (mulBlockRecv F delta e i Ks ss).1.checkCnt = e.checkCnt := by
  induction Ks generalizing e i ss with
  | nil => rfl
  | cons K Ks ih =>
    match ss with
    | [] => rfl
    | s :: ss => exact ih _ _ _

theorem corrections_succ (d n : ℕ) :
    P.corrections d (n + 1) = P.correction d :: P.corrections (d + 1) n := by
  rw [corrections, corrections, List.range_succ_eq_map, List.map_cons, List.map_map]
  refine congrArg (_ :: ·) (List.map_congr_left fun i _ => ?_)
  exact congrArg P.correction (by simp only [Nat.succ_eq_add_one]; omega)

/-- **A block, one product after the other.** -/
theorem verifier_mulBlock_cons (C : FpConfig) (x : FpVerifier) (a b : AuthVal)
    (ab : List (AuthVal × AuthVal)) :
    (P.verifier C).mulBlock x ((a, b) :: ab) =
      (((P.verifier C).mulBlock ((P.verifier C).authComputeMul x a b).1 ab).1,
        ((P.verifier C).authComputeMul x a b).2
          :: ((P.verifier C).mulBlock ((P.verifier C).authComputeMul x a b).1 ab).2) := by
  have hwords : P.corrections (x.base + x.engine.checkCnt) ((a, b) :: ab).length
      = P.correction (x.base + x.engine.checkCnt)
        :: P.corrections (x.base + (x.engine.checkCnt + 1)) ab.length :=
    P.corrections_succ _ _
  simp only [verifier]
  rw [hwords, mulBlockRecv, mulBlockRecv_checkCnt]
  simp only [mulBlockRecv_same, List.length_cons]
  rw [Nat.add_left_comm _ ab.length 1, Nat.add_comm ab.length]
  rfl

theorem verifier_iterates (C : FpConfig) : (P.verifier C).Iterates where
  nil _ := rfl
  cons x a b ab := P.verifier_mulBlock_cons C x a b ab
  checkCnt _ _ _ := rfl

end FpPeer

/-! ## Programs that differ in the inputs -/

namespace FpOp

/-- The same operation, up to the values of the prover's inputs. -/
inductive SameShape : FpOp → FpOp → Prop where
  | feed {w w' : List ℕ} (h : w.length = w'.length) : SameShape (.feed w) (.feed w')
  | refl (op : FpOp) : SameShape op op

end FpOp

namespace FpHalf

variable {E L : Type} {H : FpHalf E L}

/-- A half that does not look at the values of the inputs. -/
theorem step_sameShape (hH : ∀ e w w', w.length = w'.length →
      H.authenticatedValInput e w = H.authenticatedValInput e w')
    {op op' : FpOp} (h : FpOp.SameShape op op') (s : FpHalfState E L) :
    H.step s op = H.step s op' := by
  cases h with
  | feed hlen => rw [step, step, hH _ _ _ hlen]
  | refl => rfl

theorem program_sameShape (hH : ∀ e w w', w.length = w'.length →
      H.authenticatedValInput e w = H.authenticatedValInput e w')
    {ops ops' : List FpOp} (h : List.Forall₂ FpOp.SameShape ops ops') (e : E) :
    H.program e ops = H.program e ops' := by
  have hrun : ∀ s, Runs.run H.step s ops = Runs.run H.step s ops' := by
    induction h with
    | nil => exact fun _ => rfl
    | cons hop _ ih =>
      intro s
      rw [Runs.run, Runs.run, step_sameShape hH hop, funext ih]
  rw [program, program, hrun]

end FpHalf

/-! ## What held all along -/

namespace FpHalf

section Persists

variable {E L : Type}

/-- If `Good` holds after an operation, it held before. -/
structure Persists (H : FpHalf E L) (Good : E → Prop) : Prop where
  /-- The head of a multiplication. -/
  ready : ∀ e e₁, H.ready e = some e₁ → Good e₁ → Good e
  /-- Inputs. -/
  authenticatedValInput : ∀ e w, Good (H.authenticatedValInput e w).1 → Good e
  /-- A check. -/
  checkManage : ∀ e e₁, H.checkManage e = some e₁ → Good e₁ → Good e
  /-- A product. -/
  authComputeMul : ∀ e a b, Good (H.authComputeMul e a b).1 → Good e
  /-- A block. -/
  mulBlock : ∀ e ab, Good (H.mulBlock e ab).1 → Good e
  /-- Opened wires. -/
  reveal : ∀ e ls, Good (H.reveal e ls).1 → Good e
  /-- Wires of value 0. -/
  revealCheckZero : ∀ e ls, Good (H.revealCheckZero e ls) → Good e

variable {H : FpHalf E L} {Good : E → Prop}

namespace Persists

theorem trivial (H : FpHalf E L) : H.Persists fun _ => True where
  ready _ _ _ _ := ⟨⟩
  authenticatedValInput _ _ _ := ⟨⟩
  checkManage _ _ _ _ := ⟨⟩
  authComputeMul _ _ _ _ := ⟨⟩
  mulBlock _ _ _ := ⟨⟩
  reveal _ _ _ := ⟨⟩
  revealCheckZero _ _ _ := ⟨⟩

variable (hH : H.Persists Good)
include hH

theorem mulGate {e e₁ : E} {a b c : L} (h : H.mulGate e a b = some (e₁, c)) (h₁ : Good e₁) :
    Good e := by
  obtain ⟨e₂, hready, hgate⟩ := Option.map_eq_some_iff.mp h
  refine hH.ready _ _ hready (hH.authComputeMul e₂ a b ?_)
  rwa [hgate]

/-- The loop over the blocks, by induction on the products left. -/
theorem mulVec {e e₁ : E} {ab : List (L × L)} {cs : List L}
    (h : H.mulVec e ab = some (e₁, cs)) (h₁ : Good e₁) : Good e := by
  by_cases hnil : ab = []
  · subst hnil
    rw [FpHalf.mulVec, dif_pos rfl, Option.some_inj, Prod.mk.injEq] at h
    exact h.1 ▸ h₁
  · obtain ⟨e₂, take, rest, hready, -, hpos, hloop, -⟩ := mulVec_turn hnil h
    have hshort : (ab.drop take).length < ab.length := by
      have := List.length_pos_of_ne_nil hnil
      rw [List.length_drop]
      omega
    exact hH.ready _ _ hready (hH.mulBlock e₂ _ (mulVec hloop h₁))
termination_by ab.length

/-- **One operation.** -/
theorem step {s s₁ : FpHalfState E L} {op : FpOp} (h : H.step s op = some s₁)
    (h₁ : Good s₁.engine) : Good s.engine := by
  cases op with
  | feed w =>
    cases h
    exact hH.authenticatedValInput _ w h₁
  | pub a =>
    cases h
    exact h₁
  | add i j =>
    obtain ⟨ls, -, h⟩ := Option.bind_eq_some_iff.mp h
    match ls, h with
    | [a, b], h =>
      cases h
      exact h₁
  | sub i j =>
    obtain ⟨ls, -, h⟩ := Option.bind_eq_some_iff.mp h
    match ls, h with
    | [a, b], h =>
      cases h
      exact h₁
  | negate i =>
    obtain ⟨ls, -, h⟩ := Option.bind_eq_some_iff.mp h
    match ls, h with
    | [a], h =>
      cases h
      exact h₁
  | mul i j =>
    obtain ⟨ls, -, h⟩ := Option.bind_eq_some_iff.mp h
    match ls, h with
    | [a, b], h =>
      obtain ⟨⟨e, c⟩, hgate, rfl⟩ := Option.map_eq_some_iff.mp h
      exact hH.mulGate hgate h₁
  | mulVec ij =>
    obtain ⟨as, -, h⟩ := Option.bind_eq_some_iff.mp h
    obtain ⟨bs, -, h⟩ := Option.bind_eq_some_iff.mp h
    obtain ⟨⟨e, cs⟩, hgates, rfl⟩ := Option.map_eq_some_iff.mp h
    exact hH.mulVec hgates h₁
  | addConst i c =>
    obtain ⟨ls, -, h⟩ := Option.bind_eq_some_iff.mp h
    match ls, h with
    | [a], h =>
      cases h
      exact h₁
  | subConst i c =>
    obtain ⟨ls, -, h⟩ := Option.bind_eq_some_iff.mp h
    match ls, h with
    | [a], h =>
      cases h
      exact h₁
  | mulConst i c =>
    obtain ⟨ls, -, h⟩ := Option.bind_eq_some_iff.mp h
    match ls, h with
    | [a], h =>
      cases h
      exact h₁
  | sum is =>
    obtain ⟨ls, -, rfl⟩ := Option.map_eq_some_iff.mp h
    exact h₁
  | reveal is =>
    obtain ⟨ls, -, rfl⟩ := Option.map_eq_some_iff.mp h
    exact hH.reveal _ ls h₁
  | revealCheck is expected =>
    obtain ⟨ls, -, h⟩ := Option.bind_eq_some_iff.mp h
    dsimp only at h
    split at h
    · cases h
      exact hH.reveal _ ls h₁
    · cases h
  | revealZero is =>
    obtain ⟨ls, -, rfl⟩ := Option.map_eq_some_iff.mp h
    exact hH.revealCheckZero _ ls h₁

theorem run {s s₁ : FpHalfState E L} {ops : List FpOp} (h : Runs.run H.step s ops = some s₁)
    (h₁ : Good s₁.engine) : Good s.engine := by
  induction ops generalizing s with
  | nil => exact Option.some_inj.mp h ▸ h₁
  | cons op ops ih =>
    obtain ⟨s₂, hstep, hrun⟩ := Runs.run_cons_eq_some.mp h
    exact hH.step hstep (ih hrun)

theorem finish {s s₁ : FpHalfState E L} (h : H.finish s = some s₁) (h₁ : Good s₁.engine) :
    Good s.engine := by
  rw [FpHalf.finish] at h
  split at h
  · obtain ⟨e, hcheck, rfl⟩ := Option.map_eq_some_iff.mp h
    exact hH.checkManage _ e hcheck h₁
  · exact Option.some_inj.mp h ▸ h₁

end Persists

end Persists

/-! ## A half that follows another -/

section Follows

variable {E L E' L' : Type}

/-- `H` can follow `H'` gate by gate, to where `Good` holds: its engine is related by `R`, its wires
by `W`.  Inputs and public constants are below `PR`, and products come when there is room for
them. -/
structure Follows (H : FpHalf E L) (H' : FpHalf E' L') (Good : E' → Prop) (R : E → E' → Prop)
    (W : L → L' → Prop) : Prop where
  /-- What is good was good. -/
  persists : H'.Persists Good
  /-- What is good with a new batch was good. -/
  good_newBatch : ∀ e', Good (H'.newBatch e') → Good e'
  /-- The batches are of the same size. -/
  checkSz : H.checkSz = H'.checkSz
  /-- The counters agree. -/
  checkCnt : ∀ e e', R e e' → H.checkCnt e = H'.checkCnt e'
  /-- A new batch. -/
  newBatch : ∀ e e', R e e' → R (H.newBatch e) (H'.newBatch e')
  /-- A new batch has room. -/
  newBatch_room : ∀ e', H'.checkCnt (H'.newBatch e') ≠ H'.checkSz
  /-- Public wires. -/
  pubLabel : ∀ a < PR, W (H.pubLabel a) (H'.pubLabel a)
  /-- Sums. -/
  addGate : ∀ l r l' r', W l l' → W r r' → W (H.addGate l r) (H'.addGate l' r')
  /-- Differences. -/
  subGate : ∀ l r l' r', W l l' → W r r' → W (H.subGate l r) (H'.subGate l' r')
  /-- Negation. -/
  negGate : ∀ l l', W l l' → W (H.negGate l) (H'.negGate l')
  /-- Products with constants. -/
  mulConstGate : ∀ l l', ∀ c < PR, W l l' → W (H.mulConstGate l c) (H'.mulConstGate l' c)
  /-- Inputs. -/
  authenticatedValInput : ∀ e e' w, (∀ x ∈ w, x < PR) → R e e' →
    Good (H'.authenticatedValInput e' w).1 →
    R (H.authenticatedValInput e w).1 (H'.authenticatedValInput e' w).1 ∧
      List.Forall₂ W (H.authenticatedValInput e w).2 (H'.authenticatedValInput e' w).2
  /-- A check that passes. -/
  checkManage : ∀ e e' e₁', R e e' → H'.checkManage e' = some e₁' → Good e₁' →
    ∃ e₁, H.checkManage e = some e₁ ∧ R e₁ e₁'
  /-- A product. -/
  authComputeMul : ∀ e e' a b a' b', H'.checkCnt e' ≠ H'.checkSz → R e e' → W a a' → W b b' →
    Good (H'.authComputeMul e' a' b').1 →
    R (H.authComputeMul e a b).1 (H'.authComputeMul e' a' b').1 ∧
      W (H.authComputeMul e a b).2 (H'.authComputeMul e' a' b').2
  /-- A block. -/
  mulBlock : ∀ e e' ab ab', H'.checkCnt e' + ab'.length ≤ H'.checkSz → R e e' →
    List.Forall₂ (fun x y => W x.1 y.1 ∧ W x.2 y.2) ab ab' → Good (H'.mulBlock e' ab').1 →
    R (H.mulBlock e ab).1 (H'.mulBlock e' ab').1 ∧
      List.Forall₂ W (H.mulBlock e ab).2 (H'.mulBlock e' ab').2
  /-- Opened wires. -/
  reveal : ∀ e e' ls ls', R e e' → List.Forall₂ W ls ls' → Good (H'.reveal e' ls').1 →
    R (H.reveal e ls).1 (H'.reveal e' ls').1 ∧ (H.reveal e ls).2 = (H'.reveal e' ls').2
  /-- Wires of value 0. -/
  revealCheckZero : ∀ e e' ls ls', R e e' → List.Forall₂ W ls ls' →
    Good (H'.revealCheckZero e' ls') → R (H.revealCheckZero e ls) (H'.revealCheckZero e' ls')

/-- **A half that follows products follows blocks**, by induction on the block. -/
theorem Iterates.follows {H : FpHalf E L} {H' : FpHalf E' L'} {Good : E' → Prop} {R : E → E' → Prop}
    {W : L → L' → Prop} (hH : H.Iterates) (hH' : H'.Iterates) (hgood : H'.Persists Good)
    (hmul : ∀ e e' a b a' b', H'.checkCnt e' ≠ H'.checkSz → R e e' → W a a' → W b b' →
      Good (H'.authComputeMul e' a' b').1 →
      R (H.authComputeMul e a b).1 (H'.authComputeMul e' a' b').1 ∧
        W (H.authComputeMul e a b).2 (H'.authComputeMul e' a' b').2)
    {e : E} {e' : E'} {ab : List (L × L)} {ab' : List (L' × L')}
    (hroom : H'.checkCnt e' + ab'.length ≤ H'.checkSz) (he : R e e')
    (hab : List.Forall₂ (fun x y => W x.1 y.1 ∧ W x.2 y.2) ab ab')
    (h₁ : Good (H'.mulBlock e' ab').1) :
    R (H.mulBlock e ab).1 (H'.mulBlock e' ab').1 ∧
      List.Forall₂ W (H.mulBlock e ab).2 (H'.mulBlock e' ab').2 := by
  induction hab generalizing e e' with
  | nil =>
    rw [hH.nil, hH'.nil]
    exact ⟨he, .nil⟩
  | @cons x y ab ab' hxy _ ih =>
    rw [hH'.cons] at h₁
    rw [List.length_cons] at hroom
    obtain ⟨hR, hc⟩ := hmul e e' x.1 x.2 y.1 y.2 (by omega) he hxy.1 hxy.2
      (hgood.mulBlock _ _ h₁)
    have hroom' : H'.checkCnt (H'.authComputeMul e' y.1 y.2).1 + ab'.length ≤ H'.checkSz := by
      rw [hH'.checkCnt]
      omega
    obtain ⟨hR', hcs⟩ := ih hroom' hR h₁
    rw [hH.cons, hH'.cons]
    exact ⟨hR', .cons hc hcs⟩

/-- The states of the two halves. -/
structure Related (R : E → E' → Prop) (W : L → L' → Prop) (s : FpHalfState E L)
    (s' : FpHalfState E' L') : Prop where
  /-- The engines are related. -/
  engine : R s.engine s'.engine
  /-- The wires are related. -/
  wires : List.Forall₂ W s.wires s'.wires
  /-- The outputs are the same. -/
  out : s.out = s'.out

variable {H : FpHalf E L} {H' : FpHalf E' L'} {Good : E' → Prop} {R : E → E' → Prop}
  {W : L → L' → Prop}

namespace Related

variable {s : FpHalfState E L} {s' : FpHalfState E' L'} (hs : Related R W s s')
include hs

theorem push {e : E} {e' : E'} (he : R e e') {ls : List L} {ls' : List L'}
    (hls : List.Forall₂ W ls ls') : Related R W (s.push e ls) (s'.push e' ls') :=
  ⟨he, List.rel_append hs.wires hls, hs.out⟩

theorem labels {is : List ℕ} {ls' : List L'} (h : s'.labels is = some ls') :
    ∃ ls, s.labels is = some ls ∧ List.Forall₂ W ls ls' := by
  have hrel := Runs.mapM_getElem?_rel hs.wires is
  rw [FpHalfState.labels] at h
  rw [h] at hrel
  rw [FpHalfState.labels]
  generalize (is.mapM fun i => s.wires[i]?) = found at hrel ⊢
  cases hrel with
  | some hls => exact ⟨_, rfl, hls⟩

theorem labels_one {i : ℕ} {ls' : List L'} (h : s'.labels [i] = some ls') :
    ∃ a a', ls' = [a'] ∧ s.labels [i] = some [a] ∧ W a a' := by
  obtain ⟨ls, hls, hW⟩ := hs.labels h
  obtain ⟨a', rfl⟩ := List.length_eq_one_iff.mp (FpHalfState.length_labels h)
  obtain ⟨a, _, ha, hnil, rfl⟩ := List.forall₂_cons_right_iff.mp hW
  rw [List.forall₂_nil_right_iff.mp hnil] at hls
  exact ⟨a, a', rfl, hls, ha⟩

theorem labels_two {i j : ℕ} {ls' : List L'} (h : s'.labels [i, j] = some ls') :
    ∃ a b a' b', ls' = [a', b'] ∧ s.labels [i, j] = some [a, b] ∧ W a a' ∧ W b b' := by
  obtain ⟨ls, hls, hW⟩ := hs.labels h
  obtain ⟨a', b', rfl⟩ := List.length_eq_two.mp (FpHalfState.length_labels h)
  obtain ⟨a, _, ha, htail, rfl⟩ := List.forall₂_cons_right_iff.mp hW
  obtain ⟨b, _, hb, hnil, rfl⟩ := List.forall₂_cons_right_iff.mp htail
  rw [List.forall₂_nil_right_iff.mp hnil] at hls
  exact ⟨a, b, a', b', rfl, hls, ha, hb⟩

end Related

namespace Follows

variable (hH : H.Follows H' Good R W)
include hH

theorem ready {e : E} {e' e₁' : E'} (he : R e e') (h : H'.ready e' = some e₁') (h₁ : Good e₁') :
    ∃ e₁, H.ready e = some e₁ ∧ R e₁ e₁' := by
  rw [FpHalf.ready] at h ⊢
  rw [hH.checkCnt e e' he, hH.checkSz]
  split at h
  · rename_i hfull
    obtain ⟨e₂', hcheck, rfl⟩ := Option.map_eq_some_iff.mp h
    obtain ⟨e₂, he₂, hR⟩ :=
      hH.checkManage e e' e₂' he hcheck (hH.good_newBatch e₂' h₁)
    rw [if_pos hfull, he₂]
    exact ⟨_, rfl, hH.newBatch _ _ hR⟩
  · rename_i hroom
    rw [if_neg hroom]
    exact ⟨e, rfl, Option.some_inj.mp h ▸ he⟩

/-- After the head of a multiplication there is room for a product. -/
theorem ready_room {e' e₁' : E'} (h : H'.ready e' = some e₁') : H'.checkCnt e₁' ≠ H'.checkSz := by
  rw [FpHalf.ready] at h
  split at h
  · obtain ⟨e₂', -, rfl⟩ := Option.map_eq_some_iff.mp h
    exact hH.newBatch_room e₂'
  · rename_i hroom
    exact Option.some_inj.mp h ▸ hroom

theorem mulGate {e : E} {e' e₁' : E'} {a b : L} {a' b' c' : L'} (he : R e e') (ha : W a a')
    (hb : W b b') (h : H'.mulGate e' a' b' = some (e₁', c')) (h₁ : Good e₁') :
    ∃ e₁ c, H.mulGate e a b = some (e₁, c) ∧ R e₁ e₁' ∧ W c c' := by
  obtain ⟨e₂', hready, hgate⟩ := Option.map_eq_some_iff.mp h
  have hgood : Good (H'.authComputeMul e₂' a' b').1 := by rwa [hgate]
  obtain ⟨e₂, he₂, hR⟩ :=
    hH.ready he hready (hH.persists.authComputeMul e₂' a' b' hgood)
  obtain ⟨hR', hc⟩ := hH.authComputeMul e₂ e₂' a b a' b' (hH.ready_room hready) hR ha hb hgood
  rw [hgate] at hR' hc
  exact ⟨_, _, by rw [FpHalf.mulGate, he₂, Option.map_some], hR', hc⟩

/-- The loop over the blocks, by induction on the products left. -/
theorem mulVec {e : E} {e' e₁' : E'} {ab : List (L × L)} {ab' : List (L' × L')} {cs' : List L'}
    (he : R e e') (hab : List.Forall₂ (fun x y => W x.1 y.1 ∧ W x.2 y.2) ab ab')
    (h : H'.mulVec e' ab' = some (e₁', cs')) (h₁ : Good e₁') :
    ∃ e₁ cs, H.mulVec e ab = some (e₁, cs) ∧ R e₁ e₁' ∧ List.Forall₂ W cs cs' := by
  by_cases hnil : ab' = []
  · subst hnil
    cases hab
    rw [FpHalf.mulVec, dif_pos rfl, Option.some_inj, Prod.mk.injEq] at h
    obtain ⟨rfl, rfl⟩ := h
    exact ⟨e, [], by rw [FpHalf.mulVec, dif_pos rfl], he, .nil⟩
  · obtain ⟨e₂', take, rest', hready, htake, hpos, hloop, rfl⟩ := mulVec_turn hnil h
    have hblock := hH.persists.mulVec hloop h₁
    obtain ⟨e₂, he₂, hR⟩ := hH.ready he hready (hH.persists.mulBlock _ _ hblock)
    have hroom : H'.checkCnt e₂' + (ab'.take take).length ≤ H'.checkSz := by
      rw [List.length_take]
      omega
    obtain ⟨hR', hcs⟩ := hH.mulBlock e₂ e₂' _ _ hroom hR (List.forall₂_take take hab) hblock
    have hne : ab ≠ [] := by
      rintro rfl
      cases hab
      exact hnil rfl
    have hshort : (ab.drop take).length < ab.length := by
      have := List.length_pos_of_ne_nil hne
      rw [List.length_drop]
      omega
    obtain ⟨e₁, rest, he₁, hR₁, hrest⟩ := mulVec hR' (List.forall₂_drop take hab) hloop h₁
    refine ⟨e₁, _, mulVec_of_turn hne he₂ ?_ hpos he₁, hR₁, List.rel_append hcs hrest⟩
    rw [hH.checkSz, hH.checkCnt e₂ e₂' hR, hab.length_eq, htake]
termination_by ab.length

/-- `IntFpVec::sum`. -/
theorem sum {ls : List L} {ls' : List L'} (h : List.Forall₂ W ls ls') :
    W (H.sum ls) (H'.sum ls') := by
  cases h with
  | nil => exact hH.pubLabel 0 PR_pos
  | @cons a a' ls ls' ha hls =>
    rw [FpHalf.sum, FpHalf.sum]
    induction hls generalizing a a' with
    | nil => exact ha
    | cons hb _ ih => exact ih (hH.addGate _ _ _ _ ha hb)

/-! ### One operation -/

section Operations

variable {s : FpHalfState E L} {s' s₁' : FpHalfState E' L'} (hs : Related R W s s')
include hs

theorem step_feed {w : List ℕ} (hw : ∀ x ∈ w, x < PR) (h : H'.step s' (.feed w) = some s₁')
    (h₁ : Good s₁'.engine) : ∃ s₁, H.step s (.feed w) = some s₁ ∧ Related R W s₁ s₁' := by
  cases h
  obtain ⟨hR, hls⟩ := hH.authenticatedValInput _ _ w hw hs.engine h₁
  exact ⟨_, rfl, hs.push hR hls⟩

theorem step_pub {a : ℕ} (ha : a < PR) (h : H'.step s' (.pub a) = some s₁') :
    ∃ s₁, H.step s (.pub a) = some s₁ ∧ Related R W s₁ s₁' := by
  cases h
  exact ⟨_, rfl, hs.push hs.engine (.cons (hH.pubLabel a ha) .nil)⟩

theorem step_add {i j : ℕ} (h : H'.step s' (.add i j) = some s₁') :
    ∃ s₁, H.step s (.add i j) = some s₁ ∧ Related R W s₁ s₁' := by
  obtain ⟨ls', hls', h⟩ := Option.bind_eq_some_iff.mp h
  obtain ⟨a, b, a', b', rfl, hls, ha, hb⟩ := hs.labels_two hls'
  cases h
  exact ⟨_, congrArg (Option.bind · _) hls,
    hs.push hs.engine (.cons (hH.addGate _ _ _ _ ha hb) .nil)⟩

theorem step_sub {i j : ℕ} (h : H'.step s' (.sub i j) = some s₁') :
    ∃ s₁, H.step s (.sub i j) = some s₁ ∧ Related R W s₁ s₁' := by
  obtain ⟨ls', hls', h⟩ := Option.bind_eq_some_iff.mp h
  obtain ⟨a, b, a', b', rfl, hls, ha, hb⟩ := hs.labels_two hls'
  cases h
  exact ⟨_, congrArg (Option.bind · _) hls,
    hs.push hs.engine (.cons (hH.subGate _ _ _ _ ha hb) .nil)⟩

theorem step_negate {i : ℕ} (h : H'.step s' (.negate i) = some s₁') :
    ∃ s₁, H.step s (.negate i) = some s₁ ∧ Related R W s₁ s₁' := by
  obtain ⟨ls', hls', h⟩ := Option.bind_eq_some_iff.mp h
  obtain ⟨a, a', rfl, hls, ha⟩ := hs.labels_one hls'
  cases h
  exact ⟨_, congrArg (Option.bind · _) hls, hs.push hs.engine (.cons (hH.negGate _ _ ha) .nil)⟩

theorem step_mul {i j : ℕ} (h : H'.step s' (.mul i j) = some s₁') (h₁ : Good s₁'.engine) :
    ∃ s₁, H.step s (.mul i j) = some s₁ ∧ Related R W s₁ s₁' := by
  obtain ⟨ls', hls', h⟩ := Option.bind_eq_some_iff.mp h
  obtain ⟨a, b, a', b', rfl, hls, ha, hb⟩ := hs.labels_two hls'
  obtain ⟨⟨e₁', c'⟩, hgate, rfl⟩ := Option.map_eq_some_iff.mp h
  obtain ⟨e₁, c, he₁, hR, hc⟩ := hH.mulGate hs.engine ha hb hgate h₁
  refine ⟨_, (congrArg (Option.bind · _) hls).trans ?_, hs.push hR (.cons hc .nil)⟩
  exact congrArg (Option.map _) he₁

theorem step_mulVec {ij : List (ℕ × ℕ)} (h : H'.step s' (.mulVec ij) = some s₁')
    (h₁ : Good s₁'.engine) :
    ∃ s₁, H.step s (.mulVec ij) = some s₁ ∧ Related R W s₁ s₁' := by
  obtain ⟨as', has', h⟩ := Option.bind_eq_some_iff.mp h
  obtain ⟨bs', hbs', h⟩ := Option.bind_eq_some_iff.mp h
  obtain ⟨as, has, hWa⟩ := hs.labels has'
  obtain ⟨bs, hbs, hWb⟩ := hs.labels hbs'
  obtain ⟨⟨e₁', cs'⟩, hgates, rfl⟩ := Option.map_eq_some_iff.mp h
  obtain ⟨e₁, cs, he₁, hR, hcs⟩ := hH.mulVec hs.engine (Runs.zip_rel hWa hWb) hgates h₁
  refine ⟨_, ?_, hs.push hR hcs⟩
  rw [FpHalf.step, has, Option.bind_some, hbs, Option.bind_some, he₁, Option.map_some]

theorem step_addConst {i c : ℕ} (hc : c < PR) (h : H'.step s' (.addConst i c) = some s₁') :
    ∃ s₁, H.step s (.addConst i c) = some s₁ ∧ Related R W s₁ s₁' := by
  obtain ⟨ls', hls', h⟩ := Option.bind_eq_some_iff.mp h
  obtain ⟨a, a', rfl, hls, ha⟩ := hs.labels_one hls'
  cases h
  exact ⟨_, congrArg (Option.bind · _) hls,
    hs.push hs.engine (.cons (hH.addGate _ _ _ _ ha (hH.pubLabel c hc)) .nil)⟩

theorem step_subConst {i c : ℕ} (hc : c < PR) (h : H'.step s' (.subConst i c) = some s₁') :
    ∃ s₁, H.step s (.subConst i c) = some s₁ ∧ Related R W s₁ s₁' := by
  obtain ⟨ls', hls', h⟩ := Option.bind_eq_some_iff.mp h
  obtain ⟨a, a', rfl, hls, ha⟩ := hs.labels_one hls'
  cases h
  exact ⟨_, congrArg (Option.bind · _) hls,
    hs.push hs.engine (.cons (hH.subGate _ _ _ _ ha (hH.pubLabel c hc)) .nil)⟩

theorem step_mulConst {i c : ℕ} (hc : c < PR) (h : H'.step s' (.mulConst i c) = some s₁') :
    ∃ s₁, H.step s (.mulConst i c) = some s₁ ∧ Related R W s₁ s₁' := by
  obtain ⟨ls', hls', h⟩ := Option.bind_eq_some_iff.mp h
  obtain ⟨a, a', rfl, hls, ha⟩ := hs.labels_one hls'
  cases h
  exact ⟨_, congrArg (Option.bind · _) hls,
    hs.push hs.engine (.cons (hH.mulConstGate _ _ c hc ha) .nil)⟩

theorem step_sum {is : List ℕ} (h : H'.step s' (.sum is) = some s₁') :
    ∃ s₁, H.step s (.sum is) = some s₁ ∧ Related R W s₁ s₁' := by
  obtain ⟨ls', hls', rfl⟩ := Option.map_eq_some_iff.mp h
  obtain ⟨ls, hls, hW⟩ := hs.labels hls'
  exact ⟨_, congrArg (Option.map _) hls, hs.push hs.engine (.cons (hH.sum hW) .nil)⟩

theorem step_reveal {is : List ℕ} (h : H'.step s' (.reveal is) = some s₁')
    (h₁ : Good s₁'.engine) : ∃ s₁, H.step s (.reveal is) = some s₁ ∧ Related R W s₁ s₁' := by
  obtain ⟨ls', hls', rfl⟩ := Option.map_eq_some_iff.mp h
  obtain ⟨ls, hls, hW⟩ := hs.labels hls'
  obtain ⟨hR, hvalue⟩ := hH.reveal _ _ ls ls' hs.engine hW h₁
  exact ⟨_, congrArg (Option.map _) hls, hR, hs.wires, congrArg₂ (· ++ [·]) hs.out hvalue⟩

theorem step_revealCheck {is expected : List ℕ}
    (h : H'.step s' (.revealCheck is expected) = some s₁') (h₁ : Good s₁'.engine) :
    ∃ s₁, H.step s (.revealCheck is expected) = some s₁ ∧ Related R W s₁ s₁' := by
  obtain ⟨ls', hls', h⟩ := Option.bind_eq_some_iff.mp h
  obtain ⟨ls, hls, hW⟩ := hs.labels hls'
  dsimp only at h
  split at h
  · rename_i heq
    cases h
    obtain ⟨hR, hvalue⟩ := hH.reveal _ _ ls ls' hs.engine hW h₁
    refine ⟨{ s with engine := (H.reveal s.engine ls).1 }, ?_, hR, hs.wires, hs.out⟩
    rw [FpHalf.step, hls, Option.bind_some]
    exact if_pos (heq.trans hvalue.symm)
  · cases h

theorem step_revealZero {is : List ℕ} (h : H'.step s' (.revealZero is) = some s₁')
    (h₁ : Good s₁'.engine) :
    ∃ s₁, H.step s (.revealZero is) = some s₁ ∧ Related R W s₁ s₁' := by
  obtain ⟨ls', hls', rfl⟩ := Option.map_eq_some_iff.mp h
  obtain ⟨ls, hls, hW⟩ := hs.labels hls'
  exact ⟨_, congrArg (Option.map _) hls, hH.revealCheckZero _ _ ls ls' hs.engine hW h₁, hs.wires,
    hs.out⟩

/-- **One operation.** -/
theorem step {op : FpOp} (hop : op.Canonical) (h : H'.step s' op = some s₁')
    (h₁ : Good s₁'.engine) : ∃ s₁, H.step s op = some s₁ ∧ Related R W s₁ s₁' := by
  cases op with
  | feed w => exact hH.step_feed hs hop h h₁
  | pub a => exact hH.step_pub hs hop h
  | add i j => exact hH.step_add hs h
  | sub i j => exact hH.step_sub hs h
  | negate i => exact hH.step_negate hs h
  | mul i j => exact hH.step_mul hs h h₁
  | mulVec ij => exact hH.step_mulVec hs h h₁
  | addConst i c => exact hH.step_addConst hs hop h
  | subConst i c => exact hH.step_subConst hs hop h
  | mulConst i c => exact hH.step_mulConst hs hop h
  | sum is => exact hH.step_sum hs h
  | reveal is => exact hH.step_reveal hs h h₁
  | revealCheck is expected => exact hH.step_revealCheck hs h h₁
  | revealZero is => exact hH.step_revealZero hs h h₁

end Operations

/-- **A run.** -/
theorem run {s : FpHalfState E L} {s' s₁' : FpHalfState E' L'} {ops : List FpOp}
    (hops : ∀ op ∈ ops, op.Canonical) (hs : Related R W s s')
    (h : Runs.run H'.step s' ops = some s₁') (h₁ : Good s₁'.engine) :
    ∃ s₁, Runs.run H.step s ops = some s₁ ∧ Related R W s₁ s₁' := by
  induction ops generalizing s s' with
  | nil => exact ⟨s, rfl, Option.some_inj.mp h ▸ hs⟩
  | cons op ops ih =>
    rw [List.forall_mem_cons] at hops
    obtain ⟨s₂', hstep, hrun⟩ := Runs.run_cons_eq_some.mp h
    obtain ⟨s₂, hs₂, hR₂⟩ := hH.step hs hops.1 hstep (hH.persists.run hrun h₁)
    obtain ⟨s₁, hs₁, hR₁⟩ := ih hops.2 hR₂ hrun
    exact ⟨s₁, Runs.run_cons_eq_some.mpr ⟨s₂, hs₂, hs₁⟩, hR₁⟩

/-- The destructor. -/
theorem finish {s : FpHalfState E L} {s' s₁' : FpHalfState E' L'} (hs : Related R W s s')
    (h : H'.finish s' = some s₁') (h₁ : Good s₁'.engine) :
    ∃ s₁, H.finish s = some s₁ ∧ Related R W s₁ s₁' := by
  rw [FpHalf.finish] at h ⊢
  rw [hH.checkCnt _ _ hs.engine]
  split at h
  · rename_i hcnt
    obtain ⟨e₁', hcheck, rfl⟩ := Option.map_eq_some_iff.mp h
    obtain ⟨e₁, he₁, hR⟩ := hH.checkManage _ _ _ hs.engine hcheck h₁
    rw [if_pos hcnt, he₁]
    exact ⟨_, rfl, hR, hs.wires, hs.out⟩
  · rename_i hcnt
    rw [if_neg hcnt]
    exact ⟨s, rfl, Option.some_inj.mp h ▸ hs⟩

/-- **A whole program.** -/
theorem program {e : E} {e' : E'} {s₁' : FpHalfState E' L'} {ops : List FpOp}
    (hops : ∀ op ∈ ops, op.Canonical) (he : R e e') (h : H'.program e' ops = some s₁')
    (h₁ : Good s₁'.engine) : ∃ s₁, H.program e ops = some s₁ ∧ Related R W s₁ s₁' := by
  obtain ⟨s₂', hrun, hfinish⟩ := Option.bind_eq_some_iff.mp h
  have hinit : Related R W ⟨e, [], []⟩ ⟨e', [], []⟩ := ⟨he, .nil, rfl⟩
  obtain ⟨s₂, hs₂, hR₂⟩ := hH.run hops hinit hrun (hH.persists.finish hfinish h₁)
  obtain ⟨s₁, hs₁, hR₁⟩ := hH.finish hR₂ hfinish h₁
  exact ⟨s₁, by rw [FpHalf.program, hs₂, Option.bind_some, hs₁], hR₁⟩

end Follows

end Follows

end FpHalf

end VoleZk
