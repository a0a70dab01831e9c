import VoleZk.Arith.Edabits
import VoleZk.Lib.Runs

/-!
# The arithmetic engine

`ZKFpExecPrv` and `ZKFpExecVer` run one program over `IntFp` wires in lockstep.  Linear gates are
local, and each party has its own arithmetic for them; a witness and a product each take a VOLE
correlation and one correction word from the prover.  Products are checked in batches of
`CHECK_SZ`: the correlations of a batch are drawn in advance into `andgate_out_buffer`, and a
product overwrites its correlation with its output label.

A state holds both parties' engines and the wires so far; the words sent from one party to the
other are passed along.  Background mode draws the same correlations in the same order, and the
worker threads only split loops whose iterations are independent, except for the batch check, where
each worker has coefficients of its own.  The elementwise operations of `IntFpVec` other than
multiplication are the scalar gates, one element after the other.

## What is here

* `FpConfig`, what the two parties share, and `FpConfig.Valid`;
* the gates of the two parties, under `Prv` and `Ver`;
* `FpOSTriple`, one party's engine: inputs, multiplication, the batch check, reveals;
* `FpOp`, `FpSession.step`, `FpSession.finish` — **the two parties running a program**;
* `FpPlain.step` — what the program computes.
-/

set_option autoImplicit false

namespace VoleZk

/-! ## What the parties share -/

/-- What the two parties set up before the program starts, and the randomness of the run. -/
structure FpConfig where
  /-- The field routines of emp-tool. -/
  F : FpOps
  /-- The verifier's MAC key. -/
  delta : ℕ
  /-- `pub_mac`, the tag of public labels. -/
  pubMac : ℕ
  /-- The prover's halves of the VOLE correlations, in the order they are drawn. -/
  volePrv : ℕ → AuthVal
  /-- The verifier's halves. -/
  voleVer : ℕ → AuthVal
  /-- `CHECK_SZ`. -/
  checkSz : ℕ
  /-- `threads_`, the same on both sides. -/
  threads : ℕ
  /-- `LOW64(share_seed[i])` in each check: both parties expand the seed the verifier sends. -/
  shareSeed : ℕ → ℕ → ℕ
  /-- The words of the PRG keyed with a block. -/
  prg : ℕ × ℕ → ℕ → ℕ

/-- The field routines reduce, the correlations are labels, a batch and the pool are not empty. -/
structure FpConfig.Valid (C : FpConfig) : Prop where
  /-- `add_mod`, `mult_mod` and `mod` return canonical residues. -/
  canonical : C.F.Canonical
  /-- The key is a residue. -/
  delta_lt : C.delta < PR
  /-- The public tag is a residue. -/
  pubMac_lt : C.pubMac < PR
  /-- Every correlation is a label. -/
  vole : ∀ i, ∃ u, Auth C.delta (C.volePrv i) (C.voleVer i) u
  /-- A batch has room for a product. -/
  checkSz_pos : 0 < C.checkSz
  /-- The PRG yields words. -/
  prg_lt : ∀ key j, C.prg key j < 2 ^ 64

/-! ## Gates -/

namespace Prv

variable (F : FpOps)

/-- `ZKFpExecPrv::add_gate`. -/
def addGate (a b : AuthVal) : AuthVal := ⟨F.mod128 (a.val + b.val), F.mod128 (a.mac + b.mac)⟩

/-- `ZKFpExecPrv::sub_gate`. -/
def subGate (a b : AuthVal) : AuthVal :=
  ⟨F.mod128 (a.val + PR - b.val), F.mod128 (a.mac + PR - b.mac)⟩

/-- `ZKFpExecPrv::neg_gate`. -/
def negGate (a : AuthVal) : AuthVal := ⟨F.mod128 (PR - a.val), F.mod128 (PR - a.mac)⟩

/-- `ZKFpExecPrv::mul_const_gate`, both lanes at once. -/
def mulConstGate (a : AuthVal) (b : ℕ) : AuthVal :=
  let r := F.multModBlock (a.val, a.mac) b
  ⟨r.1, r.2⟩

/-- `ZKFpExecPrv::pub_label`. -/
def pubLabel (pubMac a : ℕ) : AuthVal := ⟨a, pubMac⟩

end Prv

namespace Ver

variable (F : FpOps)

/-- `ZKFpExecVer::add_gate`. -/
def addGate (a b : AuthVal) : AuthVal := ⟨0, F.addMod a.mac b.mac⟩

/-- `ZKFpExecVer::sub_gate`. -/
def subGate (a b : AuthVal) : AuthVal := ⟨0, F.addMod a.mac (PR - b.mac)⟩

/-- `ZKFpExecVer::neg_gate`. -/
def negGate (a : AuthVal) : AuthVal := ⟨0, if a.mac = 0 then 0 else PR - a.mac⟩

/-- `ZKFpExecVer::mul_const_gate`. -/
def mulConstGate (a : AuthVal) (b : ℕ) : AuthVal := ⟨0, F.multMod a.mac b⟩

/-- `ZKFpExecVer::pub_label`. -/
def pubLabel (delta pubMac a : ℕ) : AuthVal :=
  let key := PR - F.multMod delta a
  ⟨0, F.addMod key pubMac⟩

end Ver

namespace FpConfig

variable (C : FpConfig)

/-- `add_gate`, both parties. -/
def addGate (a b : Label) : Label :=
  ⟨Prv.addGate C.F a.prover b.prover, Ver.addGate C.F a.verifier b.verifier⟩

/-- `sub_gate`, both parties. -/
def subGate (a b : Label) : Label :=
  ⟨Prv.subGate C.F a.prover b.prover, Ver.subGate C.F a.verifier b.verifier⟩

/-- `neg_gate`, both parties. -/
def negGate (a : Label) : Label := ⟨Prv.negGate C.F a.prover, Ver.negGate a.verifier⟩

/-- `mul_const_gate`, both parties. -/
def mulConstGate (a : Label) (b : ℕ) : Label :=
  ⟨Prv.mulConstGate C.F a.prover b, Ver.mulConstGate C.F a.verifier b⟩

/-- `pub_label`, both parties. -/
def pubLabel (a : ℕ) : Label := ⟨Prv.pubLabel C.pubMac a, Ver.pubLabel C.F C.delta C.pubMac a⟩

/-- `IntFpVec::sum`. -/
def sum : List Label → Label
  | [] => C.pubLabel 0
  | a :: as => as.foldl C.addGate a

end FpConfig

/-! ## One party's engine -/

/-- The engine of one party. -/
structure FpOSTriple where
  /-- The correlations drawn so far. -/
  drawn : ℕ
  /-- The batch checks so far. -/
  checks : ℕ
  /-- `check_cnt`, the products of the current batch. -/
  checkCnt : ℕ
  /-- `andgate_out_buffer`. -/
  outBuf : ℕ → AuthVal
  /-- `andgate_left_buffer`. -/
  leftBuf : ℕ → AuthVal
  /-- `andgate_right_buffer`. -/
  rightBuf : ℕ → AuthVal
  /-- The words absorbed by `auth_helper`. -/
  hashed : List ℕ

namespace FpOSTriple

variable (C : FpConfig) (F : FpOps) (vole : ℕ → AuthVal)

/-- `draw_vole_`: the next `n` correlations. -/
def drawVole (e : FpOSTriple) (n : ℕ) : FpOSTriple × List AuthVal :=
  ({ e with drawn := e.drawn + n }, (List.range n).map fun i => vole (e.drawn + i))

/-- `fill_vole_` of `andgate_out_buffer`.  The slots from `checkSz` on do not exist. -/
def fillVole (e : FpOSTriple) : FpOSTriple :=
  { e with drawn := e.drawn + C.checkSz, outBuf := fun i => vole (e.drawn + i) }

/-- The constructor: one correlation is dropped, and the buffer filled. -/
def init : FpOSTriple :=
  fillVole C vole
    { drawn := 1, checks := 0, checkCnt := 0, outBuf := fun _ => ⟨0, 0⟩,
      leftBuf := fun _ => ⟨0, 0⟩, rightBuf := fun _ => ⟨0, 0⟩, hashed := [] }

/-! ### Inputs -/

/-- `authenticated_val_input` on the prover's side: the labels, and the corrections it sends. -/
def authenticatedValInputSend (e : FpOSTriple) (w : List ℕ) :
    FpOSTriple × List AuthVal × List ℕ :=
  let (e, macs) := e.drawVole vole w.length
  (e, List.zipWith (fun mac w => ⟨w, mac.mac⟩) macs w,
    List.zipWith (fun mac w => F.addMod mac.val (PR - w)) macs w)

/-- `authenticated_val_input` on the verifier's side, with the corrections received. -/
def authenticatedValInputRecv (delta : ℕ) (e : FpOSTriple) (lam : List ℕ) :
    FpOSTriple × List AuthVal :=
  let (e, keys) := e.drawVole vole lam.length
  (e, List.zipWith (fun key lam => ⟨0, F.addMod key.mac (F.multMod lam delta)⟩) keys lam)

/-! ### Multiplication -/

/-- One product of the prover, in slot `i` of the batch: the output label and the correction. -/
def mulSend (e : FpOSTriple) (i : ℕ) (Ma Mb : AuthVal) : FpOSTriple × AuthVal × ℕ :=
  let mac := e.outBuf i
  let d := F.multMod Ma.val Mb.val
  let s := F.addMod mac.val (PR - d)
  let omac : AuthVal := ⟨d, mac.mac⟩
  ({ e with
      leftBuf := Function.update e.leftBuf i Ma
      rightBuf := Function.update e.rightBuf i Mb
      outBuf := Function.update e.outBuf i omac }, omac, s)

/-- One product of the verifier, in slot `i` of the batch, with the correction received. -/
def mulRecv (delta : ℕ) (e : FpOSTriple) (i : ℕ) (Ka Kb : AuthVal) (s : ℕ) :
    FpOSTriple × AuthVal :=
  let key := e.outBuf i
  let wkey : AuthVal := ⟨0, F.addMod key.mac (F.multMod s delta)⟩
  ({ e with
      leftBuf := Function.update e.leftBuf i Ka
      rightBuf := Function.update e.rightBuf i Kb
      outBuf := Function.update e.outBuf i wkey }, wkey)

/-- `mul_block_send_`, from slot `base` on. -/
def mulBlockSend : FpOSTriple → ℕ → List (AuthVal × AuthVal) →
    FpOSTriple × List AuthVal × List ℕ
  | e, _, [] => (e, [], [])
  | e, base, M :: Ms =>
    let (e, out, s) := mulSend F e base M.1 M.2
    let (e, outs, ss) := mulBlockSend e (base + 1) Ms
    (e, out :: outs, s :: ss)

/-- `mul_block_recv_`, from slot `base` on. -/
def mulBlockRecv (delta : ℕ) : FpOSTriple → ℕ → List (AuthVal × AuthVal) → List ℕ →
    FpOSTriple × List AuthVal
  | e, base, K :: Ks, s :: ss =>
    let (e, out) := mulRecv F delta e base K.1 K.2 s
    let (e, outs) := mulBlockRecv delta e (base + 1) Ks ss
    (e, out :: outs)
  | e, _, _, _ => (e, [])

/-! ### The batch check -/

/-- `prg_coeff_gen_zk`: coefficient `k`, from a seed. -/
def prgCoeffGenZk (seed k : ℕ) : ℕ :=
  C.F.mod (C.prg (seed ^^^ 0x9e3779b97f4a7c15, k / 4096) (k % 4096))

/-- The coefficients of worker `thrIdx` in check number `check`. -/
def chi (check thrIdx k : ℕ) : ℕ := prgCoeffGenZk C (C.F.mod (C.shareSeed check thrIdx)) k

/-- The slices of `andgate_correctness_check_manage`: worker, first slot and number of slots. -/
def slices (checkCnt : ℕ) : List (ℕ × ℕ × ℕ) :=
  if C.threads ≤ 1 then [(0, 0, checkCnt)]
  else
    let taskBase := checkCnt / C.threads
    (List.range (C.threads - 1)).map (fun t => (t, t * taskBase, taskBase)) ++
      [(C.threads - 1, (C.threads - 1) * taskBase, checkCnt - (C.threads - 1) * taskBase)]

/-- `andgate_correctness_check` of the prover, on `taskN` slots from `start` on. -/
def checkSend (e : FpOSTriple) (chi : ℕ → ℕ) (start taskN : ℕ) : ℕ × ℕ :=
  (List.range taskN).foldl (fun (U, V) k =>
    let left := e.leftBuf (start + k)
    let right := e.rightBuf (start + k)
    let mc := (e.outBuf (start + k)).mac
    let A0 := F.multMod left.mac right.mac
    let A1 := F.addMod (F.multMod left.val right.mac) (F.multMod right.val left.mac)
    let A1 := F.addMod A1 (PR - mc)
    (F.addMod U (F.multMod A0 (chi k)), F.addMod V (F.multMod A1 (chi k)))) (0, 0)

/-- `andgate_correctness_check` of the verifier. -/
def checkRecv (delta : ℕ) (e : FpOSTriple) (chi : ℕ → ℕ) (start taskN : ℕ) : ℕ :=
  (List.range taskN).foldl (fun W k =>
    let ka := (e.leftBuf (start + k)).mac
    let kb := (e.rightBuf (start + k)).mac
    let kc := (e.outBuf (start + k)).mac
    let B := F.addMod (F.multMod ka kb) (F.multMod kc delta)
    F.addMod W (F.multMod B (chi k))) 0

/-- `andgate_correctness_check_manage` of the prover: the two words it sends. -/
def checkManageSend (e : FpOSTriple) : FpOSTriple × ℕ × ℕ :=
  let sums := (slices C e.checkCnt).map fun (t, start, taskN) =>
    checkSend C.F e (chi C e.checks t) start taskN
  let (U, V) := sums.foldl (fun (U, V) (u, v) => (C.F.addMod U u, C.F.addMod V v)) (0, 0)
  let ope := C.volePrv e.drawn
  ({ e with drawn := e.drawn + 1, checks := e.checks + 1 }, C.F.addMod U ope.mac,
    C.F.addMod V ope.val)

/-- `andgate_correctness_check_manage` of the verifier, on the words received. -/
def checkManageRecv (e : FpOSTriple) (checkSum : ℕ × ℕ) : Option FpOSTriple :=
  let sums := (slices C e.checkCnt).map fun (t, start, taskN) =>
    checkRecv C.F C.delta e (chi C e.checks t) start taskN
  let W := sums.foldl (fun W w => C.F.addMod W w) 0
  let ope := C.voleVer e.drawn
  let W := C.F.addMod W ope.mac
  if checkSum.1 = C.F.addMod (C.F.multMod checkSum.2 C.delta) W then
    some { e with drawn := e.drawn + 1, checks := e.checks + 1 }
  else none

/-! ### Outputs -/

/-- `reveal_send`: the values sent. -/
def revealSend (e : FpOSTriple) (output : List AuthVal) : FpOSTriple × List ℕ :=
  ({ e with hashed := e.hashed ++ output.map AuthVal.mac }, output.map AuthVal.val)

/-- `reveal_recv`, on the values received. -/
def revealRecv (delta : ℕ) (e : FpOSTriple) (output : List AuthVal) (value : List ℕ) :
    FpOSTriple :=
  { e with hashed := e.hashed ++
      List.zipWith (fun v out => F.addMod (F.multMod v delta) out.mac) value output }

/-- `reveal_check_zero`, the same on both sides. -/
def revealCheckZero (e : FpOSTriple) (output : List AuthVal) : FpOSTriple :=
  { e with hashed := e.hashed ++ output.map AuthVal.mac }

end FpOSTriple

/-! ## Both parties -/

/-- An operation of a program.  Wires are named by their position. -/
inductive FpOp where
  /-- `IntFp(w, ALICE)`, `batch_feed` and `IntFpVec(w, len, ALICE)`: new witnesses. -/
  | feed (w : List ℕ)
  /-- `IntFp(a, PUBLIC)`. -/
  | pub (a : ℕ)
  /-- `operator+`. -/
  | add (i j : ℕ)
  /-- `operator-`. -/
  | sub (i j : ℕ)
  /-- `negate`. -/
  | negate (i : ℕ)
  /-- `operator*`. -/
  | mul (i j : ℕ)
  /-- `IntFpVec::operator*`. -/
  | mulVec (ij : List (ℕ × ℕ))
  /-- `operator+` with a public constant. -/
  | addConst (i c : ℕ)
  /-- `operator-` with a public constant. -/
  | subConst (i c : ℕ)
  /-- `operator*` with a public constant. -/
  | mulConst (i c : ℕ)
  /-- `IntFpVec::sum`. -/
  | sum (is : List ℕ)
  /-- `reveal`, `batch_reveal`. -/
  | reveal (is : List ℕ)
  /-- `reveal(expect)`, `batch_reveal_check`. -/
  | revealCheck (is expected : List ℕ)
  /-- `reveal_zero`, `batch_reveal_check_zero`. -/
  | revealZero (is : List ℕ)
  deriving DecidableEq

/-- The inputs and public constants of an operation are below `PR`. -/
def FpOp.Canonical : FpOp → Prop
  | .feed w => ∀ x ∈ w, x < PR
  | .pub a => a < PR
  | .addConst _ c => c < PR
  | .subConst _ c => c < PR
  | .mulConst _ c => c < PR
  | _ => True

/-- The two parties in the middle of a program. -/
structure FpSession where
  /-- The prover's engine. -/
  prover : FpOSTriple
  /-- The verifier's engine. -/
  verifier : FpOSTriple
  /-- The wires so far. -/
  wires : List Label
  /-- What `reveal` returned to the prover. -/
  outPrv : List (List ℕ)
  /-- What `reveal` returned to the verifier. -/
  outVer : List (List ℕ)

namespace FpSession

open FpOSTriple

variable (C : FpConfig)

/-- Before the first operation. -/
def init : FpSession where
  prover := FpOSTriple.init C C.volePrv
  verifier := FpOSTriple.init C C.voleVer
  wires := []
  outPrv := []
  outVer := []

/-- The labels at the given positions. -/
def labels (s : FpSession) (is : List ℕ) : Option (List Label) := is.mapM fun i => s.wires[i]?

/-- Append wires. -/
def push (s : FpSession) (ls : List Label) : FpSession := { s with wires := s.wires ++ ls }

/-- `andgate_correctness_check_manage`, both parties. -/
def checkManage (s : FpSession) : Option FpSession :=
  let (p, checkSum) := checkManageSend C s.prover
  (checkManageRecv C s.verifier checkSum).map fun v => { s with prover := p, verifier := v }

/-- The head of a multiplication: a full batch is checked, and a new one started.  Each party goes
by its own counter; if they differed, one would wait for the other. -/
def ready (s : FpSession) : Option FpSession :=
  if s.prover.checkCnt = C.checkSz ∧ s.verifier.checkCnt = C.checkSz then
    (checkManage C s).map fun s =>
      { s with
        prover := fillVole C C.volePrv { s.prover with checkCnt := 0 }
        verifier := fillVole C C.voleVer { s.verifier with checkCnt := 0 } }
  else if s.prover.checkCnt = C.checkSz ∨ s.verifier.checkCnt = C.checkSz then none
  else some s

/-- `auth_compute_mul`, past its head: the next slot of each party. -/
def mulSlot (s : FpSession) (a b : Label) : FpSession × Label :=
  let (p, M, d) := mulSend C.F s.prover s.prover.checkCnt a.prover b.prover
  let (v, K) := mulRecv C.F C.delta s.verifier s.verifier.checkCnt a.verifier b.verifier d
  ({ s with
      prover := { p with checkCnt := p.checkCnt + 1 }
      verifier := { v with checkCnt := v.checkCnt + 1 } }, ⟨M, K⟩)

/-- `mul_gate`. -/
def mulGate (s : FpSession) (a b : Label) : Option (FpSession × Label) :=
  (ready C s).map fun s => mulSlot C s a b

/-- One block of `auth_compute_mul`: products that fit in the current batch. -/
def mulBlock (s : FpSession) (ab : List (Label × Label)) : FpSession × List Label :=
  let (p, Ms, ds) := mulBlockSend C.F s.prover s.prover.checkCnt
    (ab.map fun x => (x.1.prover, x.2.prover))
  let (v, Ks) := mulBlockRecv C.F C.delta s.verifier s.verifier.checkCnt
    (ab.map fun x => (x.1.verifier, x.2.verifier)) ds
  ({ s with
      prover := { p with checkCnt := p.checkCnt + ab.length }
      verifier := { v with checkCnt := v.checkCnt + ab.length } },
    List.zipWith Label.mk Ms Ks)

/-- The vectorized `mul_gate`, block after block.  If the parties' blocks differed in length, or
a block were empty, they would not go on. -/
def mulVec (s : FpSession) (ab : List (Label × Label)) : Option (FpSession × List Label) :=
  if _h : ab = [] then some (s, [])
  else
    (ready C s).bind fun s =>
      let take := min (C.checkSz - s.prover.checkCnt) ab.length
      if _h : take = 0 ∨ take ≠ min (C.checkSz - s.verifier.checkCnt) ab.length then none
      else
        let (s, outs) := mulBlock C s (ab.take take)
        (mulVec s (ab.drop take)).map fun (s, rest) => (s, outs ++ rest)
termination_by ab.length
decreasing_by
  have : 0 < ab.length := List.length_pos_of_ne_nil ‹_›
  simp only [List.length_drop]
  omega

/-- `reveal`, both parties: the prover's values, sent to the verifier. -/
def reveal (s : FpSession) (ls : List Label) : FpSession × List ℕ :=
  let (p, value) := revealSend s.prover (ls.map Label.prover)
  let v := revealRecv C.F C.delta s.verifier (ls.map Label.verifier) value
  ({ s with prover := p, verifier := v }, value)

/-- One operation, run by both parties; `none` when an error is raised or a wire does not exist. -/
def step (s : FpSession) : FpOp → Option FpSession
  | .feed w =>
    let (p, Ms, lam) := authenticatedValInputSend C.F C.volePrv s.prover w
    let (v, Ks) := authenticatedValInputRecv C.F C.voleVer C.delta s.verifier lam
    some ({ s with prover := p, verifier := v }.push (List.zipWith Label.mk Ms Ks))
  | .pub a => some (s.push [C.pubLabel a])
  | .add i j => (s.labels [i, j]).bind fun
    | [a, b] => some (s.push [C.addGate a b])
    | _ => none
  | .sub i j => (s.labels [i, j]).bind fun
    | [a, b] => some (s.push [C.subGate a b])
    | _ => none
  | .negate i => (s.labels [i]).bind fun
    | [a] => some (s.push [C.negGate a])
    | _ => none
  | .mul i j => (s.labels [i, j]).bind fun
    | [a, b] => (mulGate C s a b).map fun (s, c) => s.push [c]
    | _ => none
  | .mulVec ij => (s.labels (ij.map Prod.fst)).bind fun as =>
    (s.labels (ij.map Prod.snd)).bind fun bs =>
      (mulVec C s (as.zip bs)).map fun (s, cs) => s.push cs
  | .addConst i c => (s.labels [i]).bind fun
    | [a] => some (s.push [C.addGate a (C.pubLabel c)])
    | _ => none
  | .subConst i c => (s.labels [i]).bind fun
    | [a] => some (s.push [C.subGate a (C.pubLabel c)])
    | _ => none
  | .mulConst i c => (s.labels [i]).bind fun
    | [a] => some (s.push [C.mulConstGate a c])
    | _ => none
  | .sum is => (s.labels is).map fun as => s.push [C.sum as]
  | .reveal is => (s.labels is).map fun ls =>
    let (s, value) := reveal C s ls
    { s with outPrv := s.outPrv ++ [value], outVer := s.outVer ++ [value] }
  | .revealCheck is expected => (s.labels is).bind fun ls =>
    let (s, value) := reveal C s ls
    if expected = value then some s else none
  | .revealZero is => (s.labels is).map fun ls =>
    { s with
      prover := revealCheckZero s.prover (ls.map Label.prover)
      verifier := revealCheckZero s.verifier (ls.map Label.verifier) }

/-- The destructor: the last batch is checked if there is one. -/
def finish (s : FpSession) : Option FpSession :=
  if s.prover.checkCnt ≠ 0 ∧ s.verifier.checkCnt ≠ 0 then checkManage C s
  else if s.prover.checkCnt ≠ 0 ∨ s.verifier.checkCnt ≠ 0 then none
  else some s

/-- `auth_helper->flush()`: the verifier compares the digest it receives with its own. -/
def flushAccepts {D : Type*} [DecidableEq D] (digest : List ℕ → D) (s : FpSession) : Bool :=
  digest s.verifier.hashed == digest s.prover.hashed

end FpSession

/-! ## What a program computes -/

/-- The plain state of a program. -/
structure FpPlain where
  /-- The values of the wires. -/
  vals : List ℕ
  /-- What the reveals return. -/
  outs : List (List ℕ)
  /-- The values of the wires given to `reveal_zero`. -/
  zeros : List ℕ

namespace FpPlain

/-- The values at the given positions. -/
def values (p : FpPlain) (is : List ℕ) : Option (List ℕ) := is.mapM fun i => p.vals[i]?

/-- Append values. -/
def push (p : FpPlain) (vs : List ℕ) : FpPlain := { p with vals := p.vals ++ vs }

/-- One operation on plain values. -/
def step (p : FpPlain) : FpOp → Option FpPlain
  | .feed w => some (p.push w)
  | .pub a => some (p.push [a])
  | .add i j => (p.values [i, j]).bind fun
    | [a, b] => some (p.push [(a + b) % PR])
    | _ => none
  | .sub i j => (p.values [i, j]).bind fun
    | [a, b] => some (p.push [(a + (PR - b)) % PR])
    | _ => none
  | .negate i => (p.values [i]).bind fun
    | [a] => some (p.push [(PR - a) % PR])
    | _ => none
  | .mul i j => (p.values [i, j]).bind fun
    | [a, b] => some (p.push [a * b % PR])
    | _ => none
  | .mulVec ij => (p.values (ij.map Prod.fst)).bind fun as =>
    (p.values (ij.map Prod.snd)).bind fun bs =>
      some (p.push ((as.zip bs).map fun x => x.1 * x.2 % PR))
  | .addConst i c => (p.values [i]).bind fun
    | [a] => some (p.push [(a + c) % PR])
    | _ => none
  | .subConst i c => (p.values [i]).bind fun
    | [a] => some (p.push [(a + (PR - c)) % PR])
    | _ => none
  | .mulConst i c => (p.values [i]).bind fun
    | [a] => some (p.push [a * c % PR])
    | _ => none
  | .sum is => (p.values is).map fun vs => p.push [vs.sum % PR]
  | .reveal is => (p.values is).map fun vs => { p with outs := p.outs ++ [vs] }
  | .revealCheck is expected => (p.values is).bind fun vs =>
    if expected = vs then some p else none
  | .revealZero is => (p.values is).map fun vs => { p with zeros := p.zeros ++ vs }

/-- Before the first operation. -/
def init : FpPlain := ⟨[], [], []⟩

end FpPlain

end VoleZk
