import VoleZk.Bool.CheckSound
import VoleZk.Ram.Pack

/-!
# The engine for field elements

The Boolean engine also computes with authenticated elements of the field of `2 ^ 128` elements.
Each party keeps two buffers of correlations of the field VOLE, one for `f2k_input` and one for
`f2k_mul`, and refills them when they run out.  A product overwrites the correlation it takes with
its output and notes its factors.  The check of a batch finds the outputs by `omac_base`, the
difference of the cursor and the number of products, and overwrites the values of the factors.

Wires are variables here, and an operation may write to one it reads.  The field VOLE extends itself
at the same places on both sides, and what it sends for that is not part of the transcript.

## What is here

* `F2kEngine` — one party's buffers: `f2kInit`, refills, and `f2kMulSend`, `f2kMulRecv`;
* `F2kEngine.f2kCheckSend`, `F2kEngine.f2kCheckRecv` — a check, with its scratch;
* `F2kOp`, `F2kExec.step`, `F2kExec.finish` — **the two parties running a program**;
* `F2kPlain.step` — what the program computes;
* `F2kEngine.Keyed`, `F2kExec.check_iff` — the check on any outputs;
* `F2kExec.Inv`, `F2kExec.step_inv` — one operation;
* `F2kExec.f2k_exec_sound` — **a whole program, and what a check lets through.**
-/

set_option autoImplicit false

open Finset KeyCheck

namespace VoleZk

/-! ## One party -/

/-- What the two parties set up, beyond the Boolean engine and the field VOLE. -/
structure F2kExecConfig extends F2kConfig where
  /-- `f2k_buffer_sz`. -/
  f2kBufferSz : ℕ

/-- The correlations are correlated, and a buffer has room. -/
structure F2kExecConfig.Valid (C : F2kExecConfig) : Prop where
  /-- The correlations. -/
  base : C.toF2kConfig.Valid
  /-- A buffer has room. -/
  f2kBufferSz_pos : 0 < C.f2kBufferSz

/-- The factors of a product in the buffers. -/
structure F2kSlot where
  /-- `f2k_left_val`. -/
  leftVal : Block
  /-- `f2k_left_mac`. -/
  leftMac : Block
  /-- `f2k_rght_val`. -/
  rghtVal : Block
  /-- `f2k_rght_mac`. -/
  rghtMac : Block

/-- The buffers of one party. -/
structure F2kEngine where
  /-- `f2k_ready`. -/
  ready : Bool
  /-- The correlations drawn so far. -/
  voles : ℕ
  /-- `f2k_auth_buffer`. -/
  authBuf : ℕ → AuthValueF2k
  /-- `f2k_authval_cnt`. -/
  authvalCnt : ℕ
  /-- `f2k_check_cnt`. -/
  checkCnt : ℕ
  /-- The factors. -/
  slots : ℕ → F2kSlot
  /-- `f2k_in_buffer`. -/
  inBuf : ℕ → AuthValueF2k
  /-- `f2k_in_cnt`. -/
  inCnt : ℕ

namespace F2kEngine

/-- Before the first operation. -/
def init : F2kEngine where
  ready := false
  voles := 0
  authBuf _ := ⟨0, 0⟩
  authvalCnt := 0
  checkCnt := 0
  slots _ := ⟨0, 0, 0, 0⟩
  inBuf _ := ⟨0, 0⟩
  inCnt := 0

section Buffers

variable (sz : ℕ) (vole : ℕ → AuthValueF2k)

/-- `f2k_pre_buffer_refill`.  The slots from `sz` on do not exist. -/
def preBufferRefill (e : F2kEngine) : F2kEngine :=
  { e with voles := e.voles + sz, authBuf := fun i => vole (e.voles + i), authvalCnt := 0 }

/-- `f2k_init`. -/
def f2kInit (e : F2kEngine) : F2kEngine :=
  if e.ready then e else preBufferRefill sz vole { e with ready := true, inCnt := sz }

/-- The draw of `f2k_input`. -/
def inputDraw (e : F2kEngine) : F2kEngine × AuthValueF2k :=
  let e := f2kInit sz vole e
  let e := if e.inCnt = sz then
    { e with voles := e.voles + sz, inBuf := fun i => vole (e.voles + i), inCnt := 0 } else e
  ({ e with inCnt := e.inCnt + 1 }, e.inBuf e.inCnt)

/-- The refill of `f2k_mul`. -/
def refill (e : F2kEngine) : F2kEngine :=
  if e.authvalCnt = sz then preBufferRefill sz vole e else e

end Buffers

variable (C : BoolConfig)

/-- `f2k_mul` of the prover, past its head: the output, and the block it sends. -/
def f2kMulSend (e : F2kEngine) (a b : AuthValueF2k) : F2kEngine × AuthValueF2k × Block :=
  let valc := C.G.gfmul a.val b.val
  let d := valc ^^^ (e.authBuf e.authvalCnt).val
  let out : AuthValueF2k := ⟨valc, (e.authBuf e.authvalCnt).mac⟩
  ({ e with
      slots := Function.update e.slots e.checkCnt ⟨a.val, a.mac, b.val, b.mac⟩
      authBuf := Function.update e.authBuf e.authvalCnt out
      checkCnt := e.checkCnt + 1
      authvalCnt := e.authvalCnt + 1 }, out, d)

/-- `f2k_mul` of the verifier, past its head, on the block received. -/
def f2kMulRecv (e : F2kEngine) (a b : AuthValueF2k) (d : Block) : F2kEngine × AuthValueF2k :=
  let key := e.authBuf e.authvalCnt
  let wkey : AuthValueF2k := ⟨key.val, key.mac ^^^ C.G.gfmul d C.delta⟩
  ({ e with
      slots := Function.update e.slots e.checkCnt ⟨a.val, a.mac, b.val, b.mac⟩
      authBuf := Function.update e.authBuf e.authvalCnt wkey
      checkCnt := e.checkCnt + 1
      authvalCnt := e.authvalCnt + 1 }, ⟨0, wkey.mac⟩)

/-- `omac_base`. -/
def omacBase (e : F2kEngine) : ℕ := e.authvalCnt - e.checkCnt

/-- One turn of the loop of `f2k_check` of the prover: the values of the factors make room for the
two coefficients. -/
def foldSend (e : F2kEngine) (i : ℕ) (slot : F2kSlot) : F2kSlot :=
  let A0 := C.G.gfmul slot.leftMac slot.rghtMac
  let A1 := C.G.gfmul slot.rghtVal slot.leftMac ^^^ C.G.gfmul slot.leftVal slot.rghtMac
    ^^^ (e.authBuf (e.omacBase + i)).mac
  { slot with leftVal := A0, rghtVal := A1 }

/-- `f2k_check` of the prover: the two sums. -/
def f2kCheckSend (e : F2kEngine) (seed : Block) : F2kEngine × Block × Block :=
  if e.checkCnt = 0 then (e, 0, 0)
  else
    let slots := Workers.forEach (foldSend C e) (List.range e.checkCnt) e.slots
    ({ e with slots },
      C.vectorInnPrdtSumRed e.checkCnt (C.prg seed) fun i => (slots i).leftVal,
      C.vectorInnPrdtSumRed e.checkCnt (C.prg seed) fun i => (slots i).rghtVal)

/-- One turn of the loop of `f2k_check` of the verifier. -/
def foldRecv (e : F2kEngine) (i : ℕ) (slot : F2kSlot) : F2kSlot :=
  { slot with
    leftVal := C.G.gfmul slot.leftMac slot.rghtMac
      ^^^ C.G.gfmul (e.authBuf (e.omacBase + i)).mac C.delta }

/-- `f2k_check` of the verifier. -/
def f2kCheckRecv (e : F2kEngine) (seed : Block) : F2kEngine × Block :=
  if e.checkCnt = 0 then (e, 0)
  else
    let slots := Workers.forEach (foldRecv C e) (List.range e.checkCnt) e.slots
    ({ e with slots }, C.vectorInnPrdtSumRed e.checkCnt (C.prg seed) fun i => (slots i).leftVal)

/-- `f2k_check_manage` of the prover: the two blocks it sends. -/
def f2kCheckManageSend (e : F2kEngine) (b : ZKBool) : F2kEngine × ZKBool × Block × Block :=
  let (e, sum) := f2kCheckSend C e (C.digest b.transcript)
  let opeData := fun i => C.cotPrv (b.drawn + i)
  let A0 := C.G.packing opeData ^^^ sum.1
  let A1 := ZKBool.chBlock opeData ^^^ sum.2
  (e, { b with
      drawn := b.drawn + 128
      transcript := b.transcript ++ [Msg.data A0, Msg.data A1] }, A0, A1)

/-- `f2k_check_manage` of the verifier, on the blocks received. -/
def f2kCheckManageRecv (e : F2kEngine) (b : ZKBool) (A : Block × Block) :
    Option (F2kEngine × ZKBool) :=
  let (e, sum) := f2kCheckRecv C e (C.digest b.transcript)
  let opeData := fun i => C.cotVer (b.drawn + i)
  let B := C.G.packing opeData ^^^ sum
  let W := C.G.gfmul A.2 C.delta ^^^ A.1
  if W = B then
    some (e, { b with
      drawn := b.drawn + 128
      transcript := b.transcript ++ [Msg.data A.1, Msg.data A.2] })
  else none

end F2kEngine

/-! ## Both parties -/

/-- An operation of a program.  Wires for field elements are variables, named by numbers. -/
inductive F2kOp where
  /-- An operation on bits. -/
  | bool (op : BoolOp)
  /-- `f2k_input`. -/
  | input (out : ℕ) (v : Block)
  /-- `f2k_wire` of a value and `f2k_pack_v` of it. -/
  | packV (out : ℕ) (v : Block)
  /-- `ramzk_pack_record` of the bits at the given positions, into the variables from `out` on. -/
  | packRecord (out : ℕ) (is : List ℕ)
  /-- `f2k_add`. -/
  | add (out i j : ℕ)
  /-- `f2k_mul_const`. -/
  | mulConst (out i : ℕ) (c : Block)
  /-- `f2k_add_const`. -/
  | addConst (out i : ℕ) (c : Block)
  /-- `f2k_mul`. -/
  | mul (out i j : ℕ)

/-- The variables of one party. -/
abbrev F2kVars := ℕ → AuthValueF2k

namespace F2kVars

/-- Write a value lane. -/
def setVal (m : F2kVars) (out : ℕ) (v : Block) : F2kVars :=
  Function.update m out { m out with val := v }

/-- Write a MAC lane. -/
def setMac (m : F2kVars) (out : ℕ) (mac : Block) : F2kVars :=
  Function.update m out { m out with mac := mac }

/-- `f2k_add_const` of the prover. -/
def addConstSend (m : F2kVars) (out i : ℕ) (c : Block) : F2kVars :=
  let m := m.setVal out ((m i).val ^^^ c)
  m.setMac out (m i).mac

/-- `f2k_add_const` of the verifier. -/
def addConstRecv (C : BoolConfig) (m : F2kVars) (out i : ℕ) (c : Block) : F2kVars :=
  let d := C.G.gfmul C.delta c
  let m := m.setMac out ((m i).mac ^^^ d)
  m.setVal out 0

/-- `f2k_mul` writes its output last, lane after lane. -/
def store (m : F2kVars) (out : ℕ) (w : AuthValueF2k) : F2kVars :=
  (m.setVal out w.val).setMac out w.mac

/-- Write variables from `out` on. -/
def storeAll (m : F2kVars) (out : ℕ) (ws : List AuthValueF2k) : F2kVars :=
  fun i => if out ≤ i then ws.getD (i - out) (m i) else m i

end F2kVars

/-- The two parties in the middle of a program. -/
structure F2kExec where
  /-- The Boolean engines and the bits. -/
  bool : BoolSession
  /-- The prover's buffers. -/
  prover : F2kEngine
  /-- The verifier's buffers. -/
  verifier : F2kEngine
  /-- The prover's variables. -/
  varsPrv : F2kVars
  /-- The verifier's variables. -/
  varsVer : F2kVars
  /-- The products since the last check, factors and output.  Nothing reads them. -/
  triples : List (F2kLabel × F2kLabel × F2kLabel)

/-- A block from the prover to the verifier. -/
def BoolSession.sendData (s : BoolSession) (d : Block) : BoolSession :=
  { s with
    prover := { s.prover with transcript := s.prover.transcript ++ [Msg.data d] }
    verifier := { s.verifier with transcript := s.verifier.transcript ++ [Msg.data d] } }

namespace F2kExec

open F2kEngine

variable (C : F2kExecConfig)

/-- Before the first operation.  What the variables hold then does not matter. -/
def init (m k : F2kVars) : F2kExec where
  bool := BoolSession.init
  prover := F2kEngine.init
  verifier := F2kEngine.init
  varsPrv := m
  varsVer := k
  triples := []

/-- A variable, as the two parties hold it. -/
def wire (s : F2kExec) (i : ℕ) : F2kLabel := ⟨s.varsPrv i, s.varsVer i⟩

/-- Assign a wire. -/
def assign (s : F2kExec) (out : ℕ) (w : F2kLabel) : F2kExec :=
  { s with
    varsPrv := s.varsPrv.store out w.prover
    varsVer := s.varsVer.store out w.verifier }

/-- `f2k_input`, both parties. -/
def f2kInput (s : F2kExec) (v : Block) : F2kExec × F2kLabel :=
  let (p, r) := inputDraw C.f2kBufferSz (fun k => (C.vole k).prover) s.prover
  let diff := v ^^^ r.val
  let (q, k) := inputDraw C.f2kBufferSz (fun k => (C.vole k).verifier) s.verifier
  ({ s with bool := s.bool.sendData diff, prover := p, verifier := q },
    ⟨⟨v, r.mac⟩, ⟨0, k.mac ^^^ C.bool.G.gfmul C.bool.delta diff⟩⟩)

/-- `f2k_pack_v`, both parties: bits of the Boolean engine. -/
def f2kPackV (s : BoolSession) (v : Block) : BoolSession × Block × Block :=
  let (t, m) := F2kSession.f2kPackV C.toF2kConfig ⟨s.prover, s.verifier, 0, [], 0⟩ v
  ({ s with prover := t.prover, verifier := t.verifier }, m)

/-- `f2k_check_manage`, both parties. -/
def checkManage (s : F2kExec) : Option F2kExec :=
  let (p, bp, A) := f2kCheckManageSend C.bool s.prover s.bool.prover
  (f2kCheckManageRecv C.bool s.verifier s.bool.verifier A).map fun (q, bq) =>
    { s with bool := { s.bool with prover := bp, verifier := bq }, prover := p, verifier := q }

/-- The head of `f2k_mul`: a full batch is checked, and the correlations are refilled.  Each party
goes by its own counters; if they differed, one would wait for the other. -/
def ready (s : F2kExec) : Option F2kExec :=
  let s := { s with
    prover := f2kInit C.f2kBufferSz (fun k => (C.vole k).prover) s.prover
    verifier := f2kInit C.f2kBufferSz (fun k => (C.vole k).verifier) s.verifier }
  (if s.prover.checkCnt = C.f2kBufferSz ∧ s.verifier.checkCnt = C.f2kBufferSz then
    (checkManage C s).map fun s =>
      { s with
        prover := { s.prover with checkCnt := 0 }
        verifier := { s.verifier with checkCnt := 0 }
        triples := [] }
  else if s.prover.checkCnt = C.f2kBufferSz ∨ s.verifier.checkCnt = C.f2kBufferSz then none
  else some s).map fun s =>
    { s with
      prover := refill C.f2kBufferSz (fun k => (C.vole k).prover) s.prover
      verifier := refill C.f2kBufferSz (fun k => (C.vole k).verifier) s.verifier }

/-- `f2k_mul`, past its head. -/
def mulSlot (s : F2kExec) (out i j : ℕ) : F2kExec :=
  let a := s.wire i
  let b := s.wire j
  let (p, M, d) := f2kMulSend C.bool s.prover a.prover b.prover
  let (q, K) := f2kMulRecv C.bool s.verifier a.verifier b.verifier d
  let c : F2kLabel := ⟨M, K⟩
  let s : F2kExec := { s with
    bool := s.bool.sendData d, prover := p, verifier := q, triples := s.triples ++ [(a, b, c)] }
  s.assign out c

/-- One operation, run by both parties; `none` when an error is raised or a bit does not exist. -/
def step (s : F2kExec) : F2kOp → Option F2kExec
  | .bool op => (BoolSession.step C.bool s.bool op).map fun bool => { s with bool }
  | .input out v =>
    let (s, w) := f2kInput C s v
    some (s.assign out w)
  | .packV out v =>
    let (bool, m) := f2kPackV C s.bool v
    some ({ s with bool }.assign out (BoolConfig.f2kWire v m.1 m.2))
  | .packRecord out is => (s.bool.labels is).map fun ls =>
    let ws := packRecord C.bool ls
    { s with
      varsPrv := s.varsPrv.storeAll out (ws.map F2kLabel.prover)
      varsVer := s.varsVer.storeAll out (ws.map F2kLabel.verifier) }
  | .add out i j => some (s.assign out (BoolConfig.f2kAdd (s.wire i) (s.wire j)))
  | .mulConst out i c => some (s.assign out (C.bool.f2kMulConst (s.wire i) c))
  | .addConst out i c => some { s with
      varsPrv := s.varsPrv.addConstSend out i c
      varsVer := s.varsVer.addConstRecv C.bool out i c }
  | .mul out i j => (ready C s).map fun s => mulSlot C s out i j

/-- The destructors, up to the digests: the last products are checked, and then the last gates. -/
def finish (s : F2kExec) : Option F2kExec :=
  let due := fun e : F2kEngine => e.ready && e.checkCnt != 0
  (if due s.prover && due s.verifier then checkManage C s
    else if due s.prover || due s.verifier then none
    else some s).bind fun s => (BoolSession.finish C.bool s.bool).map fun bool => { s with bool }

end F2kExec

/-! ## What a program computes -/

/-- The plain state of a program. -/
structure F2kPlain where
  /-- The bits. -/
  bool : BoolPlain
  /-- The values of the variables written so far. -/
  vals : ℕ → Option Block

namespace F2kPlain

/-- Before the first operation. -/
def init : F2kPlain := ⟨BoolPlain.init, fun _ => none⟩

/-- Assign a value. -/
def assign (p : F2kPlain) (out : ℕ) (x : Block) : F2kPlain :=
  { p with vals := Function.update p.vals out (some x) }

/-- One operation on plain values.  A variable is written before it is read. -/
def step (G : GfOps) (p : F2kPlain) : F2kOp → Option F2kPlain
  | .bool op => (p.bool.step op).map fun bool => { p with bool }
  | .input out v => some (p.assign out v)
  | .packV out v => some (p.assign out v)
  | .packRecord out is => (p.bool.values is).map fun bits =>
    { p with vals := fun i =>
        if out ≤ i then ((recordVals bits)[i - out]?).or (p.vals i) else p.vals i }
  | .add out i j => (p.vals i).bind fun x => (p.vals j).map fun y => p.assign out (x ^^^ y)
  | .mulConst out i c => (p.vals i).map fun x => p.assign out (G.gfmul c x)
  | .addConst out i c => (p.vals i).map fun x => p.assign out (x ^^^ c)
  | .mul out i j => (p.vals i).bind fun x => (p.vals j).map fun y => p.assign out (G.gfmul x y)

end F2kPlain

/-! ## The check -/

theorem BoolConfig.Valid.withKey_delta {C : BoolConfig} (hC : C.Valid) :
    C.withKey C.delta = C := by
  have hver : (fun i => xorDeltaIf C.delta (C.cotPrv i) (lsb (C.cotPrv i))) = C.cotVer :=
    funext fun i => by
      rw [xorDeltaIf_eq]
      nth_rewrite 1 [(hC.cot i).mac_eq]
      rw [BitVec.xor_assoc, BitVec.xor_self, BitVec.xor_zero]
  rw [BoolConfig.withKey, hver]

namespace F2kEngine

variable {C : BoolConfig} {p v : F2kEngine} {c : ℕ → Block} {δ : Block}

/-- The verifier's buffers hold the keys under `δ` of the prover's: factors carry the values that
the prover has for them, and output `i` carries `c i`. -/
structure Keyed (C : BoolConfig) (δ : Block) (c : ℕ → Block) (p v : F2kEngine) : Prop where
  /-- As many products. -/
  checkCnt : v.checkCnt = p.checkCnt
  /-- The same cursor. -/
  authvalCnt : v.authvalCnt = p.authvalCnt
  /-- The first factors. -/
  left : ∀ i < p.checkCnt, (v.slots i).leftMac
    = (p.slots i).leftMac ^^^ C.G.gfmul (p.slots i).leftVal δ
  /-- The second factors. -/
  rght : ∀ i < p.checkCnt, (v.slots i).rghtMac
    = (p.slots i).rghtMac ^^^ C.G.gfmul (p.slots i).rghtVal δ
  /-- The outputs. -/
  out : ∀ i < p.checkCnt, (v.authBuf (p.omacBase + i)).mac
    = (p.authBuf (p.omacBase + i)).mac ^^^ C.G.gfmul (c i) δ

theorem Keyed.omacBase (h : Keyed C δ c p v) : v.omacBase = p.omacBase := by
  rw [F2kEngine.omacBase, F2kEngine.omacBase, h.checkCnt, h.authvalCnt]

/-- The buffers of a verifier with the key `δ`. -/
def keyAt (C : BoolConfig) (δ : Block) (c : ℕ → Block) (p : F2kEngine) : F2kEngine :=
  { p with
    slots := fun i =>
      ⟨0, (p.slots i).leftMac ^^^ C.G.gfmul (p.slots i).leftVal δ,
        0, (p.slots i).rghtMac ^^^ C.G.gfmul (p.slots i).rghtVal δ⟩
    authBuf := fun k => ⟨0, (p.authBuf k).mac ^^^ C.G.gfmul (c (k - p.omacBase)) δ⟩ }

theorem keyed_keyAt (C : BoolConfig) (δ : Block) (c : ℕ → Block) (p : F2kEngine) :
    Keyed C δ c p (keyAt C δ c p) where
  checkCnt := rfl
  authvalCnt := rfl
  left _ _ := rfl
  rght _ _ := rfl
  out i _ := by simp only [keyAt, Nat.add_sub_cancel_left]

/-- By how much the buffered products are off, combined. -/
def f2kError (C : BoolConfig) (chi : ℕ → Block) (c : ℕ → Block) (p : F2kEngine) : Block :=
  Gf2k.xorSum p.checkCnt fun i =>
    C.G.gfmul (chi i) (C.G.gfmul (p.slots i).leftVal (p.slots i).rghtVal ^^^ c i)

section Ring

variable {R : Type*} [CommRing R] {φ : Block → R}

/-- The coefficients of product `i`. -/
def prodTerm (φ : Block → R) (c : ℕ → Block) (p : F2kEngine) (i : ℕ) : Term R :=
  .gate ⟨φ (p.slots i).leftVal, φ (p.slots i).leftMac⟩
    ⟨φ (p.slots i).rghtVal, φ (p.slots i).rghtMac⟩ ⟨φ (c i), φ (p.authBuf (p.omacBase + i)).mac⟩

/-- The coefficients of a batch. -/
def batchTerm (φ : Block → R) (chi c : ℕ → Block) (p : F2kEngine) : Term R :=
  .sum p.checkCnt (fun i => φ (chi i)) (prodTerm φ c p)

variable (hG : C.G.Lawful φ)
include hG

theorem map_vectorInnPrdtSumRed (n : ℕ) (chi term : ℕ → Block) :
    φ (C.vectorInnPrdtSumRed n chi term) = ∑ k ∈ range n, φ (chi k) * φ (term k) := by
  rw [BoolConfig.vectorInnPrdtSumRed, hG.reduce_innPrdtSumNoRed]

theorem map_f2kError (chi : ℕ → Block) :
    φ (f2kError C chi c p) = (batchTerm φ chi c p).err := by
  rw [f2kError, Gf2k.map_xorSum hG.xor]
  refine sum_congr rfl fun i _ => ?_
  show _ = φ (chi i) * (φ (p.slots i).leftVal * φ (p.slots i).rghtVal - φ (c i))
  rw [hG.gfmul, hG.xor, hG.gfmul, hG.sub_eq]

/-- **The sums of the prover**, computed in place. -/
theorem map_f2kCheckSend (c : ℕ → Block) (seed : Block) :
    φ (f2kCheckSend C p seed).2.1 = (batchTerm φ (C.prg seed) c p).const ∧
      φ (f2kCheckSend C p seed).2.2 = (batchTerm φ (C.prg seed) c p).lin := by
  rw [f2kCheckSend]
  split
  · rename_i hzero
    have hnil : φ 0#128 = 0 := Gf2k.map_zero hG.xor
    simp [batchTerm, Term.sum, hzero, hnil]
  · simp only [map_vectorInnPrdtSumRed hG, Workers.forEach_perm_range _ (List.Perm.refl _)]
    constructor
    · refine sum_congr rfl fun i hi => ?_
      rw [if_pos (mem_range.mp hi), foldSend, hG.gfmul, prodTerm, Term.gate]
    · refine sum_congr rfl fun i hi => ?_
      rw [if_pos (mem_range.mp hi), foldSend, hG.xor, hG.xor, hG.gfmul, hG.gfmul, prodTerm,
        Term.gate, hG.sub_eq]
      ring

/-- **The sum of the verifier.** -/
theorem map_f2kCheckRecv (h : Keyed C δ c p v) (seed : Block) :
    φ (f2kCheckRecv (C.withKey δ) v seed).2 = (batchTerm φ (C.prg seed) c p).atKey (φ δ) := by
  have hG' : (C.withKey δ).G.Lawful φ := hG
  rw [batchTerm, Term.sum_atKey, f2kCheckRecv, h.checkCnt]
  split
  · rename_i hzero
    have hnil : φ 0#128 = 0 := Gf2k.map_zero hG.xor
    simp [hzero, hnil]
  · simp only [map_vectorInnPrdtSumRed hG', Workers.forEach_perm_range _ (List.Perm.refl _)]
    refine sum_congr rfl fun i hi => ?_
    have hi' := mem_range.mp hi
    rw [if_pos hi', foldRecv, h.omacBase, h.left i hi', h.rght i hi', h.out i hi', hG'.xor,
      hG'.gfmul, hG'.gfmul, hG.xor, hG.xor, hG.xor, hG.gfmul, hG.gfmul, hG.gfmul, prodTerm,
      Term.gate_atKey, Share.key, Share.key, Share.key, hG.sub_eq, hG.sub_eq, hG.sub_eq]
    rfl

/-- **The comparison of the verifier**, on any blocks. -/
theorem check_iff (h : Keyed C δ c p v) (b : ZKBool) (A : Block × Block) :
    (f2kCheckManageRecv (C.withKey δ) v b A).isSome ↔
      Accepts (batchTerm φ (C.prg (C.digest b.transcript)) c p) (C.maskShare φ b.drawn) (φ δ)
        (φ A.1, φ A.2) := by
  rw [← BoolConfig.compare_iff hG (map_f2kCheckRecv hG h (C.digest b.transcript)) b.drawn A]
  exact Option.isSome_ite

/-- **The check of an honest prover.**  It passes exactly if `Δ ^ 2` times the error is 0. -/
theorem check_honest_iff (h : Keyed C δ c p v) {bp bv : ZKBool} (hdrawn : bp.drawn = bv.drawn)
    (htranscript : bp.transcript = bv.transcript) :
    (f2kCheckManageRecv (C.withKey δ) v bv (f2kCheckManageSend C p bp).2.2).isSome ↔
      C.G.gfmul (C.G.gfmul δ δ) (f2kError C (C.prg (C.digest bp.transcript)) c p) = 0 := by
  obtain ⟨h0, h1⟩ := map_f2kCheckSend hG (p := p) c (C.digest bp.transcript)
  rw [check_iff hG h, ← htranscript, ← hdrawn,
    ← BoolConfig.accepts_honest_iff hG (map_f2kError hG (C.prg (C.digest bp.transcript)))
      (C.maskShare φ bp.drawn) δ]
  have hA0 : φ (f2kCheckManageSend C p bp).2.2.1
      = (batchTerm φ (C.prg (C.digest bp.transcript)) c p).const
        + (C.maskShare φ bp.drawn).mac := by
    rw [f2kCheckManageSend, hG.xor, h0, add_comm]
    rfl
  have hA1 : φ (f2kCheckManageSend C p bp).2.2.2
      = (batchTerm φ (C.prg (C.digest bp.transcript)) c p).lin
        + (C.maskShare φ bp.drawn).val := by
    rw [f2kCheckManageSend, hG.xor, h1, add_comm]
    rfl
  rw [hA0, hA1]

end Ring

end F2kEngine

/-! ## Wires and variables -/

/-- A wire, from the prover's side. -/
theorem F2kLabel.Holds.key_eq {C : BoolConfig} {w : F2kLabel} {x : Block} (h : w.Holds C x) :
    w.verifier.mac = w.prover.mac ^^^ C.G.gfmul w.prover.val C.delta := by
  rw [h.mac_eq, h.val_eq, BitVec.xor_assoc, BitVec.xor_self, BitVec.xor_zero]

namespace F2kVars

variable (m : F2kVars) (out i : ℕ)

@[simp] theorem store_eq (w : AuthValueF2k) : m.store out w = Function.update m out w := by
  simp [store, setVal, setMac]

/-- `f2k_add_const` may write to the wire it reads. -/
@[simp] theorem addConstSend_eq (c : Block) :
    m.addConstSend out i c = Function.update m out ⟨(m i).val ^^^ c, (m i).mac⟩ := by
  rcases eq_or_ne i out with rfl | hne
  · simp [addConstSend, setVal, setMac]
  · simp [addConstSend, setVal, setMac, Function.update_of_ne hne]

@[simp] theorem addConstRecv_eq (C : BoolConfig) (c : Block) :
    m.addConstRecv C out i c
      = Function.update m out ⟨0, (m i).mac ^^^ C.G.gfmul C.delta c⟩ := by
  simp [addConstRecv, setVal, setMac]

end F2kVars

/-! ## The invariant -/

namespace F2kEngine

variable {C : F2kExecConfig} {p v : F2kEngine} {triples : List (F2kLabel × F2kLabel × F2kLabel)}

/-- The two halves of a correlation. -/
def Correlated (C : F2kExecConfig) (M K : AuthValueF2k) : Prop :=
  M.mac = K.mac ^^^ C.bool.G.gfmul M.val C.bool.delta

/-- Product `i` of the buffers is the right product `t`: its factors are in slot `i`, and its output
is where the check looks for it. -/
structure Buffered (C : F2kExecConfig) (p v : F2kEngine) (i : ℕ)
    (t : F2kLabel × F2kLabel × F2kLabel) : Prop where
  /-- The prover's factors. -/
  slotPrv : p.slots i = ⟨t.1.prover.val, t.1.prover.mac, t.2.1.prover.val, t.2.1.prover.mac⟩
  /-- The verifier's factors. -/
  slotVer : v.slots i = ⟨t.1.verifier.val, t.1.verifier.mac, t.2.1.verifier.val,
    t.2.1.verifier.mac⟩
  /-- The prover's output. -/
  outPrv : p.authBuf (p.omacBase + i) = t.2.2.prover
  /-- The key of the output. -/
  outVer : (v.authBuf (v.omacBase + i)).mac = t.2.2.verifier.mac
  /-- The product is right. -/
  holds : ∃ x y, t.1.Holds C.bool x ∧ t.2.1.Holds C.bool y ∧
    t.2.2.Holds C.bool (C.bool.G.gfmul x y)

theorem Buffered.congr {p' v' : F2kEngine} {i : ℕ} {t : F2kLabel × F2kLabel × F2kLabel}
    (h : Buffered C p v i t) (hslots : p'.slots = p.slots) (hauth : p'.authBuf = p.authBuf)
    (hbase : p'.omacBase = p.omacBase) (hslots' : v'.slots = v.slots)
    (hauth' : v'.authBuf = v.authBuf) (hbase' : v'.omacBase = v.omacBase) :
    Buffered C p' v' i t where
  slotPrv := hslots ▸ h.slotPrv
  slotVer := hslots' ▸ h.slotVer
  outPrv := hauth ▸ hbase ▸ h.outPrv
  outVer := hauth' ▸ hbase' ▸ h.outVer
  holds := h.holds

/-- The buffers of the two parties between two operations. -/
structure Paired (C : F2kExecConfig) (p v : F2kEngine)
    (triples : List (F2kLabel × F2kLabel × F2kLabel)) : Prop where
  /-- Both parties are set up, or none. -/
  ready : p.ready = v.ready
  /-- The parties have drawn the same correlations. -/
  voles : p.voles = v.voles
  /-- The parties are at the same input. -/
  inCnt : p.inCnt = v.inCnt
  /-- The parties have as many products. -/
  checkCnt : p.checkCnt = v.checkCnt
  /-- **The cursor is the number of products**: the outputs start at 0. -/
  aligned : p.authvalCnt = p.checkCnt
  /-- The same on the other side. -/
  aligned' : v.authvalCnt = v.checkCnt
  /-- The batch is not over full. -/
  checkCnt_le : p.checkCnt ≤ C.f2kBufferSz
  /-- Without buffers there is no product. -/
  idle : p.ready = false → p.checkCnt = 0
  /-- Correlations for the products to come. -/
  fresh : p.ready = true → ∀ i, p.checkCnt ≤ i → Correlated C (p.authBuf i) (v.authBuf i)
  /-- Correlations for the inputs to come. -/
  input : p.ready = true → ∀ i, p.inCnt ≤ i → i < C.f2kBufferSz →
    Correlated C (p.inBuf i) (v.inBuf i)
  /-- The input buffer is not over read. -/
  inCnt_le : p.ready = true → p.inCnt ≤ C.f2kBufferSz
  /-- As many products as counted. -/
  length : triples.length = p.checkCnt
  /-- **The products are in the buffers.** -/
  buffered : ∀ i t, triples[i]? = some t → Buffered C p v i t

theorem Paired.omacBase (h : Paired C p v triples) : p.omacBase = 0 ∧ v.omacBase = 0 := by
  rw [F2kEngine.omacBase, F2kEngine.omacBase, h.aligned, h.aligned']
  exact ⟨Nat.sub_self _, Nat.sub_self _⟩

theorem Paired.init : Paired C F2kEngine.init F2kEngine.init [] where
  ready := rfl
  voles := rfl
  inCnt := rfl
  checkCnt := rfl
  aligned := rfl
  aligned' := rfl
  checkCnt_le := Nat.zero_le _
  idle _ := rfl
  fresh h := absurd h Bool.false_ne_true
  input h := absurd h Bool.false_ne_true
  inCnt_le h := absurd h Bool.false_ne_true
  length := rfl
  buffered _ _ h := absurd h.symm (Option.some_ne_none _)

/-- The halves of the correlations, in the order they are drawn. -/
theorem correlated_vole (hC : C.Valid) (k : ℕ) :
    Correlated C (C.vole k).prover (C.vole k).verifier := hC.base.vole k

/-- **The set-up**: both buffers are there, and the first is filled. -/
theorem Paired.f2kInit (hC : C.Valid) (h : Paired C p v triples) :
    Paired C (f2kInit C.f2kBufferSz (fun k => (C.vole k).prover) p)
        (f2kInit C.f2kBufferSz (fun k => (C.vole k).verifier) v) triples ∧
      (f2kInit C.f2kBufferSz (fun k => (C.vole k).prover) p).ready = true := by
  rw [F2kEngine.f2kInit, F2kEngine.f2kInit, ← h.ready]
  by_cases hready : p.ready = true
  · rw [if_pos hready, if_pos hready]
    exact ⟨h, hready⟩
  · rw [if_neg hready, if_neg hready]
    have hzero := h.idle (Bool.eq_false_iff.mpr hready)
    have hnil : triples = [] := List.length_eq_zero_iff.mp (h.length.trans hzero)
    refine ⟨{ h with
      ready := rfl, inCnt := rfl, voles := congrArg (· + C.f2kBufferSz) h.voles
      aligned := hzero.symm, aligned' := h.checkCnt ▸ hzero.symm
      idle := fun hfalse => absurd hfalse.symm Bool.false_ne_true
      fresh := fun _ i _ => ?_
      input := fun _ i hle hlt => absurd hlt (Nat.not_lt.mpr hle)
      inCnt_le := fun _ => le_rfl
      buffered := fun i t ht => ?_ }, rfl⟩
    · show Correlated C (C.vole (p.voles + i)).prover (C.vole (v.voles + i)).verifier
      rw [← h.voles]
      exact correlated_vole hC _
    · rw [hnil] at ht
      exact absurd ht.symm (Option.some_ne_none _)

/-- **The draw of an input**: the halves of a correlation. -/
theorem Paired.inputDraw (hC : C.Valid) (h : Paired C p v triples) :
    Paired C (inputDraw C.f2kBufferSz (fun k => (C.vole k).prover) p).1
        (inputDraw C.f2kBufferSz (fun k => (C.vole k).verifier) v).1 triples ∧
      Correlated C (inputDraw C.f2kBufferSz (fun k => (C.vole k).prover) p).2
        (inputDraw C.f2kBufferSz (fun k => (C.vole k).verifier) v).2 := by
  obtain ⟨h', hready⟩ := h.f2kInit hC
  rw [F2kEngine.inputDraw, F2kEngine.inputDraw]
  generalize F2kEngine.f2kInit C.f2kBufferSz (fun k => (C.vole k).prover) p = p' at h' hready ⊢
  generalize F2kEngine.f2kInit C.f2kBufferSz (fun k => (C.vole k).verifier) v = v' at h' ⊢
  have hle := h'.inCnt_le hready
  simp only [← h'.inCnt]
  by_cases hfull : p'.inCnt = C.f2kBufferSz
  · rw [if_pos hfull, if_pos hfull]
    have hcorr : ∀ i, Correlated C (C.vole (p'.voles + i)).prover
        (C.vole (v'.voles + i)).verifier := fun i => by
      rw [← h'.voles]
      exact correlated_vole hC _
    exact ⟨{ h' with
      inCnt := rfl, voles := congrArg (· + C.f2kBufferSz) h'.voles
      input := fun _ i _ _ => hcorr i
      inCnt_le := fun _ => hC.f2kBufferSz_pos
      buffered := fun i t ht => (h'.buffered i t ht).congr rfl rfl rfl rfl rfl rfl }, hcorr 0⟩
  · rw [if_neg hfull, if_neg hfull]
    have hlt : p'.inCnt < C.f2kBufferSz := by omega
    refine ⟨{ h' with
      inCnt := by simp only [h'.inCnt]
      input := fun hr i hi hlt => h'.input hr i (by simp only at hi; omega) hlt
      inCnt_le := fun _ => hlt
      buffered := fun i t ht => (h'.buffered i t ht).congr rfl rfl rfl rfl rfl rfl }, ?_⟩
    simp only [← h'.inCnt]
    exact h'.input hready _ le_rfl hlt

/-- **The next batch**, after a check: the cursor is at the end too, so the correlations are
refilled. -/
theorem Paired.nextBatch (hC : C.Valid) (h : Paired C p v triples) (hready : p.ready = true)
    (hfull : p.checkCnt = C.f2kBufferSz) (σ τ : ℕ → F2kSlot) :
    let p' := refill C.f2kBufferSz (fun k => (C.vole k).prover)
      { p with slots := σ, checkCnt := 0 }
    Paired C p' (refill C.f2kBufferSz (fun k => (C.vole k).verifier)
        { v with slots := τ, checkCnt := 0 }) [] ∧ p'.ready = true ∧ p'.checkCnt = 0 := by
  have hauth : p.authvalCnt = C.f2kBufferSz := h.aligned.trans hfull
  have hauth' : v.authvalCnt = C.f2kBufferSz := h.aligned'.trans (h.checkCnt ▸ hfull)
  rw [refill, refill, if_pos hauth, if_pos hauth']
  refine ⟨{ h with
    checkCnt := rfl, aligned := rfl, aligned' := rfl, checkCnt_le := Nat.zero_le _
    voles := congrArg (· + C.f2kBufferSz) h.voles
    idle := fun _ => rfl, length := rfl
    fresh := fun _ i _ => ?_
    buffered := fun i t ht => absurd ht.symm (Option.some_ne_none t) }, hready, rfl⟩
  show Correlated C (C.vole (p.voles + i)).prover (C.vole (v.voles + i)).verifier
  rw [← h.voles]
  exact correlated_vole hC _

section Product

variable (a b : F2kLabel) (d : Block)

theorem omacBase_f2kMulSend : (f2kMulSend C.bool p a.prover b.prover).1.omacBase = p.omacBase :=
  Nat.add_sub_add_right _ 1 _

theorem omacBase_f2kMulRecv :
    (f2kMulRecv C.bool v a.verifier b.verifier d).1.omacBase = v.omacBase :=
  Nat.add_sub_add_right _ 1 _

/-- The products before stay where they are. -/
theorem Paired.older (h : Paired C p v triples) {i : ℕ} {t : F2kLabel × F2kLabel × F2kLabel}
    (ht : Buffered C p v i t) (hi : i < p.checkCnt) :
    Buffered C (f2kMulSend C.bool p a.prover b.prover).1
      (f2kMulRecv C.bool v a.verifier b.verifier d).1 i t := by
  have hbase := h.omacBase
  have hne : p.omacBase + i ≠ p.authvalCnt := by rw [hbase.1, h.aligned]; omega
  have hne' : v.omacBase + i ≠ v.authvalCnt := by rw [hbase.2, h.aligned', ← h.checkCnt]; omega
  refine ⟨?_, ?_, ?_, ?_, ht.holds⟩
  · exact (Function.update_of_ne hi.ne _ _).trans ht.slotPrv
  · exact (Function.update_of_ne (h.checkCnt ▸ hi.ne) _ _).trans ht.slotVer
  · rw [omacBase_f2kMulSend]
    exact (Function.update_of_ne hne _ _).trans ht.outPrv
  · rw [omacBase_f2kMulRecv]
    exact (congrArg AuthValueF2k.mac (Function.update_of_ne hne' _ _)).trans ht.outVer

variable {a b} {R : Type*} [CommRing R] {φ : Block → R} (hG : C.bool.G.Lawful φ)
  {x y : Block} (ha : a.Holds C.bool x) (hb : b.Holds C.bool y)
include hG ha hb

/-- A product of wires, with any correlation. -/
theorem Correlated.mul_holds
    (hcorr : Correlated C (p.authBuf p.authvalCnt) (v.authBuf v.authvalCnt)) :
    let P := f2kMulSend C.bool p a.prover b.prover
    (⟨P.2.1, (f2kMulRecv C.bool v a.verifier b.verifier P.2.2).2⟩ : F2kLabel).Holds C.bool
      (C.bool.G.gfmul x y) := by
  refine .of_map hG ?_ rfl ?_
  · show C.bool.G.gfmul a.prover.val b.prover.val = _
    rw [ha.val_eq, hb.val_eq]
  · show φ (p.authBuf p.authvalCnt).mac = φ ((v.authBuf v.authvalCnt).mac ^^^
      C.bool.G.gfmul (C.bool.G.gfmul a.prover.val b.prover.val
        ^^^ (p.authBuf p.authvalCnt).val) C.bool.delta) + _
    rw [hcorr, ha.val_eq, hb.val_eq, hG.xor, hG.xor, hG.gfmul, hG.gfmul, hG.xor]
    linear_combination -(hG.add_self (φ (C.bool.G.gfmul x y) * φ C.bool.delta))

/-- The product itself is in the slot that the cursors point to. -/
theorem Paired.newest (h : Paired C p v triples)
    (hcorr : Correlated C (p.authBuf p.authvalCnt) (v.authBuf v.authvalCnt)) :
    let P := f2kMulSend C.bool p a.prover b.prover
    let V := f2kMulRecv C.bool v a.verifier b.verifier P.2.2
    Buffered C P.1 V.1 p.checkCnt (a, b, ⟨P.2.1, V.2⟩) := by
  intro P V
  have hbase := h.omacBase
  have hcur : P.1.omacBase + p.checkCnt = p.authvalCnt := by
    rw [omacBase_f2kMulSend, hbase.1, h.aligned, Nat.zero_add]
  have hcur' : V.1.omacBase + p.checkCnt = v.authvalCnt := by
    rw [omacBase_f2kMulRecv, hbase.2, h.aligned', ← h.checkCnt, Nat.zero_add]
  refine ⟨Function.update_self _ _ _, ?_, ?_, ?_, x, y, ha, hb, hcorr.mul_holds hG ha hb⟩
  · show Function.update v.slots v.checkCnt _ p.checkCnt = _
    rw [h.checkCnt]
    exact Function.update_self _ _ _
  · rw [hcur]
    exact Function.update_self _ _ _
  · rw [hcur']
    show (Function.update v.authBuf v.authvalCnt _ v.authvalCnt).mac = _
    rw [Function.update_self]
    rfl

/-- **A product** goes into the next slot, and its output over the next correlation. -/
theorem Paired.mulSlot (h : Paired C p v triples) (hready : p.ready = true)
    (hlt : p.checkCnt < C.f2kBufferSz) :
    let P := f2kMulSend C.bool p a.prover b.prover
    let V := f2kMulRecv C.bool v a.verifier b.verifier P.2.2
    let c : F2kLabel := ⟨P.2.1, V.2⟩
    Paired C P.1 V.1 (triples ++ [(a, b, c)]) ∧ c.Holds C.bool (C.bool.G.gfmul x y) := by
  intro P V c
  have hcorr : Correlated C (p.authBuf p.authvalCnt) (v.authBuf v.authvalCnt) := by
    rw [h.aligned, h.aligned', ← h.checkCnt]
    exact h.fresh hready _ le_rfl
  refine ⟨{ h with
    checkCnt := congrArg (· + 1) h.checkCnt
    aligned := congrArg (· + 1) h.aligned
    aligned' := congrArg (· + 1) h.aligned'
    checkCnt_le := hlt
    idle := fun hfalse => absurd (hready.symm.trans hfalse) (by decide)
    fresh := fun _ i hi => ?_
    length := by simp [h.length, P, f2kMulSend]
    buffered := fun i t ht => ?_ }, hcorr.mul_holds hG ha hb⟩
  · have hne : i ≠ p.checkCnt := fun heq => absurd hi (by rw [heq]; exact Nat.not_succ_le_self _)
    show Correlated C (Function.update p.authBuf p.authvalCnt _ i)
      (Function.update v.authBuf v.authvalCnt _ i)
    rw [h.aligned, h.aligned', ← h.checkCnt, Function.update_of_ne hne, Function.update_of_ne hne]
    exact h.fresh hready i (Nat.le_of_succ_le hi)
  · rcases Nat.lt_trichotomy i p.checkCnt with hold | rfl | hbeyond
    · rw [List.getElem?_append_left (h.length ▸ hold)] at ht
      exact h.older a b _ (h.buffered i t ht) hold
    · rw [List.getElem?_append_right h.length.le, h.length, Nat.sub_self] at ht
      obtain rfl := Option.some.inj ht
      exact h.newest hG ha hb hcorr
    · rw [List.getElem?_eq_none (by rw [List.length_append, h.length]; exact hbeyond)] at ht
      exact absurd ht.symm (Option.some_ne_none t)

end Product

/-- The product of the factors in slot `i`. -/
def slotProduct (G : GfOps) (p : F2kEngine) (i : ℕ) : Block :=
  G.gfmul (p.slots i).leftVal (p.slots i).rghtVal

/-- **Honest buffers are keyed**, with the products as outputs. -/
theorem Paired.keyed (h : Paired C p v triples) :
    Keyed C.bool C.bool.delta (slotProduct C.bool.G p) p v := by
  have hget : ∀ i < p.checkCnt, ∃ t, Buffered C p v i t := fun i hi => by
    have hi' : i < triples.length := h.length ▸ hi
    exact ⟨triples[i], h.buffered i _ (List.getElem?_eq_getElem hi')⟩
  have hbase := h.omacBase
  refine ⟨h.checkCnt.symm, by rw [h.aligned, h.aligned', h.checkCnt], fun i hi => ?_,
    fun i hi => ?_, fun i hi => ?_⟩
  · obtain ⟨t, ht⟩ := hget i hi
    obtain ⟨x, y, hx, -, -⟩ := ht.holds
    rw [ht.slotPrv, ht.slotVer]
    exact hx.key_eq
  · obtain ⟨t, ht⟩ := hget i hi
    obtain ⟨x, y, -, hy, -⟩ := ht.holds
    rw [ht.slotPrv, ht.slotVer]
    exact hy.key_eq
  · obtain ⟨t, ht⟩ := hget i hi
    obtain ⟨x, y, hx, hy, hxy⟩ := ht.holds
    have hout := ht.outVer
    rw [hbase.2, ← hbase.1] at hout
    rw [hout, ht.outPrv, slotProduct, ht.slotPrv, hxy.key_eq, hxy.val_eq, hx.val_eq,
      hy.val_eq]

theorem f2kError_slotProduct {R : Type*} [CommRing R] {φ : Block → R} {C : BoolConfig}
    (hG : C.G.Lawful φ) (chi : ℕ → Block) (p : F2kEngine) :
    f2kError C chi (slotProduct C.G p) p = 0 := by
  have hterm : ∀ i, (prodTerm φ (slotProduct C.G p) p i).err = 0 := fun i => by
    show φ (p.slots i).leftVal * φ (p.slots i).rghtVal - φ (slotProduct C.G p i) = 0
    rw [slotProduct, hG.gfmul, sub_self]
  refine hG.injective ?_
  rw [map_f2kError hG, Gf2k.map_zero hG.xor]
  simp only [batchTerm, Term.sum, hterm, mul_zero, sum_const_zero]

/-- A check changes nothing but its scratch. -/
theorem f2kCheckSend_fst (C : BoolConfig) (e : F2kEngine) (seed : Block) :
    (f2kCheckSend C e seed).1 = { e with slots := (f2kCheckSend C e seed).1.slots } := by
  rw [f2kCheckSend]
  split <;> rfl

theorem f2kCheckRecv_fst (C : BoolConfig) (e : F2kEngine) (seed : Block) :
    (f2kCheckRecv C e seed).1 = { e with slots := (f2kCheckRecv C e seed).1.slots } := by
  rw [f2kCheckRecv]
  split <;> rfl

end F2kEngine

namespace F2kExec

open F2kEngine

variable {C : F2kExecConfig} {s : F2kExec} {p : F2kPlain}

/-- The invariant of a run: the Boolean engines keep theirs, the buffers are paired, and **every
variable that was written carries its value.** -/
structure Inv (C : F2kExecConfig) (s : F2kExec) (p : F2kPlain) : Prop where
  /-- The Boolean engines. -/
  bool : BoolSession.Inv C.bool s.bool p.bool
  /-- The buffers. -/
  paired : Paired C s.prover s.verifier s.triples
  /-- The variables. -/
  vars : ∀ i x, p.vals i = some x → (s.wire i).Holds C.bool x

theorem Inv.init (m k : F2kVars) : Inv C (init m k) F2kPlain.init where
  bool := BoolSession.Inv.init
  paired := Paired.init
  vars _ x h := absurd h.symm (Option.some_ne_none x)

theorem Inv.assign (h : Inv C s p) (out : ℕ) {w : F2kLabel} {x : Block} (hw : w.Holds C.bool x) :
    Inv C (s.assign out w) (p.assign out x) where
  bool := h.bool
  paired := h.paired
  vars i y hy := by
    change Function.update p.vals out (some x) i = some y at hy
    rcases eq_or_ne i out with rfl | hne
    · rw [Function.update_self, Option.some.injEq] at hy
      simpa [F2kExec.assign, wire, ← hy] using hw
    · rw [Function.update_of_ne hne] at hy
      simpa [F2kExec.assign, wire, Function.update_of_ne hne] using h.vars i y hy

theorem Inv.storeAll (h : Inv C s p) (out : ℕ) {ws : List F2kLabel} {xs : List Block}
    (hws : List.Forall₂ (F2kLabel.Holds C.bool) ws xs) :
    Inv C { s with
        varsPrv := s.varsPrv.storeAll out (ws.map F2kLabel.prover)
        varsVer := s.varsVer.storeAll out (ws.map F2kLabel.verifier) }
      { p with vals := fun i => if out ≤ i then xs[i - out]?.or (p.vals i) else p.vals i } where
  bool := h.bool
  paired := h.paired
  vars i y hy := by
    simp only [wire, F2kVars.storeAll] at hy ⊢
    split at hy
    · rename_i hle
      have hrel := Runs.getElem?_rel hws (i - out)
      rw [if_pos hle, if_pos hle, List.getD_eq_getElem?_getD, List.getD_eq_getElem?_getD,
        List.getElem?_map, List.getElem?_map]
      generalize ws[i - out]? = w at hrel ⊢
      generalize xs[i - out]? = x at hrel hy
      cases hrel with
      | none => exact h.vars i y hy
      | some hwx =>
        obtain rfl := Option.some.inj hy
        exact hwx
    · rename_i hlt
      rw [if_neg hlt, if_neg hlt]
      exact h.vars i y hy

theorem sendData_inv {s : BoolSession} {p : BoolPlain} (h : BoolSession.Inv C.bool s p)
    (d : Block) : BoolSession.Inv C.bool (s.sendData d) p :=
  { h with transcript := congrArg (· ++ [Msg.data d]) h.transcript }

section Check

variable {R : Type*} [CommRing R] {φ : Block → R} (hG : C.bool.G.Lawful φ) (hC : C.Valid)
include hG hC

/-- **A check of honest products passes**, and changes nothing but its scratch. -/
theorem Inv.checkManage (h : Inv C s p) :
    ∃ bool σ τ, checkManage C s = some { s with
      bool, prover := { s.prover with slots := σ }, verifier := { s.verifier with slots := τ } } ∧
      BoolSession.Inv C.bool bool p.bool := by
  have hpass := (check_honest_iff hG h.paired.keyed h.bool.drawn h.bool.transcript).mpr (by
    rw [f2kError_slotProduct hG]
    exact hG.injective (by rw [hG.gfmul, Gf2k.map_zero hG.xor, mul_zero]))
  rw [hC.base.bool.withKey_delta] at hpass
  obtain ⟨⟨q, bq⟩, hq⟩ := Option.isSome_iff_exists.mp hpass
  have hq' := hq
  simp only [f2kCheckManageRecv, Option.ite_none_right_eq_some, Option.some.injEq,
    Prod.mk.injEq] at hq'
  obtain ⟨-, rfl, rfl⟩ := hq'
  have hrun : F2kExec.checkManage C s = some { s with
      bool := { s.bool with
        prover := (f2kCheckManageSend C.bool s.prover s.bool.prover).2.1, verifier := _ }
      prover := (f2kCheckSend C.bool s.prover (C.bool.digest s.bool.prover.transcript)).1
      verifier :=
        (f2kCheckRecv C.bool s.verifier (C.bool.digest s.bool.verifier.transcript)).1 } :=
    congrArg (Option.map _) hq
  rw [f2kCheckSend_fst, f2kCheckRecv_fst] at hrun
  exact ⟨_, _, _, hrun, { h.bool with
    drawn := congrArg (· + 128) h.bool.drawn
    transcript := congrArg (· ++ _) h.bool.transcript }⟩

/-- **The head of a product** finds room in the batch. -/
theorem Inv.ready (h : Inv C s p) :
    ∃ s', ready C s = some s' ∧ Inv C s' p ∧ s'.prover.ready = true ∧
      s'.prover.checkCnt < C.f2kBufferSz := by
  obtain ⟨hpaired, hready⟩ := h.paired.f2kInit hC
  rw [F2kExec.ready]
  generalize f2kInit C.f2kBufferSz (fun k => (C.vole k).prover) s.prover = p' at hpaired hready ⊢
  generalize f2kInit C.f2kBufferSz (fun k => (C.vole k).verifier) s.verifier = v' at hpaired ⊢
  have h' : Inv C { s with prover := p', verifier := v' } p := ⟨h.bool, hpaired, h.vars⟩
  have hle := hpaired.checkCnt_le
  simp only [← hpaired.checkCnt, and_self, or_self]
  by_cases hfull : p'.checkCnt = C.f2kBufferSz
  · obtain ⟨bool, σ, τ, ht, hbool⟩ := h'.checkManage hG hC
    obtain ⟨hnext, hready', hzero⟩ := hpaired.nextBatch hC hready hfull σ τ
    rw [if_pos hfull, ht, Option.map_some, Option.map_some]
    exact ⟨_, rfl, ⟨hbool, hnext, h.vars⟩, hready', hzero.trans_lt hC.f2kBufferSz_pos⟩
  · have hauth : p'.authvalCnt ≠ C.f2kBufferSz := by rw [hpaired.aligned]; exact hfull
    have hauth' : v'.authvalCnt ≠ C.f2kBufferSz := by
      rw [hpaired.aligned', ← hpaired.checkCnt]
      exact hfull
    rw [if_neg hfull, if_neg hfull, Option.map_some, refill, refill, if_neg hauth, if_neg hauth']
    exact ⟨_, rfl, h', hready, hle.lt_of_ne hfull⟩

end Check

/-- **A product**, past its head. -/
theorem Inv.mulSlot {R : Type*} [CommRing R] {φ : Block → R} (hG : C.bool.G.Lawful φ)
    (h : Inv C s p) (hready : s.prover.ready = true)
    (hlt : s.prover.checkCnt < C.f2kBufferSz) (out : ℕ) {i j : ℕ} {x y : Block}
    (hx : p.vals i = some x) (hy : p.vals j = some y) :
    Inv C (mulSlot C s out i j) (p.assign out (C.bool.G.gfmul x y)) := by
  obtain ⟨hpaired, hc⟩ := h.paired.mulSlot hG (h.vars i x hx) (h.vars j y hy) hready hlt
  have hmid : Inv C { s with
      bool := s.bool.sendData (f2kMulSend C.bool s.prover (s.wire i).prover (s.wire j).prover).2.2
      prover := _, verifier := _, triples := _ } p := ⟨sendData_inv h.bool _, hpaired, h.vars⟩
  exact hmid.assign out hc

/-- **An input.** -/
theorem Inv.f2kInput {R : Type*} [CommRing R] {φ : Block → R} (hG : C.bool.G.Lawful φ)
    (hC : C.Valid) (h : Inv C s p) (v : Block) :
    Inv C (f2kInput C s v).1 p ∧ (f2kInput C s v).2.Holds C.bool v := by
  obtain ⟨hpaired, hcorr⟩ := h.paired.inputDraw hC
  refine ⟨⟨sendData_inv h.bool _, hpaired, h.vars⟩, .of_map hG rfl rfl ?_⟩
  rw [F2kExec.f2kInput, hcorr, hG.xor, hG.xor, hG.gfmul, hG.gfmul, hG.xor]
  linear_combination -(hG.add_self (φ C.bool.delta * φ v))

/-- **A packed value**: 130 bits of the Boolean engine. -/
theorem f2kPackV_inv {R : Type*} [CommRing R] {φ : Block → R} (hG : C.bool.G.Lawful φ)
    (hC : C.Valid) {s : BoolSession} {p : BoolPlain} (h : BoolSession.Inv C.bool s p) (v : Block) :
    BoolSession.Inv C.bool (f2kPackV C s v).1 p ∧
      (BoolConfig.f2kWire v (f2kPackV C s v).2.1 (f2kPackV C s v).2.2).Holds C.bool v := by
  have hok : F2kSession.Ok C.toF2kConfig φ ⟨s.prover, s.verifier, 0, [], 0⟩ :=
    ⟨h.drawn, fun row hrow => absurd hrow List.not_mem_nil⟩
  obtain ⟨hpack, hmac⟩ := F2kSession.f2kPackV_spec hG hC.base hok v
  refine ⟨?_, .of_map hG rfl rfl hmac⟩
  exact { h with
    drawn := hpack.drawn
    transcript := by
      simp only [f2kPackV, F2kSession.f2kPackV, F2kSession.inputZeroExtend,
        ZKBool.authenticatedBitsInputSend, ZKBool.authenticatedBitsInputRecv, h.transcript] }

/-- **One operation** of a program that reads what it has written: the two parties go on, and keep
the invariant. -/
theorem step_inv {R : Type*} [CommRing R] {φ : Block → R} (hG : C.bool.G.Lawful φ) (hC : C.Valid)
    (h : Inv C s p) {op : F2kOp} {p' : F2kPlain} (hp : p.step C.bool.G op = some p') :
    ∃ s', step C s op = some s' ∧ Inv C s' p' := by
  cases op with
  | bool op =>
    obtain ⟨b, hb, rfl⟩ := Option.map_eq_some_iff.mp hp
    have hrel := BoolSession.step_rel hG hC.base.bool op h.bool
    rw [hb] at hrel
    rw [step]
    cases hstep : BoolSession.step C.bool s.bool op with
    | none => rw [hstep] at hrel; cases hrel
    | some t =>
      rw [hstep] at hrel
      cases hrel with
      | some hbool => exact ⟨_, rfl, hbool, h.paired, h.vars⟩
  | input out v =>
    obtain rfl := Option.some.inj hp
    obtain ⟨h', hw⟩ := h.f2kInput hG hC v
    exact ⟨_, rfl, h'.assign out hw⟩
  | packV out v =>
    obtain rfl := Option.some.inj hp
    obtain ⟨hbool, hw⟩ := f2kPackV_inv hG hC h.bool v
    have hmid : Inv C { s with bool := (f2kPackV C s.bool v).1 } p := ⟨hbool, h.paired, h.vars⟩
    exact ⟨_, rfl, hmid.assign out hw⟩
  | packRecord out is =>
    obtain ⟨bits, hbits, rfl⟩ := Option.map_eq_some_iff.mp hp
    have hrel := h.bool.labels is
    rw [hbits] at hrel
    rw [step]
    cases hlabels : s.bool.labels is with
    | none => rw [hlabels] at hrel; cases hrel
    | some ls =>
      rw [hlabels] at hrel
      cases hrel with
      | some hls => exact ⟨_, rfl, h.storeAll out (packRecord_holds hG hls)⟩
  | add out i j =>
    obtain ⟨x, hx, hp⟩ := Option.bind_eq_some_iff.mp hp
    obtain ⟨y, hy, rfl⟩ := Option.map_eq_some_iff.mp hp
    exact ⟨_, rfl, h.assign out ((h.vars i x hx).f2kAdd hG (h.vars j y hy))⟩
  | mulConst out i c =>
    obtain ⟨x, hx, rfl⟩ := Option.map_eq_some_iff.mp hp
    exact ⟨_, rfl, h.assign out ((h.vars i x hx).f2kMulConst hG c)⟩
  | addConst out i c =>
    obtain ⟨x, hx, rfl⟩ := Option.map_eq_some_iff.mp hp
    have hw := h.assign out ((h.vars i x hx).f2kAddConst hG c)
    refine ⟨_, rfl, h.bool, h.paired, fun k y hk => ?_⟩
    have hvar := hw.vars k y hk
    simpa [F2kExec.assign, wire, BoolConfig.f2kAddConst] using hvar
  | mul out i j =>
    obtain ⟨x, hx, hp⟩ := Option.bind_eq_some_iff.mp hp
    obtain ⟨y, hy, rfl⟩ := Option.map_eq_some_iff.mp hp
    obtain ⟨t, ht, h', hready, hlt⟩ := h.ready hG hC
    exact ⟨_, congrArg (Option.map _) ht, h'.mulSlot hG hready hlt out hx hy⟩

/-- **The destructors pass**: the last products are checked, and then the last gates. -/
theorem Inv.finish {R : Type*} [CommRing R] {φ : Block → R} (hG : C.bool.G.Lawful φ)
    (hC : C.Valid) (h : Inv C s p) :
    ∃ s', finish C s = some s' ∧ BoolSession.Inv C.bool s'.bool p.bool := by
  have hdue : (s.verifier.ready && s.verifier.checkCnt != 0)
      = (s.prover.ready && s.prover.checkCnt != 0) := by
    rw [h.paired.ready, h.paired.checkCnt]
  simp only [F2kExec.finish, hdue, Bool.and_self, Bool.or_self]
  by_cases hmore : (s.prover.ready && s.prover.checkCnt != 0) = true
  · obtain ⟨bool, σ, τ, ht, hbool⟩ := h.checkManage hG hC
    obtain ⟨t, hfinish, hbool'⟩ := hbool.finish hG hC.base.bool
    rw [if_pos hmore, ht, Option.bind_some, hfinish]
    exact ⟨_, rfl, hbool'⟩
  · obtain ⟨t, hfinish, hbool'⟩ := h.bool.finish hG hC.base.bool
    rw [if_neg hmore, if_neg hmore, Option.bind_some, hfinish]
    exact ⟨_, rfl, hbool'⟩

/-- **Field elements of the Boolean engine.**  Take any program whose wires are variables, which may
be written while they are read, with as many products and inputs in between as it likes, and
whatever the variables hold at first.

The two honest parties run it to the end, destructors and digests included.  Every variable
carries the value that the program computes.  Between any two operations the products that wait for
a check, and their factors, are in the buffers, the outputs from `omac_base` on.

And the check of a batch, on any buffers whose outputs carry any values `c`, passes exactly if
`Δ ^ 2` times the combination of `a * b - c` is 0. -/
theorem f2k_exec_sound {R : Type*} [CommRing R] {φ : Block → R} (hG : C.bool.G.Lawful φ) :
    (C.Valid → ∀ (m k : F2kVars) (ops : List F2kOp) (p : F2kPlain),
      Runs.run (F2kPlain.step C.bool.G) F2kPlain.init ops = some p →
      ∃ s s', Runs.run (step C) (init m k) ops = some s ∧ finish C s = some s' ∧
        (∀ (D : Type) [DecidableEq D] (authHash : List Block → D),
          BoolSession.finalizeAccepts authHash s'.bool = true) ∧
        (∀ i x, p.vals i = some x → (s.wire i).Holds C.bool x) ∧
        s.triples.length = s.prover.checkCnt ∧ s.triples.length = s.verifier.checkCnt ∧
        ∀ i t, s.triples[i]? = some t → Buffered C s.prover s.verifier i t) ∧
    (∀ (δ : Block) (c : ℕ → Block) (p v : F2kEngine) (bp bv : ZKBool), Keyed C.bool δ c p v →
      bp.drawn = bv.drawn → bp.transcript = bv.transcript →
      ((f2kCheckManageRecv (C.bool.withKey δ) v bv (f2kCheckManageSend C.bool p bp).2.2).isSome ↔
        C.bool.G.gfmul (C.bool.G.gfmul δ δ)
          (f2kError C.bool (C.bool.prg (C.bool.digest bp.transcript)) c p) = 0)) := by
  refine ⟨fun hC m k ops p hp => ?_, fun δ c p v bp bv h => check_honest_iff hG h⟩
  have hstep : ∀ s t t' op, Inv C s t → F2kPlain.step C.bool.G t op = some t' →
      ∃ s', step C s op = some s' ∧ Inv C s' t' := fun _ _ _ _ h ht => step_inv hG hC h ht
  obtain ⟨s, hrun, h⟩ := Runs.run_sim hstep (Inv.init m k) hp
  obtain ⟨s', hfinish, hbool⟩ := h.finish hG hC
  refine ⟨s, s', hrun, hfinish, fun D _ authHash => ?_, h.vars, h.paired.length,
    h.paired.length.trans h.paired.checkCnt, h.paired.buffered⟩
  rw [BoolSession.finalizeAccepts, beq_iff_eq, hbool.hashed]

/-- Batches of two products, and inputs that come from buffers of two. -/
def smallF2kConfig : F2kExecConfig where
  bool := BoolSession.smallConfig
  vole k := ⟨⟨BitVec.ofNat 128 k, 5 ^^^ GfOps.std.gfmul (BitVec.ofNat 128 k) 3⟩, ⟨0, 5⟩⟩
  bufferSz := 1
  chi _ _ := 1
  f2kBufferSz := 2

theorem smallF2kConfig_valid : smallF2kConfig.Valid where
  base := ⟨BoolSession.smallConfig_valid, fun _ => rfl⟩
  f2kBufferSz_pos := by decide

/-- Two products of 2 and 3, past an output of the batch before. -/
def twoProducts : F2kEngine :=
  { F2kEngine.init with
    ready := true, authvalCnt := 3, checkCnt := 2
    slots := fun _ => ⟨2, 4, 3, 5⟩, authBuf := fun _ => ⟨6, 8⟩ }

/-- Five products over batches of two, most of them over a factor, with inputs in between, and one
of a packed value and a packed record.  A second output of 7 instead of 6 does not pass. -/
theorem f2k_exec_sound_batches :
    let ops : List F2kOp := [.input 0 7, .input 1 9, .mul 2 0 1, .input 3 5, .mul 2 2 2,
      .mul 0 0 2, .add 1 1 0, .mulConst 1 1 3, .addConst 1 1 5, .mul 1 1 3,
      .bool (.feedBits .alice [true, false, true]), .packRecord 4 [0, 1, 2], .packV 6 11,
      .mul 6 4 6]
    ∃ s s', Runs.run (step smallF2kConfig) (init (fun _ => ⟨1, 1⟩) fun _ => ⟨2, 2⟩) ops = some s ∧
      finish smallF2kConfig s = some s' ∧ (s.wire 6).Holds smallF2kConfig.bool 39 ∧
      (f2kCheckManageRecv (BoolSession.smallConfig.withKey 3)
        (keyAt BoolSession.smallConfig 3 (fun i => if i = 0 then 6 else 7) twoProducts) .init
        (f2kCheckManageSend BoolSession.smallConfig twoProducts .init).2.2).isSome = false := by
  intro ops
  have hvals : (Runs.run (F2kPlain.step GfOps.std) F2kPlain.init ops).bind (fun p => p.vals 6)
      = some 39 := by
    decide +kernel
  obtain ⟨p, hp, hval⟩ := Option.bind_eq_some_iff.mp hvals
  obtain ⟨hprogram, hcheck⟩ := f2k_exec_sound (C := smallF2kConfig) GfOps.std_lawful
  obtain ⟨s, s', hrun, hfinish, -, hvars, -⟩ :=
    hprogram smallF2kConfig_valid (fun _ => ⟨1, 1⟩) (fun _ => ⟨2, 2⟩) ops p hp
  have hwrong := hcheck 3 (fun i => if i = 0 then 6 else 7) twoProducts _ ZKBool.init ZKBool.init
    (keyed_keyAt _ _ _ _) rfl rfl
  refine ⟨s, s', hrun, hfinish, hvars 6 39 hval, ?_⟩
  rw [Bool.eq_false_iff, ne_eq]
  refine fun hpass => absurd (hwrong.mp hpass) ?_
  decide +kernel

end F2kExec

end VoleZk
