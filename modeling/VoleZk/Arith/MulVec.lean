import VoleZk.Arith.FpComplete
import VoleZk.Lib.Waves

/-!
# The vectorized multiplication and the scalar one

The correlations of a batch lie in `andgate_out_buffer` from the last refill on, and each product
overwrites its own with its output label.  The vectorized `auth_compute_mul` does a block of
products at a time: the workers read the inputs from the caller's arrays and write the outputs to
another one, which may be the array of an input; the correction words are collected in `s_scratch_`
from index 0 on and sent or received at once.

## What is here

* `MulRun.ready`, `MulRun.item` — a scalar call, by both parties;
* `FpOSTriple.mulBlockSendMem`, `FpOSTriple.mulBlockRecvMem`, `MulRun.wave` — a block, with its
  arrays;
* `MulRun.items_eq`, `MulRun.wave_eq` — what products one by one do, and what a block does;
* `MulRun.vectorized_mul_eq_scalar` — **however products are cut into calls**, the parties do what
  they do in scalar calls.
-/

set_option autoImplicit false

open Waves

namespace VoleZk

/-! ## Calls -/

/-- The arrays of a call: where `out`, `Ma` and `Mb` are. -/
structure MulArrays where
  /-- `out`. -/
  out : ℕ
  /-- `Ma`. -/
  a : ℕ
  /-- `Mb`. -/
  b : ℕ

/-- No product writes what another one reads.  `out` may be the array of an input. -/
def MulArrays.Independent (A : MulArrays) (n : ℕ) : Prop :=
  ∀ i < n, ∀ j < n, i ≠ j → A.a + i ≠ A.out + j ∧ A.b + i ≠ A.out + j

/-- Each input is the array of the outputs, or apart from it. -/
theorem MulArrays.independent_of_same {A : MulArrays} {n : ℕ}
    (ha : A.a = A.out ∨ ∀ i < n, ∀ j < n, A.a + i ≠ A.out + j)
    (hb : A.b = A.out ∨ ∀ i < n, ∀ j < n, A.b + i ≠ A.out + j) : A.Independent n := by
  refine fun i hi j hj hij => ⟨?_, ?_⟩
  · rcases ha with ha | ha
    · omega
    · exact ha i hi j hj
  · rcases hb with hb | hb
    · omega
    · exact hb i hi j hj

/-- What a check sees: the buffers, and how far the correlations are. -/
structure MulCheckView where
  /-- `andgate_left_buffer`. -/
  left : ℕ → AuthVal
  /-- `andgate_right_buffer`. -/
  right : ℕ → AuthVal
  /-- `andgate_out_buffer`. -/
  out : ℕ → AuthVal
  /-- The correlations drawn before. -/
  drawn : ℕ

/-- What happens between the parties, in order. -/
inductive MulEvent where
  /-- A correction word. -/
  | word (s : ℕ)
  /-- A check, what it saw on the two sides, and the words sent. -/
  | check (prover verifier : MulCheckView) (checkSum : ℕ × ℕ)
  /-- A refill, and how many correlations were drawn before on the two sides. -/
  | refill (prover verifier : ℕ)

/-- What a product used: its place in the arrays, the place of the correlation in the stream, and
the correlation. -/
structure MulUse where
  /-- The product. -/
  gate : ℕ
  /-- The place in the stream. -/
  place : ℕ
  /-- The correlation. -/
  cor : AuthVal

/-- A product as it is put into the buffers, and its correction word. -/
structure MulGate where
  /-- The left input. -/
  left : AuthVal
  /-- The right input. -/
  right : AuthVal
  /-- The output label. -/
  out : AuthVal
  /-- The correction word. -/
  word : ℕ

namespace FpOSTriple

/-- What a check of the engine sees. -/
def checkView (e : FpOSTriple) : MulCheckView := ⟨e.leftBuf, e.rightBuf, e.outBuf, e.drawn⟩

/-- A product into slot `i` of the buffers. -/
def putGate (e : FpOSTriple) (i : ℕ) (g : MulGate) : FpOSTriple :=
  { e with
    leftBuf := Function.update e.leftBuf i g.left
    rightBuf := Function.update e.rightBuf i g.right
    outBuf := Function.update e.outBuf i g.out }

variable (F : FpOps)

/-- The body of `mul_block_send_` at `i`: memory, the engine and `s_scratch_`. -/
def workSend (A : MulArrays) (base lo i : ℕ) (s : (ℕ → AuthVal) × FpOSTriple × (ℕ → ℕ)) :
    (ℕ → AuthVal) × FpOSTriple × (ℕ → ℕ) :=
  let mac := s.2.1.outBuf (base + i)
  let Ma := s.1 (A.a + lo + i)
  let Mb := s.1 (A.b + lo + i)
  let d := F.multMod Ma.val Mb.val
  let omac : AuthVal := ⟨d, mac.mac⟩
  let word := F.addMod mac.val (PR - d)
  (Function.update s.1 (A.out + lo + i) omac, s.2.1.putGate (base + i) ⟨Ma, Mb, omac, word⟩,
    Function.update s.2.2 i word)

/-- The body of `mul_block_recv_` at `i`: memory and the engine. -/
def workRecv (delta : ℕ) (A : MulArrays) (scratch : ℕ → ℕ) (base lo i : ℕ)
    (s : (ℕ → AuthVal) × FpOSTriple) : (ℕ → AuthVal) × FpOSTriple :=
  let key := s.2.outBuf (base + i)
  let deltaD := F.multMod (scratch i) delta
  let wkey : AuthVal := ⟨0, F.addMod key.mac deltaD⟩
  (Function.update s.1 (A.out + lo + i) wkey,
    s.2.putGate (base + i) ⟨s.1 (A.a + lo + i), s.1 (A.b + lo + i), wkey, scratch i⟩)

/-- `mul_block_send_` and the words sent, `take` products from `lo` on; `order` is the order in
which the workers do them. -/
def mulBlockSendMem (A : MulArrays) (order : List ℕ) (lo take : ℕ) (e : FpOSTriple)
    (mem : ℕ → AuthVal) (scratch : ℕ → ℕ) :
    FpOSTriple × (ℕ → AuthVal) × (ℕ → ℕ) × List ℕ :=
  let (mem, e, scratch) :=
    order.foldl (fun s i => workSend F A e.checkCnt lo i s) (mem, e, scratch)
  ({ e with checkCnt := e.checkCnt + take }, mem, scratch, (List.range take).map scratch)

/-- The words received and `mul_block_recv_`. -/
def mulBlockRecvMem (delta : ℕ) (A : MulArrays) (order : List ℕ) (lo take : ℕ) (e : FpOSTriple)
    (mem : ℕ → AuthVal) (scratch : ℕ → ℕ) (words : List ℕ) :
    FpOSTriple × (ℕ → AuthVal) × (ℕ → ℕ) :=
  let scratch := write scratch 0 take fun i => words.getD i 0
  let (mem, e) :=
    order.foldl (fun s i => workRecv F delta A scratch e.checkCnt lo i s) (mem, e)
  ({ e with checkCnt := e.checkCnt + take }, mem, scratch)

end FpOSTriple

/-- The two parties in the middle of calls. -/
structure MulRun where
  /-- The engines. -/
  session : FpSession
  /-- The prover's memory. -/
  memPrv : ℕ → AuthVal
  /-- The verifier's memory. -/
  memVer : ℕ → AuthVal
  /-- `s_scratch_` of the prover. -/
  scratchPrv : ℕ → ℕ
  /-- `s_scratch_` of the verifier. -/
  scratchVer : ℕ → ℕ
  /-- Where in the stream the prover's buffer was filled from. -/
  filledPrv : ℕ
  /-- Where in the stream the verifier's buffer was filled from. -/
  filledVer : ℕ
  /-- What has happened. -/
  log : List MulEvent
  /-- What the prover's products used. -/
  usesPrv : List MulUse
  /-- What the verifier's products used. -/
  usesVer : List MulUse

namespace MulRun

variable (C : FpConfig) (orderPrv orderVer : ℕ → List ℕ) (P V : MulArrays)

/-- The head of a product or a block: a full batch is checked, and the buffers are refilled. -/
def ready (x : MulRun) : Option MulRun :=
  if x.session.prover.checkCnt = C.checkSz ∧ x.session.verifier.checkCnt = C.checkSz then
    (FpSession.checkManage C x.session).map fun s =>
      { x with
        session := { s with
          prover := FpOSTriple.fillVole C C.volePrv { s.prover with checkCnt := 0 }
          verifier := FpOSTriple.fillVole C C.voleVer { s.verifier with checkCnt := 0 } }
        filledPrv := s.prover.drawn
        filledVer := s.verifier.drawn
        log := x.log ++ [
          .check x.session.prover.checkView x.session.verifier.checkView
            (FpOSTriple.checkManageSend C x.session.prover).2,
          .refill s.prover.drawn s.verifier.drawn] }
  else if x.session.prover.checkCnt = C.checkSz ∨ x.session.verifier.checkCnt = C.checkSz then none
  else some x

/-- The scalar `auth_compute_mul` of product `i`, past its head: the callers store what it returns.
-/
def item (i : ℕ) (x : MulRun) : MulRun :=
  let p := x.session.prover
  let v := x.session.verifier
  let (p', M, s) := FpOSTriple.mulSend C.F p p.checkCnt (x.memPrv (P.a + i)) (x.memPrv (P.b + i))
  let (v', K) := FpOSTriple.mulRecv C.F C.delta v v.checkCnt (x.memVer (V.a + i))
    (x.memVer (V.b + i)) s
  { x with
    session := { x.session with
      prover := { p' with checkCnt := p'.checkCnt + 1 }
      verifier := { v' with checkCnt := v'.checkCnt + 1 } }
    memPrv := Function.update x.memPrv (P.out + i) M
    memVer := Function.update x.memVer (V.out + i) K
    log := x.log ++ [.word s]
    usesPrv := x.usesPrv ++ [⟨i, x.filledPrv + p.checkCnt, p.outBuf p.checkCnt⟩]
    usesVer := x.usesVer ++ [⟨i, x.filledVer + v.checkCnt, v.outBuf v.checkCnt⟩] }

/-- A block of the products from `lo` on. -/
def wave (lo take : ℕ) (x : MulRun) : MulRun :=
  let p := x.session.prover
  let v := x.session.verifier
  let (p', memPrv, scratchPrv, words) :=
    FpOSTriple.mulBlockSendMem C.F P (orderPrv take) lo take p x.memPrv x.scratchPrv
  let (v', memVer, scratchVer) :=
    FpOSTriple.mulBlockRecvMem C.F C.delta V (orderVer take) lo take v x.memVer x.scratchVer words
  { x with
    session := { x.session with prover := p', verifier := v' }
    memPrv := memPrv
    memVer := memVer
    scratchPrv := scratchPrv
    scratchVer := scratchVer
    log := x.log ++ words.map .word
    usesPrv := x.usesPrv ++ (List.range take).map fun i =>
      ⟨lo + i, x.filledPrv + (p.checkCnt + i), p.outBuf (p.checkCnt + i)⟩
    usesVer := x.usesVer ++ (List.range take).map fun i =>
      ⟨lo + i, x.filledVer + (v.checkCnt + i), v.outBuf (v.checkCnt + i)⟩ }

/-- The scalar and the vectorized multiplication over arrays. -/
def machine : Machine MulRun where
  cap := C.checkSz
  cnt x := x.session.prover.checkCnt
  ready := ready C
  item := item C P V
  wave := wave C orderPrv orderVer P V

/-- The parties without `s_scratch_`. -/
def forgetScratch (x : MulRun) : MulRun :=
  { x with scratchPrv := fun _ => 0, scratchVer := fun _ => 0 }

end MulRun

/-! ## What a block does -/

namespace FpOSTriple

section PutGate

variable (e : FpOSTriple)

theorem putGate_outBuf {i j : ℕ} (g : MulGate) (h : i ≠ j) :
    (e.putGate j g).outBuf i = e.outBuf i := Function.update_of_ne h _ _

theorem putGate_comm {i j : ℕ} (g g' : MulGate) (h : i ≠ j) :
    (e.putGate j g').putGate i g = (e.putGate i g).putGate j g' := by
  simp only [putGate, Function.update_comm h]

/-- Products into consecutive slots. -/
def putGates (base n : ℕ) (gate : ℕ → MulGate) : FpOSTriple :=
  { e with
    leftBuf := write e.leftBuf base n fun i => (gate i).left
    rightBuf := write e.rightBuf base n fun i => (gate i).right
    outBuf := write e.outBuf base n fun i => (gate i).out }

@[simp] theorem putGates_zero (base : ℕ) (gate : ℕ → MulGate) : e.putGates base 0 gate = e := by
  simp [putGates]

theorem putGates_succ (base n : ℕ) (gate : ℕ → MulGate) :
    e.putGates base (n + 1) gate = (e.putGates base n gate).putGate (base + n) (gate n) := by
  simp only [putGates, putGate, write_succ]

theorem putGates_congr {base n : ℕ} {gate gate' : ℕ → MulGate} (h : ∀ i < n, gate i = gate' i) :
    e.putGates base n gate = e.putGates base n gate' := by
  simp only [putGates, write_congr fun i hi => congrArg MulGate.left (h i hi),
    write_congr fun i hi => congrArg MulGate.right (h i hi),
    write_congr fun i hi => congrArg MulGate.out (h i hi)]

/-- The next slot is as it was. -/
theorem putGates_outBuf (base n : ℕ) (gate : ℕ → MulGate) :
    (e.putGates base n gate).outBuf (base + n) = e.outBuf (base + n) :=
  write_of_ne (v := fun i => (gate i).out) fun i hi => by omega

theorem foldl_putGate (base n : ℕ) (gate : ℕ → MulGate) :
    (List.range n).foldl (fun e i => e.putGate (base + i) (gate i)) e = e.putGates base n gate := by
  induction n with
  | zero => simp
  | succ n ih => simp [List.range_succ, ih, putGates_succ]

/-- The same, with the words into `s_scratch_`. -/
theorem foldl_putGate_scratch (base n : ℕ) (gate : ℕ → MulGate) (scratch : ℕ → ℕ) :
    (List.range n).foldl (fun s i => (s.1.putGate (base + i) (gate i),
        Function.update s.2 i (gate i).word)) (e, scratch)
      = (e.putGates base n gate, write scratch 0 n fun i => (gate i).word) := by
  induction n with
  | zero => simp
  | succ n ih => simp [List.range_succ, ih, putGates_succ, write_succ]

end PutGate

variable (F : FpOps)

/-- Product `i` of those from `lo` on, as the prover computes it. -/
def gateSend (A : MulArrays) (lo : ℕ) (e : FpOSTriple) (mem : ℕ → AuthVal) (i : ℕ) : MulGate :=
  let mac := e.outBuf (e.checkCnt + i)
  let Ma := mem (A.a + lo + i)
  let Mb := mem (A.b + lo + i)
  let d := F.multMod Ma.val Mb.val
  ⟨Ma, Mb, ⟨d, mac.mac⟩, F.addMod mac.val (PR - d)⟩

/-- Product `i` of those from `lo` on, as the verifier computes it. -/
def gateRecv (delta : ℕ) (A : MulArrays) (lo : ℕ) (e : FpOSTriple) (mem : ℕ → AuthVal)
    (word : ℕ → ℕ) (i : ℕ) : MulGate :=
  let key := e.outBuf (e.checkCnt + i)
  ⟨mem (A.a + lo + i), mem (A.b + lo + i), ⟨0, F.addMod key.mac (F.multMod (word i) delta)⟩, word i⟩

/-- The engine when `n` products are done. -/
def advance (e : FpOSTriple) (n : ℕ) (gate : ℕ → MulGate) : FpOSTriple :=
  { e.putGates e.checkCnt n gate with checkCnt := e.checkCnt + n }

theorem advance_checkCnt (e : FpOSTriple) (n : ℕ) (gate : ℕ → MulGate) :
    (e.advance n gate).checkCnt = e.checkCnt + n := rfl

theorem advance_outBuf (e : FpOSTriple) (n : ℕ) (gate : ℕ → MulGate) :
    (e.advance n gate).outBuf (e.checkCnt + n) = e.outBuf (e.checkCnt + n) :=
  e.putGates_outBuf _ _ gate

section Block

variable {F} {A : MulArrays} {bound lo take : ℕ} (hA : A.Independent bound)
  (hbound : lo + take ≤ bound)
include hA hbound

/-- The iterations of a block do not read what others write. -/
theorem independent_block : (∀ i < take, ∀ j < take, i ≠ j → A.a + lo + i ≠ A.out + lo + j) ∧
    ∀ i < take, ∀ j < take, i ≠ j → A.b + lo + i ≠ A.out + lo + j := by
  have h : ∀ i < take, ∀ j < take, i ≠ j → _ := fun i hi j hj hij =>
    hA (lo + i) (by omega) (lo + j) (by omega) (by omega)
  simp only [Nat.add_assoc]
  exact ⟨fun i hi j hj hij => (h i hi j hj hij).1, fun i hi j hj hij => (h i hi j hj hij).2⟩

/-- **A block of the prover**, in whatever order its workers do the products. -/
theorem mulBlockSendMem_eq {order : List ℕ} (horder : order.Perm (List.range take))
    (e : FpOSTriple) (mem : ℕ → AuthVal) (scratch : ℕ → ℕ) :
    let gate := gateSend F A lo e mem
    mulBlockSendMem F A order lo take e mem scratch = (e.advance take gate,
      write mem (A.out + lo) take fun i => (gate i).out,
      write scratch 0 take fun i => (gate i).word,
      (List.range take).map fun i => (gate i).word) := by
  intro gate
  obtain ⟨ha, hb⟩ := independent_block hA hbound
  have hloop : order.foldl (fun s i => workSend F A e.checkCnt lo i s) (mem, e, scratch)
      = (write mem (A.out + lo) take fun i => (gate i).out,
        e.putGates e.checkCnt take gate, write scratch 0 take fun i => (gate i).word) := by
    refine (foldl_inPlace (fun i (s : FpOSTriple × (ℕ → ℕ)) => s.1.outBuf (e.checkCnt + i))
      (fun i g s => (s.1.putGate (e.checkCnt + i) g, Function.update s.2 i g.word)) MulGate.out
      (fun _ Ma Mb mac => ⟨Ma, Mb, ⟨F.multMod Ma.val Mb.val, mac.mac⟩,
        F.addMod mac.val (PR - F.multMod Ma.val Mb.val)⟩)
      ha hb (fun i j g s hij => putGate_outBuf _ _ (by omega))
      (fun i j g g' s hij => Prod.ext (putGate_comm _ _ _ (by omega))
        (Function.update_comm hij.symm _ _ _)) horder mem (e, scratch)).trans ?_
    rw [foldl_putGate_scratch]
    rfl
  have hwords : (List.range take).map (write scratch 0 take fun i => (gate i).word)
      = (List.range take).map fun i => (gate i).word :=
    List.map_congr_left fun i hi => by
      have h : write scratch 0 take (fun i => (gate i).word) (0 + i) = (gate i).word :=
        write_of_lt (List.mem_range.mp hi)
      rwa [Nat.zero_add] at h
  simp only [mulBlockSendMem, hloop, hwords]
  rfl

/-- **A block of the verifier**, in whatever order its workers do the products. -/
theorem mulBlockRecvMem_eq (delta : ℕ) {order : List ℕ} (horder : order.Perm (List.range take))
    (e : FpOSTriple) (mem : ℕ → AuthVal) (scratch word : ℕ → ℕ) :
    let gate := gateRecv F delta A lo e mem word
    mulBlockRecvMem F delta A order lo take e mem scratch ((List.range take).map word)
      = (e.advance take gate, write mem (A.out + lo) take fun i => (gate i).out,
        write scratch 0 take fun i => ((List.range take).map word).getD i 0) := by
  intro gate
  obtain ⟨ha, hb⟩ := independent_block hA hbound
  set received := write scratch 0 take fun i => ((List.range take).map word).getD i 0 with hrec
  have hword : ∀ i < take, received i = word i := fun i hi => by
    have h : received (0 + i) = ((List.range take).map word).getD i 0 := write_of_lt hi
    rw [Nat.zero_add] at h
    simp [h, List.getD_eq_getElem?_getD, hi]
  have hloop : order.foldl (fun s i => workRecv F delta A received e.checkCnt lo i s) (mem, e)
      = (write mem (A.out + lo) take fun i => (gate i).out, e.putGates e.checkCnt take gate) := by
    refine (foldl_inPlace (fun i (e' : FpOSTriple) => (e'.outBuf (e.checkCnt + i), received i))
      (fun i g e' => e'.putGate (e.checkCnt + i) g) MulGate.out
      (fun _ Ka Kb key => ⟨Ka, Kb, ⟨0, F.addMod key.1.mac (F.multMod key.2 delta)⟩, key.2⟩)
      ha hb (fun i j g s hij => Prod.ext (putGate_outBuf _ _ (by omega)) rfl)
      (fun i j g g' s hij => putGate_comm _ _ _ (by omega)) horder mem e).trans ?_
    have hgate : ∀ i < take, (⟨mem (A.a + lo + i), mem (A.b + lo + i),
        ⟨0, F.addMod (e.outBuf (e.checkCnt + i)).mac (F.multMod (received i) delta)⟩,
        received i⟩ : MulGate) = gate i := fun i hi => by
      rw [hword i hi]
      rfl
    rw [foldl_putGate, putGates_congr e hgate,
      write_congr fun i hi => congrArg MulGate.out (hgate i hi)]
  simp only [mulBlockRecvMem, ← hrec, hloop]
  rfl

end Block

/-! ### Products one by one -/

variable {F}

/-- **The next product of the prover.** -/
theorem mulSend_advance (A : MulArrays) (lo n : ℕ) (e : FpOSTriple) (mem : ℕ → AuthVal) :
    let gate := gateSend F A lo e mem
    let e' := e.advance n gate
    let r := mulSend F e' e'.checkCnt (mem (A.a + lo + n)) (mem (A.b + lo + n))
    { r.1 with checkCnt := r.1.checkCnt + 1 } = e.advance (n + 1) gate ∧
      r.2 = ((gate n).out, (gate n).word) := by
  simp only [mulSend, advance, putGates_succ, putGates_outBuf]
  exact ⟨rfl, rfl⟩

/-- **The next product of the verifier.** -/
theorem mulRecv_advance (delta : ℕ) (A : MulArrays) (lo n : ℕ) (e : FpOSTriple)
    (mem : ℕ → AuthVal) (word : ℕ → ℕ) :
    let gate := gateRecv F delta A lo e mem word
    let e' := e.advance n gate
    let r := mulRecv F delta e' e'.checkCnt (mem (A.a + lo + n)) (mem (A.b + lo + n)) (word n)
    { r.1 with checkCnt := r.1.checkCnt + 1 } = e.advance (n + 1) gate ∧ r.2 = (gate n).out := by
  simp only [mulRecv, advance, putGates_succ, putGates_outBuf]
  exact ⟨rfl, rfl⟩

end FpOSTriple

namespace MulRun

open FpOSTriple

variable (C : FpConfig) (orderPrv orderVer : ℕ → List ℕ) (P V : MulArrays)

/-- What the products from `lo` on do, `n` of them. -/
def done (lo n : ℕ) (x : MulRun) : MulRun :=
  let p := x.session.prover
  let v := x.session.verifier
  let send := gateSend C.F P lo p x.memPrv
  let recv := gateRecv C.F C.delta V lo v x.memVer fun i => (send i).word
  { x with
    session := { x.session with prover := p.advance n send, verifier := v.advance n recv }
    memPrv := write x.memPrv (P.out + lo) n fun i => (send i).out
    memVer := write x.memVer (V.out + lo) n fun i => (recv i).out
    log := x.log ++ (List.range n).map fun i => .word (send i).word
    usesPrv := x.usesPrv ++ (List.range n).map fun i =>
      ⟨lo + i, x.filledPrv + (p.checkCnt + i), p.outBuf (p.checkCnt + i)⟩
    usesVer := x.usesVer ++ (List.range n).map fun i =>
      ⟨lo + i, x.filledVer + (v.checkCnt + i), v.outBuf (v.checkCnt + i)⟩ }

section Done

variable {C orderPrv orderVer P V} {bound lo : ℕ} (hP : P.Independent bound)
  (hV : V.Independent bound)
include hP hV

/-- **A block**, on both sides, up to `s_scratch_`. -/
theorem wave_eq {take : ℕ} (hprv : (orderPrv take).Perm (List.range take))
    (hver : (orderVer take).Perm (List.range take)) (hbound : lo + take ≤ bound) (x : MulRun) :
    forgetScratch (wave C orderPrv orderVer P V lo take x)
      = forgetScratch (done C P V lo take x) := by
  simp only [wave, mulBlockSendMem_eq hP hbound hprv, mulBlockRecvMem_eq hV hbound _ hver,
    forgetScratch, done, List.map_map]
  rfl

/-- **Products one by one**, when there is room.  The induction is on the products done. -/
theorem items_eq {n : ℕ} (hbound : lo + n ≤ bound) (x : MulRun) :
    (machine C orderPrv orderVer P V).items lo n x = done C P V lo n x := by
  induction n with
  | zero => simp [Machine.items, done, advance]
  | succ n ih =>
    rw [Machine.items_succ, ih (by omega)]
    -- the product finds its inputs and its correlation as they were
    have hread : ∀ {A : MulArrays}, A.Independent bound → ∀ mem v : ℕ → AuthVal,
        write mem (A.out + lo) n v (A.a + lo + n) = mem (A.a + lo + n) ∧
          write mem (A.out + lo) n v (A.b + lo + n) = mem (A.b + lo + n) := fun hA mem v => by
      obtain ⟨ha, hb⟩ := independent_block hA hbound
      exact ⟨write_of_ne fun i hi => ha n (by omega) i (by omega) (by omega),
        write_of_ne fun i hi => hb n (by omega) i (by omega) (by omega)⟩
    obtain ⟨hsend, hsend'⟩ := mulSend_advance (F := C.F) P lo n x.session.prover x.memPrv
    obtain ⟨hrecv, hrecv'⟩ := mulRecv_advance (F := C.F) C.delta V lo n x.session.verifier x.memVer
      fun i => (gateSend C.F P lo x.session.prover x.memPrv i).word
    show item C P V (lo + n) _ = _
    simp only [item, done, ← Nat.add_assoc, hread hP, hread hV, hsend, hsend', hrecv, hrecv',
      write_succ, List.range_succ, List.map_append, List.map_cons, List.map_nil, List.append_assoc]
    simp only [advance_checkCnt, advance_outBuf, Nat.add_assoc]

end Done

/-! ## Calls of both kinds -/

variable {C orderPrv orderVer P V} {x y : MulRun}

/-- The parties are at the same place in the batch. -/
def InStep (C : FpConfig) (x : MulRun) : Prop :=
  x.session.prover.checkCnt = x.session.verifier.checkCnt ∧ x.session.prover.checkCnt ≤ C.checkSz

/-- Making room makes room. -/
theorem ready_lt (hsz : 0 < C.checkSz) (hx : InStep C x) (hy : ready C x = some y) :
    InStep C y ∧ y.session.prover.checkCnt < C.checkSz := by
  obtain ⟨hcnt, hle⟩ := hx
  rw [ready] at hy
  by_cases hfull : x.session.prover.checkCnt = C.checkSz
  · rw [if_pos ⟨hfull, hcnt ▸ hfull⟩] at hy
    obtain ⟨s, -, rfl⟩ := Option.map_eq_some_iff.mp hy
    exact ⟨⟨rfl, Nat.zero_le _⟩, hsz⟩
  · rw [if_neg fun h => hfull h.1, if_neg (by omega), Option.some_inj] at hy
    subst hy
    exact ⟨⟨hcnt, hle⟩, by omega⟩

/-- Where there is room, nothing happens. -/
theorem ready_of_lt (hx : InStep C x) (hlt : x.session.prover.checkCnt < C.checkSz) :
    ready C x = some x := by
  have hcnt := hx.1
  rw [ready, if_neg (by omega), if_neg (by omega)]

/-- `s_scratch_` is scratch memory. -/
theorem ready_forgetScratch (x : MulRun) :
    ready C (forgetScratch x) = (ready C x).map forgetScratch := by
  simp only [ready, apply_ite (Option.map forgetScratch), Option.map_map]
  rfl

/-- **Both kinds of calls** meet what the library asks for. -/
theorem machine_lawful {bound : ℕ} (hP : P.Independent bound) (hV : V.Independent bound)
    (hprv : ∀ n, (orderPrv n).Perm (List.range n)) (hver : ∀ n, (orderVer n).Perm (List.range n))
    (hsz : 0 < C.checkSz) :
    (machine C orderPrv orderVer P V).Lawful (InStep C) forgetScratch bound where
  ready_lt := ready_lt hsz
  ready_of_lt := ready_of_lt
  item i hx hlt := ⟨⟨congrArg (· + 1) hx.1, hlt⟩, rfl⟩
  inv_erase {x y} h hx := by
    have hp := congrArg (fun z : MulRun => z.session.prover.checkCnt) h
    have hv := congrArg (fun z : MulRun => z.session.verifier.checkCnt) h
    exact ⟨hp.symm.trans (hx.1.trans hv), hp.symm.trans_le hx.2⟩
  ready_erase := ready_forgetScratch
  item_erase _ _ := rfl
  wave {x} lo take _ _ hbound := by
    rw [items_eq hP hV hbound]
    exact wave_eq hP hV (hprv take) (hver take) hbound x

/-- **The vectorized multiplication is the scalar one.**  The products of the arrays `P` of the
prover and `V` of the verifier, of which none writes what another reads, are done by any sequence of
scalar and vectorized calls, from any fill of the batch, any buffers and any orders of the workers.
Up to `s_scratch_` the two parties are in the state that scalar calls leave: the labels in memory,
the buffers, the log with every correction word, every check, with what it saw, and every refill in
its place, and the correlation that each product used.  If a check fails, it does in either. -/
theorem vectorized_mul_eq_scalar (hprv : ∀ n, (orderPrv n).Perm (List.range n))
    (hver : ∀ n, (orderVer n).Perm (List.range n)) (hsz : 0 < C.checkSz) (calls : List Call)
    (hP : P.Independent (Call.total calls)) (hV : V.Independent (Call.total calls))
    (x : MulRun) (hcnt : x.session.prover.checkCnt = x.session.verifier.checkCnt)
    (hle : x.session.prover.checkCnt ≤ C.checkSz) :
    ((machine C orderPrv orderVer P V).calls 0 calls x).map forgetScratch
      = ((machine C orderPrv orderVer P V).scalar 0 (Call.total calls) x).map
          forgetScratch :=
  (machine_lawful hP hV hprv hver hsz).calls_eq_scalar ⟨hcnt, hle⟩ (Nat.zero_add _).le

/-- Three products in place, the outputs over the left inputs, and one more: with batches of two and
one place taken, two checks and refills fall into the first call. -/
theorem vectorized_mul_eq_scalar_inPlace :
    let A : MulArrays := ⟨0, 0, 10⟩
    let e := { FpOSTriple.init FpSession.small FpSession.small.volePrv with checkCnt := 1 }
    let e' := { FpOSTriple.init FpSession.small FpSession.small.voleVer with checkCnt := 1 }
    let x : MulRun := ⟨{ FpSession.init FpSession.small with prover := e, verifier := e' },
      fun i => ⟨i, 0⟩, fun _ => ⟨0, 0⟩, fun _ => 0, fun _ => 0, 1, 1, [], [], []⟩
    let M := machine FpSession.small List.range (fun n => (List.range n).reverse) A A
    (M.calls 0 [.vector 3, .scalar] x).map forgetScratch
      = (M.scalar 0 4 x).map forgetScratch := by
  intro A e e' x M
  have hA : A.Independent 4 := MulArrays.independent_of_same (Or.inl rfl) (Or.inr (by decide))
  exact vectorized_mul_eq_scalar (fun n => List.Perm.refl _) (fun n => List.reverse_perm _)
    (by decide) [.vector 3, .scalar] hA hA x rfl (by decide)

end MulRun

end VoleZk
