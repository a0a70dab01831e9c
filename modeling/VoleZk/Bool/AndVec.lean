import VoleZk.Bool.Complete
import VoleZk.Lib.Waves

/-!
# The vectorized AND and the scalar one

The vectorized `auth_compute_and` draws the COTs of a wave into the output array, where the workers
find them; a worker puts a gate into the buffers at an offset and the masking bit into `and_bits_`,
and the bits are sent or received in order.  Full batches are checked between waves.

A party has its wires in memory of its own.  What is recorded besides the engines is what each COT
was for, and what each check saw.

## What is here

* `AndRun.ready`, `AndRun.item` — a scalar call, by both parties;
* `ZKBool.waveSendMem`, `ZKBool.waveRecvMem`, `AndRun.wave` — a wave, with its arrays;
* `AndRun.items_eq`, `AndRun.wave_eq` — what gates one by one do, and what a wave does;
* `AndRun.vectorized_and_eq_scalar` — **however gates are cut into calls**, the parties do what they
  do in scalar calls.
-/

set_option autoImplicit false

open Waves

namespace VoleZk

/-! ## Calls -/

/-- The arrays of a call: where `out`, `a` and `b` are. -/
structure AndArrays where
  /-- `out`. -/
  out : ℕ
  /-- `a`. -/
  a : ℕ
  /-- `b`. -/
  b : ℕ

/-- `out` does not alias the inputs. -/
def AndArrays.Apart (A : AndArrays) (n : ℕ) : Prop :=
  ∀ i < n, ∀ j < n, A.a + i ≠ A.out + j ∧ A.b + i ≠ A.out + j

/-- What a COT is for. -/
inductive CotUse where
  /-- The gate of a given place in the arrays. -/
  | gate (i : ℕ)
  /-- Block `k` of the mask of a check. -/
  | mask (k : ℕ)
  deriving DecidableEq

/-- What a check sees: the buffers, and how far the COTs and the transcript are. -/
structure CheckView where
  /-- `andgate_left_buffer`. -/
  left : ℕ → Block
  /-- `andgate_right_buffer`. -/
  right : ℕ → Block
  /-- `andgate_out_buffer`. -/
  out : ℕ → Block
  /-- The COTs drawn before. -/
  drawn : ℕ
  /-- What was sent and received before. -/
  transcript : List Msg

namespace ZKBool

/-- What a check of the engine sees. -/
def checkView (e : ZKBool) : CheckView where
  left j := (e.slots j).left
  right j := (e.slots j).right
  out j := (e.slots j).out
  drawn := e.drawn
  transcript := e.transcript

/-- The engine without `and_bits_`. -/
def forgetBits (e : ZKBool) : ZKBool :=
  { e with slots := fun j => { e.slots j with bit := false } }

variable (C : BoolConfig)

/-- A worker of the prover at gate `i` of a wave: memory, and the buffers. -/
def workSend (A : AndArrays) (base lo i : ℕ) (s : (ℕ → Block) × (ℕ → GateSlot)) :
    (ℕ → Block) × (ℕ → GateSlot) :=
  let l := s.1 (A.a + lo + i)
  let r := s.1 (A.b + lo + i)
  let out := s.1 (A.out + lo + i)
  let v := lsb l && lsb r
  (Function.update s.1 (A.out + lo + i) (withLsb out v),
    Function.update s.2 (base + i) ⟨l, r, withLsb out v, v ^^ lsb out⟩)

/-- A worker of the verifier at gate `i` of a wave. -/
def workRecv (A : AndArrays) (base lo i : ℕ) (s : (ℕ → Block) × (ℕ → GateSlot)) :
    (ℕ → Block) × (ℕ → GateSlot) :=
  let out := s.1 (A.out + lo + i)
  let key := clearLsb (xorDeltaIf C.delta out (s.2 (base + i)).bit)
  (Function.update s.1 (A.out + lo + i) key,
    Function.update s.2 (base + i)
      ⟨s.1 (A.a + lo + i), s.1 (A.b + lo + i), key, (s.2 (base + i)).bit⟩)

/-- A wave of the prover, of the gates from `lo` on: its engine, its memory, and the bits it
sends. -/
def waveSendMem (A : AndArrays) (lo take : ℕ) (e : ZKBool) (mem : ℕ → Block) :
    ZKBool × (ℕ → Block) × List Bool :=
  let base := e.checkCnt
  let mem := write mem (A.out + lo) take fun i => C.cotPrv (e.drawn + i)
  let (mem, slots) := (C.orderPrv take).foldl (fun s i => workSend A base lo i s) (mem, e.slots)
  let bits := (List.range take).map fun i => (slots (base + i)).bit
  ({ e with
      drawn := e.drawn + take
      checkCnt := e.checkCnt + take
      slots := slots
      transcript := e.transcript ++ bits.map Msg.bit }, mem, bits)

/-- A wave of the verifier, with the bits received. -/
def waveRecvMem (A : AndArrays) (lo take : ℕ) (e : ZKBool) (mem : ℕ → Block) (bits : List Bool) :
    ZKBool × (ℕ → Block) :=
  let base := e.checkCnt
  let mem := write mem (A.out + lo) take fun i => C.cotVer (e.drawn + i)
  let slots := (List.range take).foldl (fun (slots : ℕ → GateSlot) i =>
    Function.update slots (base + i) { slots (base + i) with bit := bits.getD i false }) e.slots
  let (mem, slots) := (C.orderVer take).foldl (fun s i => workRecv C A base lo i s) (mem, slots)
  ({ e with
      drawn := e.drawn + take
      checkCnt := e.checkCnt + take
      slots := slots
      transcript := e.transcript ++ bits.map Msg.bit }, mem)

end ZKBool

/-- The two parties in the middle of calls. -/
structure AndRun where
  /-- The engines. -/
  session : BoolSession
  /-- The prover's memory. -/
  memPrv : ℕ → Block
  /-- The verifier's memory. -/
  memVer : ℕ → Block
  /-- The COTs of the prover, in the order they are drawn, and what they are for. -/
  usesPrv : List (ℕ × CotUse)
  /-- The COTs of the verifier. -/
  usesVer : List (ℕ × CotUse)
  /-- What the checks so far saw, on the two sides. -/
  checks : List (CheckView × CheckView)

namespace AndRun

variable (C : BoolConfig) (P V : AndArrays)

/-- The head of a gate or a wave: a full batch is checked. -/
def ready (x : AndRun) : Option AndRun :=
  (BoolSession.ready C x.session).map fun s =>
    if x.session.prover.checkCnt = C.checkSz then
      { x with
        session := s
        usesPrv := x.usesPrv ++
          (List.range 128).map fun k => (x.session.prover.drawn + k, .mask k)
        usesVer := x.usesVer ++
          (List.range 128).map fun k => (x.session.verifier.drawn + k, .mask k)
        checks := x.checks ++ [(x.session.prover.checkView, x.session.verifier.checkView)] }
    else { x with session := s }

/-- The scalar `auth_compute_and` of gate `i`, past its head: the callers store what it returns. -/
def item (i : ℕ) (x : AndRun) : AndRun :=
  let (s, c) := BoolSession.andSlot C x.session
    ⟨x.memPrv (P.a + i), x.memVer (V.a + i)⟩ ⟨x.memPrv (P.b + i), x.memVer (V.b + i)⟩
  { x with
    session := s
    memPrv := Function.update x.memPrv (P.out + i) c.prover
    memVer := Function.update x.memVer (V.out + i) c.verifier
    usesPrv := x.usesPrv ++ [(x.session.prover.drawn, .gate i)]
    usesVer := x.usesVer ++ [(x.session.verifier.drawn, .gate i)] }

/-- A wave of the gates from `lo` on. -/
def wave (lo take : ℕ) (x : AndRun) : AndRun :=
  let (p, memPrv, bits) := ZKBool.waveSendMem C P lo take x.session.prover x.memPrv
  let (v, memVer) := ZKBool.waveRecvMem C V lo take x.session.verifier x.memVer bits
  { x with
    session := { x.session with prover := p, verifier := v }
    memPrv := memPrv
    memVer := memVer
    usesPrv := x.usesPrv ++
      (List.range take).map fun i => (x.session.prover.drawn + i, .gate (lo + i))
    usesVer := x.usesVer ++
      (List.range take).map fun i => (x.session.verifier.drawn + i, .gate (lo + i)) }

/-- The scalar and the vectorized AND over arrays. -/
def machine : Machine AndRun where
  cap := C.checkSz
  cnt x := x.session.prover.checkCnt
  ready := ready C
  item := item C P V
  wave := wave C P V

/-- The parties without `and_bits_`. -/
def forgetBits (x : AndRun) : AndRun :=
  { x with session := { x.session with
      prover := x.session.prover.forgetBits
      verifier := x.session.verifier.forgetBits } }

/-! ## `and_bits_` is scratch memory -/

section Forget

variable {C P V}

theorem checkManageRecv_forgetBits (e : ZKBool) (A : Block × Block) :
    ZKBool.checkManageRecv C e.forgetBits A
      = (ZKBool.checkManageRecv C e A).map ZKBool.forgetBits := by
  rw [ZKBool.checkManageRecv, ZKBool.checkManageRecv, apply_ite (Option.map ZKBool.forgetBits)]
  rfl

theorem ready_forgetBits (x : AndRun) :
    ready C (forgetBits x) = (ready C x).map forgetBits := by
  have hcheck : BoolSession.checkManage C (forgetBits x).session
      = (BoolSession.checkManage C x.session).map fun s =>
        { s with prover := s.prover.forgetBits, verifier := s.verifier.forgetBits } := by
    show ((ZKBool.checkManageRecv C x.session.verifier.forgetBits _).map _ : Option BoolSession) = _
    rw [checkManageRecv_forgetBits]
    simp only [BoolSession.checkManage, Option.map_map]
    rfl
  show (if x.session.prover.checkCnt = C.checkSz ∧ x.session.verifier.checkCnt = C.checkSz then _
    else if x.session.prover.checkCnt = C.checkSz ∨ x.session.verifier.checkCnt = C.checkSz then _
    else _ : Option BoolSession).map _ = _
  rw [hcheck, ready, BoolSession.ready]
  by_cases hboth : x.session.prover.checkCnt = C.checkSz ∧ x.session.verifier.checkCnt = C.checkSz
  · rw [if_pos hboth, if_pos hboth]
    simp only [Option.map_map]
    refine congrArg (fun f => Option.map f _) (funext fun s => ?_)
    have hforget : x.forgetBits.session.prover.checkCnt = C.checkSz := hboth.1
    rw [Function.comp, Function.comp, if_pos hforget]
    show _ = forgetBits (if x.session.prover.checkCnt = C.checkSz then _ else _)
    rw [if_pos hboth.1]
    rfl
  · rw [if_neg hboth, if_neg hboth]
    by_cases hone : x.session.prover.checkCnt = C.checkSz ∨ x.session.verifier.checkCnt = C.checkSz
    · rw [if_pos hone, if_pos hone]
      rfl
    · have hprv : x.session.prover.checkCnt ≠ C.checkSz := fun h => hone (Or.inl h)
      rw [if_neg hone, if_neg hone]
      exact congrArg some ((if_neg hprv).trans (congrArg forgetBits (if_neg hprv)).symm)

theorem item_forgetBits (i : ℕ) (x : AndRun) :
    item C P V i (forgetBits x) = forgetBits (item C P V i x) := by
  have hslots : ∀ (slots : ℕ → GateSlot) (j : ℕ) (slot : GateSlot),
      Function.update (fun k => { slots k with bit := false }) j { slot with bit := false }
        = fun k => { Function.update slots j slot k with bit := false } := fun slots j slot =>
    (Function.comp_update (fun g : GateSlot => { g with bit := false }) slots j slot).symm
  simp only [item, forgetBits, ZKBool.forgetBits, BoolSession.andSlot, ZKBool.authComputeAndSend,
    ZKBool.authComputeAndRecv, ← hslots]

end Forget

end AndRun

/-! ## What a wave does -/

namespace ZKBool

variable (C : BoolConfig)

/-- Gate `i` of those from `lo` on, as the prover computes it. -/
def gateSend (A : AndArrays) (lo : ℕ) (e : ZKBool) (mem : ℕ → Block) (i : ℕ) : GateSlot :=
  let l := mem (A.a + lo + i)
  let r := mem (A.b + lo + i)
  let out := C.cotPrv (e.drawn + i)
  let v := lsb l && lsb r
  ⟨l, r, withLsb out v, v ^^ lsb out⟩

/-- Gate `i` of those from `lo` on, as the verifier computes it. -/
def gateRecv (A : AndArrays) (lo : ℕ) (e : ZKBool) (mem : ℕ → Block) (bit : ℕ → Bool) (i : ℕ) :
    GateSlot :=
  ⟨mem (A.a + lo + i), mem (A.b + lo + i),
    clearLsb (xorDeltaIf C.delta (C.cotVer (e.drawn + i)) (bit i)), bit i⟩

/-- The engine when `n` gates are done. -/
def advance (e : ZKBool) (n : ℕ) (gate : ℕ → GateSlot) (bit : ℕ → Bool) : ZKBool :=
  { e with
    drawn := e.drawn + n
    checkCnt := e.checkCnt + n
    slots := write e.slots e.checkCnt n gate
    transcript := e.transcript ++ (List.range n).map fun i => Msg.bit (bit i) }

variable {C}

/-- Stores into consecutive places. -/
theorem foldl_update (slots : ℕ → GateSlot) (base n : ℕ) (gate : ℕ → GateSlot) :
    (List.range n).foldl (fun slots i => Function.update slots (base + i) (gate i)) slots
      = write slots base n gate := by
  induction n with
  | zero => rw [write_zero]; rfl
  | succ n ih => rw [List.range_succ, List.foldl_append, ih, write_succ]; rfl

/-- The masking bits of a wave, received in order. -/
theorem foldl_receive (slots : ℕ → GateSlot) (base n : ℕ) (bit : ℕ → Bool) :
    (List.range n).foldl (fun (slots : ℕ → GateSlot) i =>
        Function.update slots (base + i) { slots (base + i) with bit := bit i }) slots
      = write slots base n fun i => { slots (base + i) with bit := bit i } := by
  induction n with
  | zero => rw [write_zero]; rfl
  | succ n ih =>
    rw [List.range_succ, List.foldl_append, ih, write_succ, List.foldl_cons, List.foldl_nil,
      write_of_ne fun i hi h => absurd (Nat.add_left_cancel h) (Nat.ne_of_gt hi)]

theorem update_slots {base i j : ℕ} (g : GateSlot) (slots : ℕ → GateSlot) (hij : i ≠ j) :
    Function.update slots (base + j) g (base + i) = slots (base + i) :=
  Function.update_of_ne (fun h => hij (Nat.add_left_cancel h)) _ _

theorem update_slots_comm {base i j : ℕ} (g g' : GateSlot) (slots : ℕ → GateSlot) (hij : i ≠ j) :
    Function.update (Function.update slots (base + j) g') (base + i) g
      = Function.update (Function.update slots (base + i) g) (base + j) g' :=
  Function.update_comm (fun h => hij (Nat.add_left_cancel h).symm) _ _ _

theorem forgetBits_update (slots : ℕ → GateSlot) (j : ℕ) (slot : GateSlot) :
    (fun k => ({ Function.update slots j slot k with bit := false } : GateSlot))
      = Function.update (fun k => { slots k with bit := false }) j { slot with bit := false } :=
  Function.comp_update (fun g : GateSlot => { g with bit := false }) slots j slot

/-- **The next gate of the prover.** -/
theorem authComputeAndSend_advance (A : AndArrays) (lo n : ℕ) (e : ZKBool) (mem : ℕ → Block) :
    let gate := gateSend C A lo e mem
    let r := authComputeAndSend C (e.advance n gate fun i => (gate i).bit)
      (mem (A.a + lo + n)) (mem (A.b + lo + n))
    r.1.forgetBits = (e.advance (n + 1) gate fun i => (gate i).bit).forgetBits ∧
      r.2 = ((gate n).out, (gate n).bit) := by
  refine ⟨?_, rfl⟩
  simp only [authComputeAndSend, forgetBits, advance, write_succ, forgetBits_update,
    List.range_succ, List.map_append, List.map_cons, List.map_nil, List.append_assoc]
  rfl

/-- **The next gate of the verifier.** -/
theorem authComputeAndRecv_advance (A : AndArrays) (lo n : ℕ) (e : ZKBool) (mem : ℕ → Block)
    (bit : ℕ → Bool) :
    let gate := gateRecv C A lo e mem bit
    let r := authComputeAndRecv C (e.advance n gate bit) (mem (A.a + lo + n))
      (mem (A.b + lo + n)) (bit n)
    r.1.forgetBits = (e.advance (n + 1) gate bit).forgetBits ∧ r.2 = (gate n).out := by
  refine ⟨?_, rfl⟩
  simp only [authComputeAndRecv, forgetBits, advance, write_succ, forgetBits_update,
    List.range_succ, List.map_append, List.map_cons, List.map_nil, List.append_assoc]
  rfl

section Wave

variable {A : AndArrays} {bound lo take : ℕ} (hA : A.Apart bound) (hbound : lo + take ≤ bound)
include hA hbound

/-- The iterations of a wave do not read what others write. -/
theorem apart_wave : (∀ i < take, ∀ j < take, A.a + lo + i ≠ A.out + lo + j) ∧
    ∀ i < take, ∀ j < take, A.b + lo + i ≠ A.out + lo + j := by
  have h : ∀ i < take, ∀ j < take, _ := fun i hi j hj =>
    hA (lo + i) (by omega) (lo + j) (by omega)
  simp only [Nat.add_assoc]
  exact ⟨fun i hi j hj => (h i hi j hj).1, fun i hi j hj => (h i hi j hj).2⟩

/-- **A wave of the prover**, in whatever order its workers do the gates. -/
theorem waveSendMem_eq (horder : (C.orderPrv take).Perm (List.range take)) (e : ZKBool)
    (mem : ℕ → Block) :
    let gate := gateSend C A lo e mem
    waveSendMem C A lo take e mem = (e.advance take gate fun i => (gate i).bit,
      write mem (A.out + lo) take fun i => (gate i).out,
      (List.range take).map fun i => (gate i).bit) := by
  intro gate
  obtain ⟨ha, hb⟩ := apart_wave hA hbound
  set cots := write mem (A.out + lo) take fun i => C.cotPrv (e.drawn + i) with hcots
  have hloop : (C.orderPrv take).foldl (fun s i => workSend A e.checkCnt lo i s) (cots, e.slots)
      = (write mem (A.out + lo) take fun i => (gate i).out,
        write e.slots e.checkCnt take gate) := by
    refine (foldl_inPlace (fun i (slots : ℕ → GateSlot) => slots (e.checkCnt + i))
      (fun i g slots => Function.update slots (e.checkCnt + i) g) GateSlot.out
      (fun out l r _ => ⟨l, r, withLsb out (lsb l && lsb r), (lsb l && lsb r) ^^ lsb out⟩)
      (fun i hi j hj _ => ha i hi j hj) (fun i hi j hj _ => hb i hi j hj)
      (fun i j g s => update_slots g s) (fun i j g g' s => update_slots_comm g g' s)
      horder cots e.slots).trans ?_
    have hgate : ∀ i < take, (⟨cots (A.a + lo + i), cots (A.b + lo + i),
        withLsb (cots (A.out + lo + i)) (lsb (cots (A.a + lo + i)) && lsb (cots (A.b + lo + i))),
        (lsb (cots (A.a + lo + i)) && lsb (cots (A.b + lo + i)))
          ^^ lsb (cots (A.out + lo + i))⟩ : GateSlot) = gate i := by
      intro i hi
      simp only [hcots, write_of_lt hi, write_of_ne (ha i hi), write_of_ne (hb i hi), gate,
        gateSend]
    rw [foldl_update, hcots, write_write, ← hcots, write_congr hgate,
      write_congr fun i hi => congrArg GateSlot.out (hgate i hi)]
  have hbits : (List.range take).map (fun i => (write e.slots e.checkCnt take gate
      (e.checkCnt + i)).bit) = (List.range take).map fun i => (gate i).bit :=
    List.map_congr_left fun i hi => by rw [write_of_lt (List.mem_range.mp hi)]
  simp only [waveSendMem, ← hcots, hloop, hbits, advance, List.map_map]
  rfl

/-- **A wave of the verifier**, in whatever order its workers do the gates. -/
theorem waveRecvMem_eq (horder : (C.orderVer take).Perm (List.range take)) (e : ZKBool)
    (mem : ℕ → Block) (bit : ℕ → Bool) :
    let gate := gateRecv C A lo e mem bit
    waveRecvMem C A lo take e mem ((List.range take).map bit)
      = (e.advance take gate bit, write mem (A.out + lo) take fun i => (gate i).out) := by
  intro gate
  obtain ⟨ha, hb⟩ := apart_wave hA hbound
  set cots := write mem (A.out + lo) take fun i => C.cotVer (e.drawn + i) with hcots
  set slots := (List.range take).foldl (fun (slots : ℕ → GateSlot) i =>
    Function.update slots (e.checkCnt + i)
      { slots (e.checkCnt + i) with bit := ((List.range take).map bit).getD i false }) e.slots
    with hslots
  have hbit : ∀ i < take, (slots (e.checkCnt + i)).bit = bit i := fun i hi => by
    rw [hslots, foldl_receive, write_of_lt hi, getD_map_range _ hi]
  have hother : ∀ gate, write slots e.checkCnt take gate = write e.slots e.checkCnt take gate :=
    fun gate => by rw [hslots, foldl_receive, write_write]
  have hloop : (C.orderVer take).foldl (fun s i => workRecv C A e.checkCnt lo i s) (cots, slots)
      = (write mem (A.out + lo) take fun i => (gate i).out,
        write e.slots e.checkCnt take gate) := by
    refine (foldl_inPlace (fun i (slots : ℕ → GateSlot) => slots (e.checkCnt + i))
      (fun i g slots => Function.update slots (e.checkCnt + i) g) GateSlot.out
      (fun out l r slot => ⟨l, r, clearLsb (xorDeltaIf C.delta out slot.bit), slot.bit⟩)
      (fun i hi j hj _ => ha i hi j hj) (fun i hi j hj _ => hb i hi j hj)
      (fun i j g s => update_slots g s) (fun i j g g' s => update_slots_comm g g' s)
      horder cots slots).trans ?_
    have hgate : ∀ i < take, (⟨cots (A.a + lo + i), cots (A.b + lo + i),
        clearLsb (xorDeltaIf C.delta (cots (A.out + lo + i)) (slots (e.checkCnt + i)).bit),
        (slots (e.checkCnt + i)).bit⟩ : GateSlot) = gate i := by
      intro i hi
      simp only [hcots, write_of_lt hi, write_of_ne (ha i hi), write_of_ne (hb i hi), hbit i hi,
        gate, gateRecv]
    rw [foldl_update, hcots, write_write, ← hcots, hother, write_congr hgate,
      write_congr fun i hi => congrArg GateSlot.out (hgate i hi)]
  simp only [waveRecvMem, ← hcots, ← hslots, hloop, advance, List.map_map]
  rfl

end Wave

end ZKBool

namespace AndRun

open ZKBool

variable (C : BoolConfig) (P V : AndArrays)

/-- What the gates from `lo` on do, `n` of them. -/
def done (lo n : ℕ) (x : AndRun) : AndRun :=
  let send := gateSend C P lo x.session.prover x.memPrv
  let recv := gateRecv C V lo x.session.verifier x.memVer fun i => (send i).bit
  { x with
    session := { x.session with
      prover := x.session.prover.advance n send fun i => (send i).bit
      verifier := x.session.verifier.advance n recv fun i => (send i).bit }
    memPrv := write x.memPrv (P.out + lo) n fun i => (send i).out
    memVer := write x.memVer (V.out + lo) n fun i => (recv i).out
    usesPrv := x.usesPrv ++
      (List.range n).map fun i => (x.session.prover.drawn + i, .gate (lo + i))
    usesVer := x.usesVer ++
      (List.range n).map fun i => (x.session.verifier.drawn + i, .gate (lo + i)) }

variable {C P V} {bound lo : ℕ} (hP : P.Apart bound) (hV : V.Apart bound)
include hP hV

/-- **A wave**, on both sides. -/
theorem wave_eq {take : ℕ} (hprv : (C.orderPrv take).Perm (List.range take))
    (hver : (C.orderVer take).Perm (List.range take)) (hbound : lo + take ≤ bound) (x : AndRun) :
    wave C P V lo take x = done C P V lo take x := by
  simp only [wave, waveSendMem_eq hP hbound hprv, waveRecvMem_eq hV hbound hver]
  rfl

/-- **Gates one by one**, when there is room.  The induction is on the gates done. -/
theorem items_eq {n : ℕ} (hbound : lo + n ≤ bound) (x : AndRun) :
    forgetBits ((machine C P V).items lo n x) = forgetBits (done C P V lo n x) := by
  induction n with
  | zero =>
    simp [Machine.items, done, advance]
  | succ n ih =>
    rw [Machine.items_succ]
    show forgetBits (item C P V (lo + n) _) = _
    rw [← item_forgetBits, ih (by omega), item_forgetBits]
    obtain ⟨hsend, hsend'⟩ := authComputeAndSend_advance (C := C) P lo n x.session.prover x.memPrv
    obtain ⟨hrecv, hrecv'⟩ := authComputeAndRecv_advance (C := C) V lo n x.session.verifier x.memVer
      fun i => (gateSend C P lo x.session.prover x.memPrv i).bit
    -- the gate finds its inputs as they were
    have hread : ∀ {A : AndArrays}, A.Apart bound → ∀ mem v : ℕ → Block,
        write mem (A.out + lo) n v (A.a + lo + n) = mem (A.a + lo + n) ∧
          write mem (A.out + lo) n v (A.b + lo + n) = mem (A.b + lo + n) := fun hA mem v => by
      obtain ⟨ha, hb⟩ := apart_wave hA hbound
      exact ⟨write_of_ne fun i hi => ha n (by omega) i (by omega),
        write_of_ne fun i hi => hb n (by omega) i (by omega)⟩
    simp only [item, done, BoolSession.andSlot, forgetBits, ← Nat.add_assoc, hread hP, hread hV,
      hsend', hrecv', hsend, hrecv, write_succ, List.range_succ, List.map_append, List.map_cons,
      List.map_nil, List.append_assoc]
    rfl

end AndRun

/-! ## Calls of both kinds -/

namespace AndRun

variable {C : BoolConfig} {P V : AndArrays} {x y : AndRun}

/-- The parties are at the same place in the batch. -/
def InStep (C : BoolConfig) (x : AndRun) : Prop :=
  x.session.prover.checkCnt = x.session.verifier.checkCnt ∧ x.session.prover.checkCnt ≤ C.checkSz

theorem ready_session (x : AndRun) :
    (ready C x).map AndRun.session = BoolSession.ready C x.session := by
  rw [ready, Option.map_map]
  refine Eq.trans (congrArg (Option.map · _) (funext fun s => ?_)) Option.map_id'
  simp only [Function.comp_apply, apply_ite AndRun.session, ite_self]

/-- Making room makes room. -/
theorem ready_lt (hsz : 0 < C.checkSz) (hx : InStep C x) (hy : ready C x = some y) :
    InStep C y ∧ y.session.prover.checkCnt < C.checkSz := by
  obtain ⟨hcnt, hle⟩ := hx
  have hs : BoolSession.ready C x.session = some y.session := by
    rw [← ready_session, hy, Option.map_some]
  rw [BoolSession.ready] at hs
  by_cases hfull : x.session.prover.checkCnt = C.checkSz
  · rw [if_pos ⟨hfull, hcnt ▸ hfull⟩] at hs
    obtain ⟨t, -, ht⟩ := Option.map_eq_some_iff.mp hs
    rw [InStep, ← ht]
    exact ⟨⟨rfl, Nat.zero_le _⟩, hsz⟩
  · rw [if_neg fun h => hfull h.1, if_neg (by omega), Option.some_inj] at hs
    rw [InStep, ← hs]
    exact ⟨⟨hcnt, hle⟩, by omega⟩

/-- Where there is room, nothing happens. -/
theorem ready_of_lt (hx : InStep C x) (hlt : x.session.prover.checkCnt < C.checkSz) :
    ready C x = some x := by
  have hcnt := hx.1
  have hone : ¬ (x.session.prover.checkCnt = C.checkSz ∨
      x.session.verifier.checkCnt = C.checkSz) := by omega
  rw [ready, BoolSession.ready, if_neg fun h => hone (Or.inl h.1), if_neg hone, Option.map_some,
    if_neg hlt.ne]

/-- **Both kinds of calls** meet what the library asks for. -/
theorem machine_lawful {bound : ℕ} (hP : P.Apart bound) (hV : V.Apart bound)
    (hprv : ∀ n, (C.orderPrv n).Perm (List.range n))
    (hver : ∀ n, (C.orderVer n).Perm (List.range n)) (hsz : 0 < C.checkSz) :
    (machine C P V).Lawful (InStep C) forgetBits bound where
  ready_lt := ready_lt hsz
  ready_of_lt := ready_of_lt
  item i hx hlt := ⟨⟨congrArg (· + 1) hx.1, hlt⟩, rfl⟩
  inv_erase {x y} h hx := by
    have hp := congrArg (fun z : AndRun => z.session.prover.checkCnt) h
    have hv := congrArg (fun z : AndRun => z.session.verifier.checkCnt) h
    exact ⟨hp.symm.trans (hx.1.trans hv), hp.symm.trans_le hx.2⟩
  ready_erase := ready_forgetBits
  item_erase := item_forgetBits
  wave {x} lo take _ _ hbound := by
    show forgetBits (wave C P V lo take x) = _
    rw [wave_eq hP hV (hprv take) (hver take) hbound, items_eq hP hV hbound]

/-- **The vectorized AND is the scalar one.**  The gates of the arrays `P` of the prover and `V` of
the verifier, whose outputs do not alias the inputs, are done by any sequence of scalar and
vectorized calls, from any fill of the batch and any buffers, with any orders of the workers.  Up to
`and_bits_` the two parties are in the state that scalar calls leave: the wires in memory, the
buffers, the transcript with every masking bit and every block of a check in its place, the COTs
drawn and what each was for, and what each check saw.  If a check fails, it does in either. -/
theorem vectorized_and_eq_scalar (hprv : ∀ n, (C.orderPrv n).Perm (List.range n))
    (hver : ∀ n, (C.orderVer n).Perm (List.range n)) (hsz : 0 < C.checkSz) (calls : List Call)
    (hP : P.Apart (Call.total calls)) (hV : V.Apart (Call.total calls)) (x : AndRun)
    (hcnt : x.session.prover.checkCnt = x.session.verifier.checkCnt)
    (hle : x.session.prover.checkCnt ≤ C.checkSz) :
    ((machine C P V).calls 0 calls x).map forgetBits
      = ((machine C P V).scalar 0 (Call.total calls) x).map forgetBits :=
  (machine_lawful hP hV hprv hver hsz).calls_eq_scalar ⟨hcnt, hle⟩ (Nat.zero_add _).le

/-- Three gates at once and one more, in batches of two with one place taken: two checks fall into
the first call. -/
theorem vectorized_and_eq_scalar_three :
    let P : AndArrays := ⟨100, 0, 10⟩
    let V : AndArrays := ⟨50, 0, 20⟩
    let e := { ZKBool.init with checkCnt := 1 }
    let x : AndRun := ⟨{ BoolSession.init with prover := e, verifier := e }, fun _ => 7, fun _ => 4,
      [], [], []⟩
    ((machine BoolSession.smallConfig P V).calls 0 [.vector 3, .scalar] x).map forgetBits
      = ((machine BoolSession.smallConfig P V).scalar 0 4 x).map forgetBits := by
  intro P V e x
  exact vectorized_and_eq_scalar BoolSession.smallConfig_valid.orderPrv
    BoolSession.smallConfig_valid.orderVer (by decide) [.vector 3, .scalar]
    (by unfold AndArrays.Apart; decide) (by unfold AndArrays.Apart; decide) x rfl (by decide)

end AndRun

end VoleZk
