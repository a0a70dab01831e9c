import VoleZk.Lib.Runs
import VoleZk.Lib.Staging
import Mathlib.Logic.Function.Basic

/-!
# The bit channel

`BoolIO` wraps a byte channel for the Boolean engine.  Single bits are staged in a buffer of `S`
bools, which the inner channel packs with `send_bool` and unpacks with `recv_bool`; byte messages go
to the inner channel directly, behind the staged bits.  The sending and the receiving side keep
different cursors: an empty buffer is `ptr = 0` on one side and `ptr = S` on the other.

The inner channel is not in this repository.  It keeps the bytes of each direction in order, and
its `send_bool` and `recv_bool` are a `Packing`.  Its Fiat–Shamir digest is a function of the
bytes it has carried, in both directions, and so `BoolIO` keeps these.

## What is here

* `BoolIO` and its operations;
* `BitStream.step` — the two parties, each at its own position of the same list of operations, with
  bytes on their way in between; `recv_data_internal` flushes before it waits;
* `BoolIO.SenderOk`, `BoolIO.ReceiverOk` — where a party is on the wire that `Staging` describes;
* `BitStream.step_inv` — every step keeps them;
* `BitStream.exists_run_through` — every session comes to its end;
* `BitStream.in_step` — **every bit and every message arrives as it was sent, both inner
  channels carry the same bytes, and nobody waits for ever.**
-/

set_option autoImplicit false

namespace VoleZk

open Staging

/-- `BoolIO`, with the bytes its inner channel has carried. -/
structure BoolIO where
  /-- The bytes carried, each with the side that sent it. -/
  io : List (Bool × UInt8)
  /-- The staged bits. -/
  buf : ℕ → Bool
  /-- The cursor. -/
  ptr : ℕ
  /-- The side that sends bits. -/
  sender : Bool

namespace BoolIO

variable {S : ℕ} (P : Packing S)

/-- The constructor; nothing is known of the buffer. -/
def new (S : ℕ) (buf : ℕ → Bool) (sender : Bool) : BoolIO where
  io := []
  buf := buf
  ptr := if sender then 0 else S
  sender := sender

/-- `io->send_data`. -/
def ioSend (b : BoolIO) (data : List UInt8) : BoolIO := { b with io := b.io ++ tag b.sender data }

/-- `io->recv_data` of `n` bytes: `none` while it blocks. -/
def ioRecv (b : BoolIO) (inbound : List UInt8) (n : ℕ) : Option (List UInt8 × BoolIO) :=
  if n ≤ inbound.length then
    some (inbound.take n, { b with io := b.io ++ tag (!b.sender) (inbound.take n) })
  else none

/-- `send_bit`. -/
def sendBit (b : BoolIO) (data : Bool) : BoolIO :=
  let b := { b with buf := Function.update b.buf b.ptr data, ptr := b.ptr + 1 }
  if b.ptr = S then { ioSend b (P.pack ((List.range S).map b.buf)) with ptr := 0 } else b

/-- `recv_bit`. -/
def recvBit (b : BoolIO) (inbound : List UInt8) : Option (Bool × BoolIO) :=
  if b.ptr = S then
    (b.ioRecv inbound P.bytes).map fun r =>
      let bits := P.unpack r.1
      let b := { r.2 with buf := fun i => bits.getD i (r.2.buf i), ptr := 0 }
      (b.buf b.ptr, { b with ptr := b.ptr + 1 })
  else some (b.buf b.ptr, { b with ptr := b.ptr + 1 })

/-- The loop of `flush`, which runs at most `S` times. -/
def padLoop : ℕ → BoolIO → BoolIO
  | 0, b => b
  | fuel + 1, b => if b.ptr ≠ 0 then padLoop fuel (b.sendBit P true) else b

/-- `flush`.  `io->flush` carries no byte. -/
def flush (b : BoolIO) : BoolIO :=
  if b.sender then if b.ptr ≠ 0 then padLoop P S b else b else { b with ptr := S }

/-- `send_data_internal`. -/
def sendData (b : BoolIO) (data : List UInt8) : BoolIO :=
  ioSend (if b.ptr ≠ 0 then b.flush P else b) data

/-- The first statement of `recv_data_internal`; the second one is `ioRecv`. -/
def recvFlush (b : BoolIO) : BoolIO := if b.ptr ≠ S then b.flush P else b

end BoolIO

/-! ## The two sides -/

/-- One side: how far it is in the operations, and what it received. -/
structure BitSide where
  /-- Its channel. -/
  io : BoolIO
  /-- The operations it is through with. -/
  pos : ℕ := 0
  /-- In `recv_data_internal`, behind its flush. -/
  receiving : Bool := false
  /-- The bits and messages received. -/
  got : List (Bool ⊕ List UInt8) := []

namespace BitSide

variable {S : ℕ} (P : Packing S)

/-- The next step of a side, with the bytes that are on their way to it: `none` while it blocks,
and when it is through. -/
def step (ops : List Op) (x : BitSide) (inbound : List UInt8) : Option BitSide :=
  match ops[x.pos]? with
  | none => none
  | some (.bit b) =>
    if x.io.sender then some { x with io := x.io.sendBit P b, pos := x.pos + 1 }
    else (x.io.recvBit P inbound).map fun r =>
      { x with io := r.2, pos := x.pos + 1, got := x.got ++ [.inl r.1] }
  | some (.message fromSender data) =>
    if fromSender = x.io.sender then
      some { x with io := x.io.sendData P data, pos := x.pos + 1 }
    else if x.receiving then
      (x.io.ioRecv inbound data.length).map fun r =>
        { io := r.2, pos := x.pos + 1, receiving := false, got := x.got ++ [.inr r.1] }
    else some { x with io := x.io.recvFlush P, receiving := true }
  | some .flush => some { x with io := x.io.flush P, pos := x.pos + 1 }

/-- What a side is to receive from an operation. -/
def due (sender : Bool) : Op → Option (Bool ⊕ List UInt8)
  | .bit b => if sender then none else some (.inl b)
  | .message fromSender data => if fromSender = sender then none else some (.inr data)
  | .flush => none

end BitSide

namespace BitStream

variable {S : ℕ} (P : Packing S)

/-- Both sides; `true` is the sending one. -/
abbrev State : Type := Bool → BitSide

/-- The bytes on their way to side `X`. -/
def inbound (s : State) (X : Bool) : List UInt8 :=
  (bytesFrom (!X) (s !X).io.io).drop (bytesFrom (!X) (s X).io.io).length

/-- One step of one side. -/
def step (ops : List Op) (s : State) (X : Bool) : Option State :=
  ((s X).step P ops (inbound s X)).map (Function.update s X)

/-- The start. -/
def init (S : ℕ) (buf : Bool → ℕ → Bool) : State := fun X => { io := BoolIO.new S (buf X) X }

end BitStream

/-! ## The inner channel's own packing -/

/-- Eight bools as a byte, the first one lowest. -/
def byteOf (bs : List Bool) : UInt8 := UInt8.ofNat (Nat.ofBits fun i : Fin 8 => bs.getD i false)

/-- `send_bool`: `n` groups of eight bools, and what is left over one a byte. -/
def sendBool : ℕ → List Bool → List UInt8
  | 0, bs => bs.map fun b => if b then 1 else 0
  | n + 1, bs => byteOf (bs.take 8) :: sendBool n (bs.drop 8)

/-- `recv_bool`. -/
def recvBool : ℕ → List UInt8 → List Bool
  | 0, xs => xs.map (· != 0)
  | _ + 1, [] => []
  | n + 1, x :: xs => (List.range 8).map x.toNat.testBit ++ recvBool n xs

theorem testBit_byteOf {bs : List Bool} (h : bs.length = 8) :
    (List.range 8).map (byteOf bs).toNat.testBit = bs := by
  refine List.ext_getElem (by rw [List.length_map, List.length_range, h]) fun i hi hi' => ?_
  have hlt : Nat.ofBits (fun i : Fin 8 => bs.getD i false) < 2 ^ 8 := Nat.ofBits_lt_two_pow _
  rw [List.getElem_map, List.getElem_range, byteOf, UInt8.toNat_ofNat', Nat.mod_eq_of_lt hlt,
    Nat.testBit_ofBits_lt _ _ (h ▸ hi'), List.getD_eq_getElem?_getD, List.getElem?_eq_getElem hi',
    Option.getD_some]

theorem length_sendBool (n : ℕ) (bs : List Bool) (h : 8 * n ≤ bs.length) :
    (sendBool n bs).length = n + (bs.length - 8 * n) := by
  induction n generalizing bs with
  | zero => rw [sendBool, List.length_map, Nat.zero_add, Nat.mul_zero, Nat.sub_zero]
  | succ n ih =>
    have hle : 8 * n ≤ (bs.drop 8).length := by
      rw [List.length_drop]
      omega
    rw [sendBool, List.length_cons, ih _ hle, List.length_drop]
    omega

theorem recvBool_sendBool (n : ℕ) (bs : List Bool) (h : 8 * n ≤ bs.length) :
    recvBool n (sendBool n bs) = bs := by
  induction n generalizing bs with
  | zero =>
    rw [sendBool, recvBool, List.map_map]
    refine (List.map_congr_left fun b _ => ?_).trans (List.map_id bs)
    cases b <;> rfl
  | succ n ih =>
    have hle : 8 * n ≤ (bs.drop 8).length := by
      rw [List.length_drop]
      omega
    rw [sendBool, recvBool, testBit_byteOf (List.length_take_of_le (by omega)), ih _ hle,
      List.take_append_drop]

/-- The packing of the inner channel. -/
def boolPacking (S : ℕ) : Packing S where
  bytes := S / 8 + (S - 8 * (S / 8))
  pack := sendBool (S / 8)
  unpack := recvBool (S / 8)
  length_pack h := by rw [length_sendBool _ _ (h ▸ Nat.mul_div_le _ _), h]
  unpack_pack h := recvBool_sendBool _ _ (h ▸ Nat.mul_div_le _ _)

/-! ## The sending side -/

namespace BoolIO

variable {S : ℕ} (P : Packing S) {b : BoolIO}

/-- The staged bits of the sending side. -/
def staged (b : BoolIO) : List Bool := (List.range b.ptr).map b.buf

@[simp] theorem length_staged (b : BoolIO) : b.staged.length = b.ptr := by
  rw [staged, List.length_map, List.length_range]

theorem staged_eq_nil : b.staged = [] ↔ b.ptr = 0 := by
  rw [← List.length_eq_zero_iff, length_staged]

theorem map_range_update (buf : ℕ → Bool) (n : ℕ) (data : Bool) :
    (List.range (n + 1)).map (Function.update buf n data) = (List.range n).map buf ++ [data] := by
  rw [List.range_succ, List.map_append, List.map_singleton, Function.update_self]
  congr 1
  refine List.map_congr_left fun i hi => Function.update_of_ne ?_ _ _
  exact (List.mem_range.mp hi).ne

/-- What an operation does to the sending side. -/
structure Sends (b : BoolIO) (left : List Bool) (out : List (Bool × UInt8)) (b' : BoolIO) :
    Prop where
  staged : b'.staged = left
  io : b'.io = b.io ++ out
  sender : b'.sender = true

theorem sendBit_sends (hb : b.sender = true) (data : Bool) :
    Sends b (pend S b.staged (.bit data)) (emit P b.staged (.bit data)) (b.sendBit P data) := by
  rw [pend, emit, length_staged, sendBit]
  dsimp only
  split_ifs with h
  · refine ⟨rfl, ?_, hb⟩
    show b.io ++ tag b.sender (P.pack ((List.range S).map _)) = _
    have hblk : (List.range S).map (Function.update b.buf b.ptr data) = b.staged ++ [data] := by
      rw [← h]
      exact map_range_update _ _ _
    rw [hblk, hb]
  · exact ⟨map_range_update _ _ _, (List.append_nil _).symm, hb⟩

theorem padLoop_sends {fuel : ℕ} (hb : b.sender = true) (h0 : b.ptr ≠ 0) (hlt : b.ptr < S)
    (hfuel : S - b.ptr ≤ fuel) : Sends b [] (tag true (pad P b.staged)) (padLoop P fuel b) := by
  have hne : b.staged ≠ [] := staged_eq_nil.not.mpr h0
  induction fuel generalizing b with
  | zero => exact absurd hfuel (by omega)
  | succ fuel ih =>
    rw [padLoop, if_pos h0]
    obtain ⟨hstaged, hio, hsender⟩ := sendBit_sends P hb true
    rw [pend, length_staged] at hstaged
    rw [emit, length_staged] at hio
    by_cases hfull : b.ptr + 1 = S
    · -- the block is complete, and the loop is through
      rw [if_pos hfull] at hstaged hio
      have hdone : padLoop P fuel (b.sendBit P true) = b.sendBit P true := by
        cases fuel with
        | zero => rfl
        | succ fuel => rw [padLoop, if_neg (not_not.mpr (staged_eq_nil.mp hstaged))]
      rw [hdone, pad_eq_pack P hne (by rwa [length_staged])]
      exact ⟨hstaged, hio, hsender⟩
    · rw [if_neg hfull] at hstaged hio
      have hptr : (b.sendBit P true).ptr = b.ptr + 1 := by
        rw [← length_staged, hstaged, List.length_append, List.length_singleton, length_staged]
      have hrest := ih hsender (by rw [hptr]; exact Nat.succ_ne_zero _)
        (by rw [hptr]; exact lt_of_le_of_ne hlt hfull) (by rw [hptr]; omega)
        (by rw [hstaged]; exact List.append_ne_nil_of_left_ne_nil hne _)
      rw [hstaged, pad_snoc P hne (by rw [length_staged]; exact lt_of_le_of_ne hlt hfull)] at hrest
      exact ⟨hrest.staged, by rw [hrest.io, hio, List.append_nil], hrest.sender⟩

theorem flush_sends (hb : b.sender = true) (hlt : b.ptr < S) :
    Sends b [] (tag true (pad P b.staged)) (b.flush P) := by
  rw [flush, if_pos hb]
  split_ifs with h0
  · exact padLoop_sends P hb h0 hlt (Nat.sub_le _ _)
  · have hnil : b.staged = [] := staged_eq_nil.mpr (not_not.mp h0)
    exact ⟨hnil, by rw [hnil, pad_nil, tag_nil, List.append_nil], hb⟩

theorem sendData_sends (hb : b.sender = true) (hlt : b.ptr < S) (data : List UInt8) :
    Sends b [] (emit P b.staged (.message true data)) (b.sendData P data) := by
  have hflush : Sends b [] (tag true (pad P b.staged)) (if b.ptr ≠ 0 then b.flush P else b) := by
    split_ifs with h0
    · exact flush_sends P hb hlt
    · have hnil : b.staged = [] := staged_eq_nil.mpr (not_not.mp h0)
      exact ⟨hnil, by rw [hnil, pad_nil, tag_nil, List.append_nil], hb⟩
  obtain ⟨hstaged, hio, hsender⟩ := hflush
  refine ⟨hstaged, ?_, hsender⟩
  rw [sendData, ioSend, hio, hsender, emit, List.append_assoc]

/-- The sending side never has `ptr = S`, and always flushes before it receives. -/
theorem recvFlush_sends (hb : b.sender = true) (hlt : b.ptr < S) :
    Sends b [] (tag true (pad P b.staged)) (b.recvFlush P) := by
  rw [recvFlush, if_pos hlt.ne]
  exact flush_sends P hb hlt

/-- What `io->recv_data` returns. -/
theorem ioRecv_eq_some {inbound : List UInt8} {n : ℕ} {r : List UInt8 × BoolIO} :
    b.ioRecv inbound n = some r ↔ n ≤ inbound.length ∧
      r = (inbound.take n, { b with io := b.io ++ tag (!b.sender) (inbound.take n) }) := by
  rw [ioRecv]
  split_ifs with h
  · rw [Option.some_inj, eq_comm]
    exact (and_iff_right h).symm
  · refine ⟨fun hr => ?_, fun hr => absurd hr.1 h⟩
    cases hr

end BoolIO

namespace BitSide

open BoolIO

variable {S : ℕ} (P : Packing S) {ops : List Op} {op : Op} {x x' : BitSide}

theorem due_take_succ (X : Bool) {k : ℕ} (h : ops[k]? = some op) :
    (ops.take (k + 1)).filterMap (due X)
      = (ops.take k).filterMap (due X) ++ (due X op).toList := by
  rw [List.take_add_one, h, Option.toList_some, List.filterMap_append, List.filterMap_cons,
    List.filterMap_nil]
  cases due X op <;> rfl

/-- Where the sending side is on the wire. -/
structure SenderOk (ops : List Op) (x : BitSide) : Prop where
  sender : x.io.sender = true
  pos_le : x.pos ≤ ops.length
  staged : x.io.staged = if x.receiving then [] else pendingAt S ops x.pos
  io : x.io.io = wireTo P ops x.pos
    ++ if x.receiving then tag true (pad P (pendingAt S ops x.pos)) else []
  op : x.receiving = true → ∃ data, ops[x.pos]? = some (.message false data)
  got : x.got = (ops.take x.pos).filterMap (due true)

theorem SenderOk.ptr_lt (h : SenderOk P ops x) (hS : 0 < S) : x.io.ptr < S := by
  rw [← length_staged, h.staged]
  split_ifs
  · exact hS
  · exact pendingAt_length_lt hS ops _

theorem SenderOk.io_seen (h : SenderOk P ops x) : x.io.io <+: wire P [] ops := by
  rw [h.io]
  split_ifs with hr
  · obtain ⟨data, hop⟩ := h.op hr
    rw [wire_eq_emit P hop, emit, List.append_assoc]
    exact (List.prefix_append_right_inj _).mpr (List.prefix_append _ _)
  · rw [List.append_nil]
    exact wireTo_prefix P ops _

/-- The sending side goes on to the next operation. -/
theorem SenderOk.next (h : SenderOk P ops x) (hop : ops[x.pos]? = some op)
    (hreceiving : x'.receiving = false) (hpos : x'.pos = x.pos + 1)
    (hgot : x'.got = x.got ++ (due true op).toList) (hsender : x'.io.sender = true)
    (hstaged : x'.io.staged = pend S (pendingAt S ops x.pos) op)
    (hio : x'.io.io = wireTo P ops x.pos ++ emit P (pendingAt S ops x.pos) op) :
    SenderOk P ops x' where
  sender := hsender
  pos_le := by
    rw [hpos]
    exact (List.getElem?_eq_some_iff.mp hop).1
  staged := by
    rw [hreceiving, hpos, pendingAt_succ hop, hstaged]
    rfl
  io := by
    rw [hreceiving, hpos, wireTo_succ P hop, hio]
    exact (List.append_nil _).symm
  op hr := by
    rw [hreceiving] at hr
    cases hr
  got := by rw [hgot, h.got, hpos, due_take_succ true hop]

theorem SenderOk.idle (h : SenderOk P ops x) (hr : x.receiving = false) :
    x.io.staged = pendingAt S ops x.pos ∧ x.io.io = wireTo P ops x.pos := by
  have hstaged := h.staged
  have hio := h.io
  rw [hr] at hstaged hio
  exact ⟨hstaged, hio.trans (List.append_nil _)⟩

/-- An operation in which the sending side receives nothing. -/
theorem SenderOk.next_of_sends (h : SenderOk P ops x) (hop : ops[x.pos]? = some op)
    (hr : x.receiving = false) (hdue : due true op = none) {b : BoolIO}
    (hs : Sends x.io (pend S x.io.staged op) (emit P x.io.staged op) b) :
    SenderOk P ops { x with io := b, pos := x.pos + 1 } := by
  obtain ⟨hstaged, hio⟩ := h.idle P hr
  rw [hstaged] at hs
  refine h.next P hop hr rfl ?_ hs.sender hs.staged ?_
  · rw [hdue]
    exact (List.append_nil _).symm
  · rw [← hio]
    exact hs.io

theorem SenderOk.step (hS : 0 < S) (h : SenderOk P ops x) {ys : List (Bool × UInt8)}
    (hys : ys <+: wire P [] ops)
    (hstep : x.step P ops ((bytesFrom false ys).drop (bytesFrom false x.io.io).length) = some x') :
    SenderOk P ops x' := by
  have hlt := h.ptr_lt P hS
  rw [BitSide.step] at hstep
  cases hop : ops[x.pos]? with
  | none =>
    rw [hop] at hstep
    cases hstep
  | some op =>
    rw [hop] at hstep
    -- a side that waits for a message has its operation fixed
    have hidle : (∀ data, op ≠ .message false data) → x.receiving = false := fun hne => by
      rw [Bool.eq_false_iff]
      intro hr
      obtain ⟨data, hdata⟩ := h.op hr
      exact hne data (Option.some_inj.mp (hop.symm.trans hdata))
    cases op with
    | bit d =>
      simp only [h.sender, if_true, Option.some_inj] at hstep
      exact hstep ▸ h.next_of_sends P hop (hidle fun data => Op.noConfusion) rfl
        (sendBit_sends P h.sender d)
    | message fromSender data =>
      simp only [h.sender] at hstep
      split_ifs at hstep with hfrom hr
      · simp only [Option.some_inj] at hstep
        subst hfrom
        exact hstep ▸ h.next_of_sends P hop (hidle fun data' heq => by cases heq) rfl
          (sendData_sends P h.sender hlt data)
      · -- the message is behind what the sending side flushed
        obtain rfl : fromSender = false := Bool.eq_false_iff.mpr hfrom
        obtain ⟨r, hrecv, rfl⟩ := Option.map_eq_some_iff.mp hstep
        obtain ⟨hlen, rfl⟩ := ioRecv_eq_some.mp hrecv
        have hstaged := h.staged
        have hio := h.io
        rw [if_pos hr] at hstaged hio
        have hw := wire_eq_emit P hop
        rw [emit, List.append_assoc, ← List.append_assoc, ← hio] at hw
        have htake := take_inbound hw hys hlen
        refine h.next P hop rfl rfl ?_ h.sender hstaged ?_
        · exact congrArg (fun d => x.got ++ [Sum.inr d]) htake
        · show x.io.io ++ tag (!x.io.sender) _ = _
          rw [htake, hio, h.sender, emit, List.append_assoc]
          rfl
      · obtain rfl : fromSender = false := Bool.eq_false_iff.mpr hfrom
        obtain ⟨hstaged, hio⟩ := h.idle P (Bool.eq_false_iff.mpr hr)
        simp only [Option.some_inj] at hstep
        subst hstep
        have hs := recvFlush_sends P h.sender hlt
        rw [hstaged] at hs
        refine ⟨hs.sender, h.pos_le, hs.staged, ?_, fun _ => ⟨data, hop⟩, h.got⟩
        rw [← hio]
        exact hs.io
    | flush =>
      simp only [Option.some_inj] at hstep
      exact hstep ▸ h.next_of_sends P hop (hidle fun data => Op.noConfusion) rfl
        (flush_sends P h.sender hlt)

/-! ## The receiving side -/

/-- Where the receiving side is on the wire: if bits are staged on the other side, this side holds
the block that they will be in. -/
structure ReceiverOk (ops : List Op) (x : BitSide) : Prop where
  sender : x.io.sender = false
  pos_le : x.pos ≤ ops.length
  ptr : x.io.ptr = if x.receiving = true ∨ pendingAt S ops x.pos = [] then S
    else (pendingAt S ops x.pos).length
  block : pendingAt S ops x.pos <+: (List.range S).map x.io.buf
  io : x.io.io = wireTo P ops x.pos ++ if pendingAt S ops x.pos = [] then []
    else tag true (P.pack ((List.range S).map x.io.buf))
  io_seen : x.io.io <+: wire P [] ops
  op : x.receiving = true → ∃ data, ops[x.pos]? = some (.message true data)
  got : x.got = (ops.take x.pos).filterMap (due false)

/-- Where the sending side completes its block, the receiving side has read it. -/
theorem ReceiverOk.io_eq (hS : 0 < S) (h : ReceiverOk P ops x) {rest : List (Bool × UInt8)}
    (hw : wire P [] ops
      = wireTo P ops x.pos ++ (tag true (pad P (pendingAt S ops x.pos)) ++ rest)) :
    x.io.io = wireTo P ops x.pos ++ tag true (pad P (pendingAt S ops x.pos)) := by
  have hseen := h.io_seen
  rw [h.io] at hseen ⊢
  split_ifs at hseen ⊢ with hp
  · rw [hp, pad_nil, tag_nil]
  · rw [hw, List.prefix_append_right_inj, pad, if_neg hp] at hseen
    rw [pad, if_neg hp, block_unique P ?_ ?_ hseen]
    · rw [List.length_map, List.length_range]
    · exact length_pad_le (pendingAt_length_lt hS ops _)

/-- The receiving side is through with a bit. -/
theorem ReceiverOk.next_bit (h : ReceiverOk P ops x) {d : Bool} (hop : ops[x.pos]? = some (.bit d))
    (hr : x.receiving = false) {b : BoolIO} (hsender : b.sender = false)
    (hptr : b.ptr = (pendingAt S ops x.pos).length + 1)
    (hblock : pendingAt S ops x.pos ++ [d] <+: (List.range S).map b.buf)
    (hio : b.io = wireTo P ops x.pos ++ tag true (P.pack ((List.range S).map b.buf)))
    (hseen : b.io <+: wire P [] ops) :
    ReceiverOk P ops { x with io := b, pos := x.pos + 1, got := x.got ++ [.inl d] } := by
  have hlen : (pendingAt S ops x.pos ++ [d]).length = (pendingAt S ops x.pos).length + 1 := by
    rw [List.length_append, List.length_singleton]
  have hwire := wireTo_succ P hop
  rw [emit] at hwire
  refine ⟨hsender, (List.getElem?_eq_some_iff.mp hop).1, ?_, ?_, ?_, hseen, fun hr' => ?_, ?_⟩
  · show b.ptr = if x.receiving = true ∨ pendingAt S ops (x.pos + 1) = [] then S
      else (pendingAt S ops (x.pos + 1)).length
    rw [hptr, pendingAt_succ hop, pend, hr]
    split_ifs with hfull <;> simp_all
  · show pendingAt S ops (x.pos + 1) <+: _
    rw [pendingAt_succ hop, pend]
    split_ifs with hfull
    · exact List.nil_prefix
    · exact hblock
  · show b.io = wireTo P ops (x.pos + 1) ++ if pendingAt S ops (x.pos + 1) = [] then [] else _
    rw [hio, hwire, pendingAt_succ hop, pend]
    split_ifs with hfull hnil hnil
    · -- the block is complete
      have heq := hblock.eq_of_length
        (by rw [hlen, hfull, List.length_map, List.length_range])
      rw [← heq, List.append_nil]
    · exact absurd rfl hnil
    · exact absurd hnil (List.append_ne_nil_of_right_ne_nil _ (List.cons_ne_nil _ _))
    · rw [List.append_nil]
  · rw [hr] at hr'
    cases hr'
  · show x.got ++ [Sum.inl d] = _
    rw [h.got, due_take_succ false hop]
    rfl

/-- The receiving side is through with an operation that leaves no bit staged. -/
theorem ReceiverOk.next_sync (h : ReceiverOk P ops x) (hop : ops[x.pos]? = some op)
    (hpend : pend S (pendingAt S ops x.pos) op = []) (hreceiving : x'.receiving = false)
    (hpos : x'.pos = x.pos + 1) (hgot : x'.got = x.got ++ (due false op).toList)
    (hsender : x'.io.sender = false) (hptr : x'.io.ptr = S)
    (hio : x'.io.io = wireTo P ops x.pos ++ emit P (pendingAt S ops x.pos) op) :
    ReceiverOk P ops x' := by
  have hnil : pendingAt S ops x'.pos = [] := by rw [hpos, pendingAt_succ hop, hpend]
  rw [← wireTo_succ P hop, ← hpos] at hio
  refine ⟨hsender, ?_, ?_, ?_, ?_, hio ▸ wireTo_prefix P ops _, fun hr => ?_, ?_⟩
  · rw [hpos]
    exact (List.getElem?_eq_some_iff.mp hop).1
  · rw [if_pos (.inr hnil), hptr]
  · rw [hnil]
    exact List.nil_prefix
  · rw [if_pos hnil, List.append_nil, hio]
  · rw [hreceiving] at hr
    cases hr
  · rw [hgot, h.got, hpos, due_take_succ false hop]

/-- Reading a block that has arrived. -/
theorem getD_map_range {blk : List Bool} (hblk : blk.length = S) (buf : ℕ → Bool) :
    ((List.range S).map fun i => blk.getD i (buf i)) = blk := by
  refine List.ext_getElem (by rw [List.length_map, List.length_range, hblk]) fun i hi hi' => ?_
  rw [List.getElem_map, List.getElem_range, List.getD_eq_getElem?_getD,
    List.getElem?_eq_getElem hi', Option.getD_some]

/-- The bit behind the staged ones, in a block that starts with all of them. -/
theorem bit_of_prefix {p : List Bool} {d : Bool} {buf : ℕ → Bool}
    (h : p ++ [d] <+: (List.range S).map buf) : buf p.length = d := by
  have hlen : p.length < (p ++ [d]).length := by
    rw [List.length_append, List.length_singleton]
    exact Nat.lt_succ_self _
  have hget := h.getElem hlen
  rw [List.getElem_map, List.getElem_range] at hget
  rw [← hget, List.getElem_append_right le_rfl]
  simp

theorem ReceiverOk.ptr_idle (h : ReceiverOk P ops x) (hr : x.receiving = false) :
    x.io.ptr = if pendingAt S ops x.pos = [] then S else (pendingAt S ops x.pos).length := by
  have hptr := h.ptr
  simpa only [hr, Bool.false_eq_true, false_or] using hptr

/-- The bits staged on the other side fill no block. -/
theorem ReceiverOk.ptr_ne (hS : 0 < S) (h : ReceiverOk P ops x) (hr : x.receiving = false)
    (hp : pendingAt S ops x.pos ≠ []) : x.io.ptr ≠ S := by
  rw [h.ptr_idle P hr, if_neg hp]
  exact (pendingAt_length_lt hS ops _).ne

theorem ReceiverOk.readBit (hS : 0 < S) (h : ReceiverOk P ops x) {d : Bool}
    (hop : ops[x.pos]? = some (.bit d)) (hr : x.receiving = false) {ys : List (Bool × UInt8)}
    (hys : ys <+: wire P [] ops) {r : Bool × BoolIO}
    (hrecv : x.io.recvBit P ((bytesFrom true ys).drop (bytesFrom true x.io.io).length) = some r) :
    ReceiverOk P ops { x with io := r.2, pos := x.pos + 1, got := x.got ++ [.inl r.1] } := by
  have hio := h.io
  have hptr := h.ptr_idle P hr
  rw [recvBit] at hrecv
  by_cases hp : pendingAt S ops x.pos = []
  · rw [if_pos hp, List.append_nil] at hio
    rw [if_pos hp] at hptr
    rw [if_pos hptr] at hrecv
    obtain ⟨r', hread, rfl⟩ := Option.map_eq_some_iff.mp hrecv
    obtain ⟨hlen, rfl⟩ := ioRecv_eq_some.mp hread
    rcases next_block P hS hop with ⟨hnone, -⟩ | ⟨blk, rest, hblk, hpre, hw⟩
    · -- nothing is to come
      have hle := (bytesFrom_isPrefix true hys).length_le
      rw [hnone, ← hio] at hle
      rw [List.length_drop, Nat.sub_eq_zero_of_le hle, Nat.le_zero] at hlen
      exact absurd hlen (P.bytes_pos hS).ne'
    · rw [← P.length_pack hblk] at hlen
      have htake := take_inbound (hio ▸ hw) hys hlen
      rw [P.length_pack hblk] at htake
      have hbuf := getD_map_range hblk x.io.buf
      have hbit := bit_of_prefix (hbuf.symm ▸ hpre)
      rw [hp, List.length_nil] at hbit
      dsimp only
      rw [htake, P.unpack_pack hblk, hbit]
      have hsender := h.sender
      refine h.next_bit P hop hr hsender ?_ ?_ ?_ ?_
      · rw [hp]
        rfl
      · exact hbuf.symm ▸ hpre
      · show x.io.io ++ tag (!x.io.sender) (P.pack blk) = _
        rw [hbuf, hsender, hio]
        rfl
      · show x.io.io ++ tag (!x.io.sender) (P.pack blk) <+: _
        rw [hsender, hio, hw, ← List.append_assoc]
        exact List.prefix_append _ _
  · rw [if_neg (h.ptr_ne P hS hr hp), Option.some_inj] at hrecv
    rw [if_neg hp] at hptr hio
    subst hrecv
    have hseen := h.io_seen
    -- the block read is the one that the bit is in
    have hpre : pendingAt S ops x.pos ++ [d] <+: (List.range S).map x.io.buf := by
      have hlen : ((List.range S).map x.io.buf).length = S := by
        rw [List.length_map, List.length_range]
      rcases next_block P hS hop with ⟨hnone, -⟩ | ⟨blk, rest, hblk, hpre, hw⟩
      · rw [hio, hnone] at hseen
        have hle := hseen.length_le
        rw [List.length_append, length_tag, P.length_pack hlen] at hle
        exact absurd (P.bytes_pos hS) (by omega)
      · rw [hio, hw, List.prefix_append_right_inj] at hseen
        rwa [block_unique P hlen hblk hseen]
    have hbit := bit_of_prefix hpre
    rw [hptr, hbit]
    exact h.next_bit P hop hr h.sender rfl hpre hio hseen

/-- On the receiving side a flush only drops what is left in the buffer. -/
theorem flush_of_receiver {b : BoolIO} (hb : b.sender = false) :
    b.flush P = { b with ptr := S } := by
  rw [flush, hb]
  rfl

/-- The receiving side is at the end of a block before it waits for a message. -/
theorem recvFlush_of_receiver {b : BoolIO} (hb : b.sender = false) :
    b.recvFlush P = { b with ptr := S } := by
  rw [recvFlush]
  split_ifs with h
  · exact flush_of_receiver P hb
  · rw [← not_not.mp h]

/-- A message that this side sends, after it has dropped the rest of its block. -/
theorem ReceiverOk.sendMessage (hS : 0 < S) (h : ReceiverOk P ops x) {data : List UInt8}
    (hop : ops[x.pos]? = some (.message false data)) (hr : x.receiving = false) :
    ReceiverOk P ops { x with io := x.io.sendData P data, pos := x.pos + 1 } := by
  have hsender := h.sender
  have hw := wire_eq_emit P hop
  rw [emit, List.append_assoc] at hw
  have hio := h.io_eq P hS hw
  have hflush : (if x.io.ptr ≠ 0 then x.io.flush P else x.io) = { x.io with ptr := S } := by
    rw [if_pos, flush_of_receiver P hsender]
    rw [h.ptr_idle P hr]
    split_ifs with hp
    · exact hS.ne'
    · exact (List.length_pos_iff.mpr hp).ne'
  refine h.next_sync P hop rfl hr rfl (List.append_nil _).symm ?_ ?_ ?_
  · rw [sendData, hflush]
    exact hsender
  · rw [sendData, hflush]
    rfl
  · rw [sendData, hflush]
    show x.io.io ++ tag x.io.sender data = _
    rw [hsender, hio, emit, List.append_assoc]

/-- A message that this side has waited for. -/
theorem ReceiverOk.readMessage (hS : 0 < S) (h : ReceiverOk P ops x) {data : List UInt8}
    (hop : ops[x.pos]? = some (.message true data)) (hr : x.receiving = true)
    {ys : List (Bool × UInt8)} (hys : ys <+: wire P [] ops) {r : List UInt8 × BoolIO}
    (hrecv : x.io.ioRecv ((bytesFrom true ys).drop (bytesFrom true x.io.io).length) data.length
      = some r) :
    ReceiverOk P ops
      { io := r.2, pos := x.pos + 1, receiving := false, got := x.got ++ [.inr r.1] } := by
  obtain ⟨hlen, rfl⟩ := ioRecv_eq_some.mp hrecv
  have hsender := h.sender
  have hw := wire_eq_emit P hop
  rw [emit, List.append_assoc] at hw
  have hio := h.io_eq P hS hw
  rw [← List.append_assoc, ← hio] at hw
  have htake := take_inbound hw hys hlen
  refine h.next_sync P hop rfl rfl rfl ?_ hsender ?_ ?_
  · exact congrArg (fun d => x.got ++ [Sum.inr d]) htake
  · show x.io.ptr = S
    rw [h.ptr, if_pos (.inl hr)]
  · show x.io.io ++ tag (!x.io.sender) _ = _
    rw [htake, hio, hsender, emit, List.append_assoc]
    rfl

theorem ReceiverOk.step (hS : 0 < S) (h : ReceiverOk P ops x) {ys : List (Bool × UInt8)}
    (hys : ys <+: wire P [] ops)
    (hstep : x.step P ops ((bytesFrom true ys).drop (bytesFrom true x.io.io).length) = some x') :
    ReceiverOk P ops x' := by
  have hsender := h.sender
  rw [BitSide.step] at hstep
  cases hop : ops[x.pos]? with
  | none =>
    rw [hop] at hstep
    cases hstep
  | some op =>
    rw [hop] at hstep
    have hidle : (∀ data, op ≠ .message true data) → x.receiving = false := fun hne => by
      rw [Bool.eq_false_iff]
      intro hr
      obtain ⟨data, hdata⟩ := h.op hr
      exact hne data (Option.some_inj.mp (hop.symm.trans hdata))
    cases op with
    | bit d =>
      simp only [hsender] at hstep
      obtain ⟨r, hrecv, rfl⟩ := Option.map_eq_some_iff.mp hstep
      exact h.readBit P hS hop (hidle fun data => Op.noConfusion) hys hrecv
    | message fromSender data =>
      rw [hsender] at hstep
      dsimp only at hstep
      split_ifs at hstep with hfrom hr
      · subst hfrom
        have hr := hidle fun data' heq => by cases heq
        simp only [Option.some_inj] at hstep
        exact hstep ▸ h.sendMessage P hS hop hr
      · obtain rfl : fromSender = true := eq_true_of_ne_false hfrom
        obtain ⟨r, hrecv, rfl⟩ := Option.map_eq_some_iff.mp hstep
        exact h.readMessage P hS hop hr hys hrecv
      · obtain rfl : fromSender = true := eq_true_of_ne_false hfrom
        simp only [Option.some_inj] at hstep
        subst hstep
        rw [recvFlush_of_receiver P hsender]
        exact ⟨hsender, h.pos_le, (if_pos (.inl rfl)).symm, h.block, h.io, h.io_seen,
          fun _ => ⟨data, hop⟩, h.got⟩
    | flush =>
      have hw := wire_eq_emit P hop
      rw [emit] at hw
      have hr := hidle fun data => Op.noConfusion
      simp only [Option.some_inj] at hstep
      subst hstep
      rw [flush_of_receiver P hsender]
      exact h.next_sync P hop rfl hr rfl (List.append_nil _).symm hsender rfl (h.io_eq P hS hw)

/-! ### Nobody waits for ever -/

/-- A side that is not waiting for bytes can go on. -/
theorem step_isSome {inbound : List UInt8} (hop : ops[x.pos]? = some op)
    (hbit : ∀ d, op = .bit d → x.io.sender = false → x.io.ptr = S → P.bytes ≤ inbound.length)
    (hmessage : ∀ data, op = .message (!x.io.sender) data → x.receiving = true →
      data.length ≤ inbound.length) : (x.step P ops inbound).isSome = true := by
  rw [BitSide.step, hop]
  cases op with
  | bit d =>
    cases hsender : x.io.sender with
    | true => simp
    | false =>
      simp only [Bool.false_eq_true, if_false]
      rw [Option.isSome_map, recvBit]
      split_ifs with hptr
      · rw [Option.isSome_map, ioRecv, if_pos (hbit d rfl hsender hptr)]
        rfl
      · rfl
  | message fromSender data =>
    dsimp only
    split_ifs with hfrom hr
    · rfl
    · obtain rfl : fromSender = !x.io.sender := (Bool.eq_not_of_ne hfrom)
      rw [Option.isSome_map, ioRecv, if_pos (hmessage data rfl hr)]
      rfl
    · rfl
  | flush => rfl

/-- What is on the way to a side is at least the block that the wire has next. -/
theorem length_le_inbound {d : Bool} {xs ys rest : List (Bool × UInt8)} {data : List UInt8}
    (hys : ys = xs ++ (tag d data ++ rest)) :
    data.length ≤ ((bytesFrom d ys).drop (bytesFrom d xs).length).length := by
  rw [hys, bytesFrom_append, List.drop_left, bytesFrom_append, bytesFrom_tag, List.length_append]
  exact Nat.le_add_right _ _

/-- If the other side has put on the wire all that belongs to a list of operations that leaves no
bit staged, then the receiving side gets through these operations. -/
theorem ReceiverOk.step_isSome (hS : 0 < S) (h : ReceiverOk P ops x) {ops' : List Op}
    (hop : ops[x.pos]? = some op) (hop' : ops'[x.pos]? = some op)
    (htake : ops'.take x.pos = ops.take x.pos) (hend : ops'.foldl (pend S) [] = []) :
    (x.step P ops ((bytesFrom true (wire P [] ops')).drop
      (bytesFrom true x.io.io).length)).isSome = true := by
  have hwireTo : wireTo P ops' x.pos = wireTo P ops x.pos := by rw [wireTo, htake, wireTo]
  have hpending : pendingAt S ops' x.pos = pendingAt S ops x.pos := by
    rw [pendingAt, htake, pendingAt]
  refine BitSide.step_isSome P hop (fun d hd _ hptr => ?_) fun data hdata _ => ?_
  · subst hd
    have hr : x.receiving = false := by
      rw [Bool.eq_false_iff]
      intro hr
      obtain ⟨data, hdata⟩ := h.op hr
      cases Option.some_inj.mp (hop.symm.trans hdata)
    have hp : pendingAt S ops x.pos = [] := of_not_not fun hp => h.ptr_ne P hS hr hp hptr
    have hio := h.io
    rw [if_pos hp, List.append_nil] at hio
    rcases next_block P hS hop' with ⟨-, hne⟩ | ⟨blk, rest, hblk, -, hw⟩
    · exact absurd hend hne
    · rw [hwireTo, ← hio] at hw
      rw [← P.length_pack hblk]
      exact length_le_inbound hw
  · rw [h.sender] at hdata
    subst hdata
    have hw := wire_eq_emit P hop
    have hw' := wire_eq_emit P hop'
    rw [emit, List.append_assoc] at hw
    rw [emit, hpending, hwireTo, List.append_assoc, ← List.append_assoc, ← h.io_eq P hS hw] at hw'
    exact length_le_inbound hw'

end BitSide

namespace BitStream

variable {S : ℕ} (P : Packing S) {ops : List Op} {s s' : State}

/-- Where both sides are. -/
structure Inv (ops : List Op) (s : State) : Prop where
  sender : (s true).SenderOk P ops
  receiver : (s false).ReceiverOk P ops

theorem init_inv (ops : List Op) (buf : Bool → ℕ → Bool) : Inv P ops (init S buf) where
  sender := ⟨rfl, Nat.zero_le _, rfl, rfl, nofun, rfl⟩
  receiver := ⟨rfl, Nat.zero_le _, (if_pos (.inr rfl)).symm, List.nil_prefix, rfl, List.nil_prefix,
    nofun, rfl⟩

/-- **Every step keeps both sides in step.** -/
theorem step_inv (hS : 0 < S) {X : Bool} (h : Inv P ops s) (hstep : step P ops s X = some s') :
    Inv P ops s' := by
  obtain ⟨x', hx, rfl⟩ := Option.map_eq_some_iff.mp hstep
  cases X with
  | true =>
    have hnew := h.sender.step P hS h.receiver.io_seen hx
    exact ⟨by rwa [Function.update_self],
      by rw [Function.update_of_ne Bool.false_ne_true]; exact h.receiver⟩
  | false =>
    have hnew := h.receiver.step P hS (h.sender.io_seen P) hx
    exact ⟨by rw [Function.update_of_ne Bool.false_ne_true.symm]; exact h.sender,
      by rwa [Function.update_self]⟩

theorem run_inv (hS : 0 < S) {buf : Bool → ℕ → Bool} {acts : List Bool}
    (h : Runs.run (step P ops) (init S buf) acts = some s) : Inv P ops s :=
  Runs.invariant_of_run (fun hinv hstep => step_inv P hS hinv hstep) (init_inv P ops buf) h

/-- After an operation that leaves no bit staged, both inner channels have carried the same. -/
theorem Inv.io_eq {t : State} (hs : Inv P ops s) (ht : Inv P ops t) {k : ℕ} {op : Op}
    (hop : ops[k]? = some op) (hbit : ∀ d, op ≠ .bit d) (hA : (s true).pos = k + 1)
    (hB : (t false).pos = k + 1) : (s true).io.io = (t false).io.io := by
  have hnil : pendingAt S ops (k + 1) = [] := by
    rw [pendingAt_succ hop]
    cases op with
    | bit d => exact absurd rfl (hbit d)
    | message d data => rfl
    | flush => rfl
  rw [hs.sender.io, ht.receiver.io, hA, hB, hnil, if_pos rfl, pad_nil, tag_nil, ite_self]

theorem step_eq_some {X : Bool} (h : ((s X).step P ops (inbound s X)).isSome = true) :
    ∃ X t, step P ops s X = some t := by
  obtain ⟨x', hx⟩ := Option.isSome_iff_exists.mp h
  exact ⟨X, _, Option.map_eq_some_iff.mpr ⟨x', hx, rfl⟩⟩

/-- The sending side is through, or waits for a message: the receiving side can go on, unless it is
ahead. -/
theorem Inv.receiver_isSome (hS : 0 < S) (h : Inv P ops s) {ops' : List Op}
    (hio : (s true).io.io = wire P [] ops') (hend : ops'.foldl (pend S) [] = []) {op : Op}
    (hop : ops[(s false).pos]? = some op) (hop' : ops'[(s false).pos]? = some op)
    (htake : ops'.take (s false).pos = ops.take (s false).pos) :
    ∃ X t, step P ops s X = some t := by
  have hstep := h.receiver.step_isSome P hS hop hop' htake hend
  rw [← hio] at hstep
  exact step_eq_some P hstep

/-- **Nobody waits for ever**: while a side is not through, some side can go on. -/
theorem Inv.exists_step (hS : 0 < S) (h : Inv P ops s) (hlast : ops.getLast? = some .flush)
    {Y : Bool} (hY : (s Y).pos ≠ ops.length) : ∃ X t, step P ops s X = some t := by
  obtain ⟨ops₀, hops⟩ := List.getLast?_eq_some_iff.mp hlast
  have hA := h.sender
  have hB := h.receiver
  rcases hA.pos_le.eq_or_lt with hfull | hlt
  · -- the sending side is through
    have hBlt : (s false).pos < ops.length := by
      cases Y with
      | true => exact absurd hfull hY
      | false => exact lt_of_le_of_ne hB.pos_le hY
    have hr : (s true).receiving = false := by
      rw [Bool.eq_false_iff]
      intro hr
      obtain ⟨data, hdata⟩ := hA.op hr
      exact absurd (List.getElem?_eq_some_iff.mp hdata).1 hfull.ge.not_gt
    have hio : (s true).io.io = wire P [] ops := by
      rw [(hA.idle P hr).2, wireTo, hfull, List.take_length]
    exact h.receiver_isSome P hS hio (hops ▸ foldl_pend_flush S ops₀)
      (List.getElem?_eq_getElem hBlt) (List.getElem?_eq_getElem hBlt) rfl
  · have hop := List.getElem?_eq_getElem hlt
    by_cases hready : ∀ data, ops[(s true).pos] = .message (!(s true).io.sender) data →
        (s true).receiving = true → data.length ≤ (inbound s true).length
    · refine step_eq_some P (X := true) (BitSide.step_isSome P hop (fun d _ hsender => ?_) hready)
      rw [hA.sender] at hsender
      cases hsender
    · push Not at hready
      obtain ⟨data, hdata, hr, hshort⟩ := hready
      rw [hA.sender, Bool.not_true] at hdata
      rw [hdata] at hop
      have hio := hA.io
      rw [if_pos hr] at hio
      rcases lt_trichotomy (s false).pos (s true).pos with hlt' | heq | hgt
      · -- all that the receiving side may wait for was flushed
        have hBlt := hlt'.trans hlt
        have htake : (ops.take (s true).pos).length = (s true).pos := List.length_take_of_le hlt.le
        refine h.receiver_isSome P hS (hio.trans (wire_take_flush P ops _).symm)
          (foldl_pend_flush S _) (List.getElem?_eq_getElem hBlt) ?_ ?_
        · rw [List.getElem?_append_left (htake.symm ▸ hlt'), List.getElem?_take_of_lt hlt',
            List.getElem?_eq_getElem hBlt]
        · rw [List.take_append_of_le_length (htake.symm ▸ hlt'.le), List.take_take,
            min_eq_left hlt'.le]
      · -- the receiving side is about to send the message
        refine step_eq_some P (X := false) (BitSide.step_isSome P (heq.symm ▸ hop) (fun d hd => ?_)
          fun data' hd => ?_)
        · cases hd
        · rw [hB.sender] at hd
          cases hd
      · -- the receiving side has sent the message
        have hpre : (s true).io.io ++ tag false data <+: (s false).io.io := by
          rw [hio, hB.io, List.append_assoc]
          refine List.IsPrefix.trans ?_ (List.prefix_append _ _)
          have hsucc := wireTo_succ P hop
          rw [emit] at hsucc
          exact hsucc ▸ wireTo_mono P ops hgt
        obtain ⟨rest, hrest⟩ := hpre
        rw [List.append_assoc] at hrest
        exact absurd (BitSide.length_le_inbound hrest.symm) hshort.not_ge

/-! ### Every session comes to its end -/

/-- How far a side is: a message that it receives takes two steps. -/
def progress (x : BitSide) : ℕ := 2 * x.pos + if x.receiving then 1 else 0

theorem progress_lt {x x' : BitSide} {inbound : List UInt8}
    (h : x.step P ops inbound = some x') : progress x < progress x' := by
  rw [BitSide.step] at h
  cases hop : ops[x.pos]? with
  | none =>
    rw [hop] at h
    cases h
  | some op =>
    rw [hop] at h
    cases op with
    | bit d =>
      dsimp only at h
      split_ifs at h
      · cases h
        simp [progress, Nat.mul_add]
      · obtain ⟨r, -, rfl⟩ := Option.map_eq_some_iff.mp h
        simp [progress, Nat.mul_add]
    | message fromSender data =>
      dsimp only at h
      split_ifs at h with hfrom hr
      · cases h
        simp [progress, Nat.mul_add]
      · obtain ⟨r, -, rfl⟩ := Option.map_eq_some_iff.mp h
        simp [progress, hr, Nat.mul_add]
      · cases h
        simp [progress, hr]
    | flush =>
      cases h
      simp [progress, Nat.mul_add]

theorem progress_le {x : BitSide} (hpos : x.pos ≤ ops.length) {d : Bool}
    (hop : x.receiving = true → ∃ data, ops[x.pos]? = some (.message d data)) :
    progress x ≤ 2 * ops.length := by
  rw [progress]
  split_ifs with hr
  · obtain ⟨data, hdata⟩ := hop hr
    have hlt := (List.getElem?_eq_some_iff.mp hdata).1
    omega
  · omega

/-- One step of either side. -/
theorem step_progress (hS : 0 < S) {X : Bool} (h : Inv P ops s)
    (hstep : step P ops s X = some s') : Inv P ops s' ∧
      progress (s true) + progress (s false) < progress (s' true) + progress (s' false) := by
  refine ⟨step_inv P hS h hstep, ?_⟩
  obtain ⟨x', hx, rfl⟩ := Option.map_eq_some_iff.mp hstep
  have hlt := progress_lt P hx
  cases X with
  | true =>
    rw [Function.update_self, Function.update_of_ne Bool.false_ne_true]
    omega
  | false =>
    rw [Function.update_self, Function.update_of_ne Bool.false_ne_true.symm]
    omega

theorem Inv.progress_le (h : Inv P ops s) :
    progress (s true) + progress (s false) ≤ 4 * ops.length := by
  have hA := BitStream.progress_le h.sender.pos_le h.sender.op
  have hB := BitStream.progress_le h.receiver.pos_le h.receiver.op
  omega

/-- **Every session comes to its end**: no run is longer than four steps for each operation, and
every run goes on to one in which both sides are through and have received all that was sent to
them. -/
theorem exists_run_through (hS : 0 < S) {ops : List Op} (hlast : ops.getLast? = some .flush)
    (buf : Bool → ℕ → Bool) {acts : List Bool}
    (hrun : Runs.run (step P ops) (init S buf) acts = some s) :
    acts.length ≤ 4 * ops.length ∧
      ∃ acts' s', Runs.run (step P ops) (init S buf) (acts ++ acts') = some s' ∧
        ∀ X, (s' X).pos = ops.length ∧ (s' X).got = ops.filterMap (BitSide.due X) := by
  have hstep : ∀ {s s' : State} {X : Bool}, Inv P ops s → step P ops s X = some s' → Inv P ops s' ∧
      progress (s true) + progress (s false) < progress (s' true) + progress (s' false) :=
    step_progress P hS
  have h := run_inv P hS hrun
  constructor
  · exact (Nat.le_add_left _ _).trans
      ((Runs.measure_add_length_le hstep (init_inv P ops buf) hrun).trans (h.progress_le P))
  · have hprogress : ∀ {s : State}, Inv P ops s → ¬(∀ X, (s X).pos = ops.length) →
        ∃ X s', step P ops s X = some s' := fun h hnot => by
      obtain ⟨Y, hY⟩ := not_forall.mp hnot
      exact h.exists_step P hS hlast hY
    obtain ⟨acts', s', hrun', hdone⟩ := Runs.exists_run_to_end hstep (fun h => h.progress_le P)
      hprogress h
    have h' := run_inv P hS ((Runs.run_append acts' hrun).trans hrun')
    refine ⟨acts', s', (Runs.run_append acts' hrun).trans hrun', fun X => ⟨hdone X, ?_⟩⟩
    have hgot : (s' X).got = (ops.take (s' X).pos).filterMap (BitSide.due X) := by
      cases X with
      | true => exact h'.sender.got
      | false => exact h'.receiver.got
    rw [hgot, hdone X, List.take_length]

/-- **The bit channel.**  Whatever the order in which the two sides take their steps:
* each side has received the bits and messages that were sent to it, in order;
* after every message and every flush both inner channels have carried the same bytes, in the
  same order (`s'` is a state of the same run at another moment, or of another run);
* with the flush of the destructor at the end, nobody waits for ever. -/
theorem in_step (hS : 0 < S) (ops : List Op) (buf : Bool → ℕ → Bool) {acts : List Bool}
    (hrun : Runs.run (step P ops) (init S buf) acts = some s) :
    (∀ X, (s X).got = (ops.take (s X).pos).filterMap (BitSide.due X))
    ∧ (∀ acts' s' k op, Runs.run (step P ops) (init S buf) acts' = some s' →
        ops[k]? = some op → (∀ d, op ≠ .bit d) → (s true).pos = k + 1 → (s' false).pos = k + 1 →
        (s true).io.io = (s' false).io.io)
    ∧ (ops.getLast? = some .flush → (∃ Y, (s Y).pos ≠ ops.length) →
        ∃ X t, step P ops s X = some t) := by
  have h := run_inv P hS hrun
  refine ⟨fun X => ?_, fun acts' s' k op hrun' hop hbit hA hB => ?_, fun hlast ⟨Y, hY⟩ => ?_⟩
  · cases X with
    | true => exact h.sender.got
    | false => exact h.receiver.got
  · exact h.io_eq P (run_inv P hS hrun') hop hbit hA hB
  · exact h.exists_step P hS hlast hY

/-- Bits around a message in each direction. -/
def session : List Op :=
  [.bit true, .message false [7], .bit false, .flush, .message true [9, 8], .bit true, .flush]

/-- A run of them, with a buffer of nine bools. -/
def sessionRun : Option State :=
  Runs.run (step (boolPacking 9) session) (init 9 fun _ _ => false)
    [true, true, false, false, true, true, true, true, true, true, false, false, false, false,
      false, false]

theorem sessionRun_isSome : sessionRun.isSome = true := by decide

/-- The session, run to its end: what was received, and the bytes that both channels carried. -/
theorem in_step_session :
    (sessionRun.get sessionRun_isSome false).got
      = [.inl true, .inl false, .inr [9, 8], .inl true]
    ∧ (sessionRun.get sessionRun_isSome true).got = [.inr [7]]
    ∧ (sessionRun.get sessionRun_isSome true).io.io
      = (sessionRun.get sessionRun_isSome false).io.io := by
  have h := in_step (boolPacking 9) (by decide) session _ (Option.some_get sessionRun_isSome).symm
  exact ⟨(h.1 false).trans (by decide), (h.1 true).trans (by decide),
    h.2.1 _ _ 6 .flush (Option.some_get sessionRun_isSome).symm rfl (fun d => Op.noConfusion)
      (by decide) (by decide)⟩

end BitStream

end VoleZk
