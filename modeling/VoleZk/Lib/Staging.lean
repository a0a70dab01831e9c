import Mathlib.Data.List.Basic
import Mathlib.Data.List.Infix

/-!
# Bits staged in blocks, between byte messages

One party of a connection, the *sender*, also sends single bits.  It stages them and puts them on
the wire in blocks of `S`; an incomplete block is completed before anything else may follow it.
Both parties go through the same list of operations.

## What is here

* `Packing` — how a block of `S` bits is written as bytes, and read back;
* `Staging.Op`, and `Staging.wire` — the bytes that a list of operations puts on the wire, each
  with the party that sends it;
* `Staging.firstBlock_bit` — **the next bytes on the wire after a bit are a block that holds
  it, behind the bits staged before it**;
* `Staging.take_inbound` — what a party finds next on a connection that keeps the order.
-/

set_option autoImplicit false

/-- How `S` bits are written as bytes, and read back. -/
structure Packing (S : ℕ) where
  /-- The bytes of a block. -/
  bytes : ℕ
  /-- Write a block. -/
  pack : List Bool → List UInt8
  /-- Read a block. -/
  unpack : List UInt8 → List Bool
  length_pack : ∀ {bs : List Bool}, bs.length = S → (pack bs).length = bytes
  unpack_pack : ∀ {bs : List Bool}, bs.length = S → unpack (pack bs) = bs

namespace Packing

variable {S : ℕ} (P : Packing S)

theorem pack_inj {bs cs : List Bool} (hb : bs.length = S) (hc : cs.length = S)
    (h : P.pack bs = P.pack cs) : bs = cs := by
  rw [← P.unpack_pack hb, h, P.unpack_pack hc]

theorem bytes_pos (hS : 0 < S) : 0 < P.bytes := by
  rw [Nat.pos_iff_ne_zero]
  intro h0
  -- two blocks without bytes would be the same
  have hnil : ∀ b : Bool, P.pack (List.replicate S b) = [] := fun b =>
    List.length_eq_zero_iff.mp ((P.length_pack List.length_replicate).trans h0)
  have h := P.pack_inj List.length_replicate List.length_replicate
    ((hnil true).trans (hnil false).symm)
  have hmem : true ∈ List.replicate S false := h ▸ List.mem_replicate.mpr ⟨hS.ne', rfl⟩
  cases (List.mem_replicate.mp hmem).2

end Packing

namespace Staging

/-- What both parties do. -/
inductive Op where
  /-- The sender sends a bit. -/
  | bit (b : Bool)
  /-- A byte message, of the sender or of the other party. -/
  | message (fromSender : Bool) (data : List UInt8)
  /-- Both parties flush. -/
  | flush
  deriving DecidableEq

/-- Bytes of one party. -/
def tag (fromSender : Bool) (data : List UInt8) : List (Bool × UInt8) :=
  data.map fun x => (fromSender, x)

/-- The bytes of one party, among those that crossed the wire. -/
def bytesFrom (fromSender : Bool) (carried : List (Bool × UInt8)) : List UInt8 :=
  (carried.filter fun x => x.1 = fromSender).map Prod.snd

@[simp] theorem tag_nil (d : Bool) : tag d [] = [] := rfl

@[simp] theorem length_tag (d : Bool) (data : List UInt8) : (tag d data).length = data.length :=
  List.length_map _

theorem tag_inj {d : Bool} {xs ys : List UInt8} : tag d xs = tag d ys ↔ xs = ys :=
  List.map_inj_right fun _ _ h => (Prod.mk.inj h).2

@[simp] theorem bytesFrom_append (d : Bool) (xs ys : List (Bool × UInt8)) :
    bytesFrom d (xs ++ ys) = bytesFrom d xs ++ bytesFrom d ys := by
  rw [bytesFrom, List.filter_append, List.map_append, bytesFrom, bytesFrom]

@[simp] theorem bytesFrom_tag (d : Bool) (data : List UInt8) : bytesFrom d (tag d data) = data := by
  induction data with
  | nil => rfl
  | cons x data ih =>
    rw [tag, List.map_cons, bytesFrom, List.filter_cons_of_pos (by simp), List.map_cons]
    exact congrArg (x :: ·) ih

theorem bytesFrom_isPrefix {xs ys : List (Bool × UInt8)} (d : Bool) (h : xs <+: ys) :
    bytesFrom d xs <+: bytesFrom d ys := by
  obtain ⟨zs, rfl⟩ := h
  rw [bytesFrom_append]
  exact List.prefix_append _ _

/-- **What comes next.**  The wire is to carry `w`; one party has seen `xs` of it, and the other,
which sends `data` next, `ys`.  If enough bytes are on their way, the first ones are `data`. -/
theorem take_inbound {d : Bool} {xs ys rest w : List (Bool × UInt8)} {data : List UInt8}
    (hw : w = xs ++ (tag d data ++ rest)) (hys : ys <+: w)
    (hlen : data.length ≤ ((bytesFrom d ys).drop (bytesFrom d xs).length).length) :
    ((bytesFrom d ys).drop (bytesFrom d xs).length).take data.length = data := by
  rcases Nat.eq_zero_or_pos data.length with h0 | hpos
  · rw [List.length_eq_zero_iff.mp h0, List.length_nil, List.take_zero]
  · obtain ⟨t, ht⟩ := bytesFrom_isPrefix d hys
    rw [hw, bytesFrom_append, bytesFrom_append, bytesFrom_tag] at ht
    rw [List.length_drop] at hlen
    have hle : (bytesFrom d xs).length ≤ (bytesFrom d ys).length := by omega
    have hdrop := congrArg (List.drop (bytesFrom d xs).length) ht
    rw [List.drop_append_of_le_length hle, List.drop_left] at hdrop
    have htake := congrArg (List.take data.length) hdrop
    rwa [List.take_append_of_le_length (by rw [List.length_drop]; exact hlen),
      List.take_left] at htake

/-! ## The wire -/

variable {S : ℕ} (P : Packing S)

/-- An incomplete block, completed with ones. -/
def pad (p : List Bool) : List UInt8 :=
  if p = [] then [] else P.pack (p ++ List.replicate (S - p.length) true)

/-- The bits staged after an operation. -/
def pend (S : ℕ) (p : List Bool) : Op → List Bool
  | .bit b => if p.length + 1 = S then [] else p ++ [b]
  | .message _ _ => []
  | .flush => []

/-- The bytes an operation puts on the wire. -/
def emit (p : List Bool) : Op → List (Bool × UInt8)
  | .bit b => if p.length + 1 = S then tag true (P.pack (p ++ [b])) else []
  | .message d data => tag true (pad P p) ++ tag d data
  | .flush => tag true (pad P p)

/-- The bytes that the operations put on the wire, from the staged bits `p`. -/
def wire : List Bool → List Op → List (Bool × UInt8)
  | _, [] => []
  | p, op :: ops => emit P p op ++ wire (pend S p op) ops

/-- The bits staged after the first `k` operations. -/
def pendingAt (S : ℕ) (ops : List Op) (k : ℕ) : List Bool := (ops.take k).foldl (pend S) []

/-- The bytes of the first `k` operations. -/
def wireTo (ops : List Op) (k : ℕ) : List (Bool × UInt8) := wire P [] (ops.take k)

@[simp] theorem pad_nil : pad P [] = [] := if_pos rfl

theorem length_pad_le {p : List Bool} (hp : p.length < S) :
    (p ++ List.replicate (S - p.length) true).length = S := by
  rw [List.length_append, List.length_replicate, Nat.add_sub_cancel' hp.le]

/-- Staging a one changes nothing about the completed block. -/
theorem pad_snoc {p : List Bool} (hp : p ≠ []) (hlt : p.length + 1 < S) :
    pad P (p ++ [true]) = pad P p := by
  rw [pad, if_neg (List.append_ne_nil_of_left_ne_nil hp _), pad, if_neg hp, List.append_assoc,
    List.length_append, List.length_singleton, List.singleton_append, ← List.replicate_succ]
  congr 3
  omega

theorem pad_eq_pack {p : List Bool} (hp : p ≠ []) (hS : p.length + 1 = S) :
    pad P p = P.pack (p ++ [true]) := by
  have hsub : S - p.length = 1 := Nat.sub_eq_of_eq_add' hS.symm
  rw [pad, if_neg hp, hsub, List.replicate_one]

theorem pend_length_lt (hS : 0 < S) {p : List Bool} (hp : p.length < S) (op : Op) :
    (pend S p op).length < S := by
  cases op with
  | bit b =>
    rw [pend]
    split_ifs with h
    · exact hS
    · rw [List.length_append, List.length_singleton]
      exact lt_of_le_of_ne hp h
  | message d data => exact hS
  | flush => exact hS

theorem foldl_pend_length_lt (hS : 0 < S) (ops : List Op) {p : List Bool} (hp : p.length < S) :
    (ops.foldl (pend S) p).length < S := by
  induction ops generalizing p with
  | nil => exact hp
  | cons op ops ih => exact ih (pend_length_lt hS hp op)

theorem pendingAt_length_lt (hS : 0 < S) (ops : List Op) (k : ℕ) : (pendingAt S ops k).length < S :=
  foldl_pend_length_lt hS _ hS

theorem wire_append (xs ys : List Op) (p : List Bool) :
    wire P p (xs ++ ys) = wire P p xs ++ wire P (xs.foldl (pend S) p) ys := by
  induction xs generalizing p with
  | nil => rfl
  | cons op xs ih => rw [List.cons_append, wire, ih, wire, List.append_assoc, List.foldl_cons]

@[simp] theorem pendingAt_zero (ops : List Op) : pendingAt S ops 0 = [] := rfl

@[simp] theorem wireTo_zero (ops : List Op) : wireTo P ops 0 = [] := rfl

variable {ops : List Op} {k : ℕ} {op : Op}

theorem pendingAt_succ (h : ops[k]? = some op) :
    pendingAt S ops (k + 1) = pend S (pendingAt S ops k) op := by
  rw [pendingAt, List.take_add_one, h, Option.toList_some, List.foldl_append, List.foldl_cons,
    List.foldl_nil, pendingAt]

theorem wireTo_succ (h : ops[k]? = some op) :
    wireTo P ops (k + 1) = wireTo P ops k ++ emit P (pendingAt S ops k) op := by
  rw [wireTo, List.take_add_one, h, Option.toList_some, wire_append, wireTo, wire, wire,
    List.append_nil, pendingAt]

/-- The wire from position `k` on. -/
theorem wire_eq_wireTo (ops : List Op) (k : ℕ) :
    wire P [] ops = wireTo P ops k ++ wire P (pendingAt S ops k) (ops.drop k) := by
  conv_lhs => rw [← List.take_append_drop k ops]
  exact wire_append P _ _ _

theorem wireTo_prefix (ops : List Op) (k : ℕ) : wireTo P ops k <+: wire P [] ops :=
  ⟨_, (wire_eq_wireTo P ops k).symm⟩

theorem wireTo_mono (ops : List Op) {i j : ℕ} (h : i ≤ j) : wireTo P ops i <+: wireTo P ops j := by
  have hpre := wireTo_prefix P (ops.take j) i
  rwa [wireTo, List.take_take, min_eq_left h] at hpre

/-- The wire from position `k` on, which is an operation `op`. -/
theorem wire_eq_emit (h : ops[k]? = some op) :
    wire P [] ops = wireTo P ops k ++ (emit P (pendingAt S ops k) op
      ++ wire P (pendingAt S ops (k + 1)) (ops.drop (k + 1))) := by
  rw [wire_eq_wireTo P ops (k + 1), wireTo_succ P h, List.append_assoc]

/-- The wire of the first `k` operations and a flush. -/
theorem wire_take_flush (ops : List Op) (k : ℕ) :
    wire P [] (ops.take k ++ [.flush])
      = wireTo P ops k ++ tag true (pad P (pendingAt S ops k)) := by
  rw [wire_append, wire, wire, List.append_nil]
  rfl

theorem foldl_pend_flush (S : ℕ) (ops : List Op) : (ops ++ [Op.flush]).foldl (pend S) [] = [] := by
  rw [List.foldl_append]
  rfl

/-! ## The next block -/

/-- Either the staged bits `p` stay staged, and nothing is on the wire, or a block that starts with
them is. -/
def FirstBlock (p : List Bool) (out : List (Bool × UInt8)) (left : List Bool) : Prop :=
  (out = [] ∧ left ≠ []) ∨
    ∃ blk rest, blk.length = S ∧ p <+: blk ∧ out = tag true (P.pack blk) ++ rest

/-- A completed block starts with the bits it completes. -/
theorem firstBlock_pad {p : List Bool} (hp : p ≠ []) (hlt : p.length < S)
    (rest : List (Bool × UInt8)) (left : List Bool) :
    FirstBlock P p (tag true (pad P p) ++ rest) left :=
  .inr ⟨p ++ List.replicate (S - p.length) true, rest, length_pad_le hlt, List.prefix_append _ _, by
    rw [pad, if_neg hp]⟩

theorem firstBlock {p : List Bool} (hp : p ≠ []) (hlt : p.length < S) (ops : List Op) :
    FirstBlock P p (wire P p ops) (ops.foldl (pend S) p) := by
  induction ops generalizing p with
  | nil => exact .inl ⟨rfl, hp⟩
  | cons op ops ih =>
    rw [wire, List.foldl_cons]
    cases op with
    | bit b =>
      rw [emit, pend]
      split_ifs with h
      · refine .inr ⟨p ++ [b], _, ?_, List.prefix_append _ _, rfl⟩
        rw [List.length_append, List.length_singleton, h]
      · have hlt' : (p ++ [b]).length < S := by
          rw [List.length_append, List.length_singleton]
          exact lt_of_le_of_ne hlt h
        rcases ih (List.append_ne_nil_of_left_ne_nil hp _) hlt' with hnone | ⟨blk, rest, hblk⟩
        · exact .inl hnone
        · exact .inr ⟨blk, rest, hblk.1, (List.prefix_append _ _).trans hblk.2.1, hblk.2.2⟩
    | message d data =>
      rw [emit, List.append_assoc]
      exact firstBlock_pad P hp hlt _ _
    | flush => exact firstBlock_pad P hp hlt _ _

/-- **The block of a bit.** -/
theorem firstBlock_bit {p : List Bool} (hlt : p.length < S) (b : Bool)
    (ops : List Op) :
    FirstBlock P (p ++ [b]) (wire P p (.bit b :: ops)) ((Op.bit b :: ops).foldl (pend S) p) := by
  rw [wire, List.foldl_cons, emit, pend]
  have hlen : (p ++ [b]).length = p.length + 1 := by
    rw [List.length_append, List.length_singleton]
  split_ifs with h
  · exact .inr ⟨p ++ [b], _, hlen.trans h, List.prefix_rfl, rfl⟩
  · exact firstBlock P (List.append_ne_nil_of_right_ne_nil _ (List.cons_ne_nil _ _))
      (hlen ▸ lt_of_le_of_ne hlt h) ops

/-- **What the wire carries after position `k`, where the operation is a bit.** -/
theorem next_block (hS : 0 < S) {d : Bool} (h : ops[k]? = some (.bit d)) :
    (wire P [] ops = wireTo P ops k ∧ ops.foldl (pend S) [] ≠ []) ∨
      ∃ blk rest, blk.length = S ∧ pendingAt S ops k ++ [d] <+: blk ∧
        wire P [] ops = wireTo P ops k ++ (tag true (P.pack blk) ++ rest) := by
  obtain ⟨hk, hget⟩ := List.getElem?_eq_some_iff.mp h
  have hdrop : ops.drop k = .bit d :: ops.drop (k + 1) := by
    rw [List.drop_eq_getElem_cons hk, hget]
  have hleft : ops.foldl (pend S) []
      = (Op.bit d :: ops.drop (k + 1)).foldl (pend S) (pendingAt S ops k) := by
    rw [← hdrop, pendingAt, ← List.foldl_append, List.take_append_drop]
  rw [wire_eq_wireTo P ops k, hdrop, hleft]
  rcases firstBlock_bit P (pendingAt_length_lt hS ops k) d (ops.drop (k + 1)) with
    ⟨hnone, hne⟩ | ⟨blk, rest, hlen, hpre, hout⟩
  · exact .inl ⟨by rw [hnone, List.append_nil], hne⟩
  · exact .inr ⟨blk, rest, hlen, hpre, by rw [hout]⟩

/-- The block at a position is determined by the wire. -/
theorem block_unique {blk blk' : List Bool} {rest : List (Bool × UInt8)} (h : blk.length = S)
    (h' : blk'.length = S) (hpre : tag true (P.pack blk) <+: tag true (P.pack blk') ++ rest) :
    blk = blk' := by
  have hle : (tag true (P.pack blk)).length ≤ (tag true (P.pack blk')).length := by
    rw [length_tag, length_tag, P.length_pack h, P.length_pack h']
  have hsame := List.prefix_of_prefix_length_le hpre (List.prefix_append _ _) hle
  refine P.pack_inj h h' (tag_inj.mp (hsame.eq_of_length ?_))
  rw [length_tag, length_tag, P.length_pack h, P.length_pack h']

end Staging
