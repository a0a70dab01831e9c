import VoleZk.Arith.Fp61
import VoleZk.Pipe.Model
import VoleZk.Lib.Runs
import Mathlib.Data.Finset.Range
import Mathlib.Data.List.Range
import Mathlib.Data.Nat.ModEq

/-!
# The stream of correlations

All correlations of an engine come from one stream, that of its Ferret or sVOLE session, in the
order of the draws.  With one socket the draws are served from a buffer that is refilled in bulk
(`cot_buf_`), or directly by the session (`next_n`, in pieces that fit its scratch memory); in
background mode they are served from the pipe, whose slots the producer thread fills one round at a
time.  The producer of the Boolean engine fills whole chunks of its Ferret, so a round has to be a
whole number of chunks.

Here the slots have contents.  The producer writes the entries of a slot in any order, as its
worker threads may, and the consumer copies them one by one; every interleaving of the two threads
is a run.

## What is here

* `Draw` — a call of `draw_one_cot_`, or of `draw_cot_` or `draw_vole_`;
* `CotBuf` — the draws of the single-socket mode;
* `VoleStream.nextN`, `FpVoleStream.nextNPrv`, `FpVoleStream.nextNVer` — the session of an sVOLE;
* `Drain.step` — producer and consumer of the background mode;
* `Drain.Inv` — which rounds the slots hold, and how far the consumer is;
* `Drain.step_inv` — every step of either thread keeps it;
* `draws_fifo` — **the returned correlations are a prefix of the stream, in every mode.**
-/

set_option autoImplicit false

namespace VoleZk

variable {α : Type*}

/-- A draw. -/
inductive Draw where
  /-- `draw_one_cot_`. -/
  | one
  /-- `draw_cot_`, `draw_vole_`. -/
  | many (n : ℕ)
  deriving DecidableEq

namespace Draw

/-- The correlations a draw returns. -/
def size : Draw → ℕ
  | .one => 1
  | .many n => n

/-- The correlations it takes at once, when `done` are drawn and `room` are at hand. -/
def take (done room : ℕ) : Draw → ℕ
  | .one => 1
  | .many n => min (n - done) room

theorem take_le_room {d : Draw} {done room : ℕ} (hroom : 0 < room) : d.take done room ≤ room := by
  cases d with
  | one => exact hroom
  | many n => exact min_le_right _ _

theorem add_take_le {d : Draw} {done room : ℕ} (hd : done < d.size) :
    done + d.take done room ≤ d.size := by
  cases d with
  | one => exact Nat.add_le_of_le_sub' hd.le (Nat.lt_one_iff.mp hd ▸ le_rfl)
  | many n => exact Nat.add_le_of_le_sub' hd.le (min_le_left _ _)

end Draw

/-- `n` correlations of the stream, from position `m` on. -/
def segment (stream : ℕ → α) (m n : ℕ) : List α := (List.range n).map fun i => stream (m + i)

section segment

variable (stream : ℕ → α)

@[simp] theorem length_segment (m n : ℕ) : (segment stream m n).length = n := by
  rw [segment, List.length_map, List.length_range]

@[simp] theorem segment_zero (m : ℕ) : segment stream m 0 = [] := rfl

theorem segment_add (m a b : ℕ) :
    segment stream m (a + b) = segment stream m a ++ segment stream (m + a) b := by
  rw [segment, List.range_add, List.map_append, List.map_map, segment, segment]
  congr 1
  exact List.map_congr_left fun i _ => congrArg stream (Nat.add_assoc _ _ _).symm

theorem segment_succ (m n : ℕ) :
    segment stream m (n + 1) = segment stream m n ++ [stream (m + n)] := segment_add stream m n 1

end segment

/-! ## One socket -/

/-- `cot_buf_` with its cursors, and the position of the session in its stream. -/
structure CotBuf (α : Type*) where
  /-- The chunks of the session. -/
  chunkSize : ℕ
  /-- The size of `cot_buf_`. -/
  size : ℕ
  /-- `cot_buf_`. -/
  buf : ℕ → α
  /-- `cot_pos_`. -/
  pos : ℕ := 0
  /-- `cot_have_`. -/
  have_ : ℕ := 0
  /-- The correlations the session has produced. -/
  produced : ℕ := 0

namespace CotBuf

variable (stream : ℕ → α)

/-- `cot_refill_`. -/
def refill (c : CotBuf α) : CotBuf α :=
  let nch := c.size / c.chunkSize
  { c with
    buf := fun i => if i < nch * c.chunkSize then stream (c.produced + i) else c.buf i
    pos := 0
    have_ := nch * c.chunkSize
    produced := c.produced + nch * c.chunkSize }

/-- `if (cot_pos_ == cot_have_) cot_refill_()`. -/
def refillIfEmpty (c : CotBuf α) : CotBuf α := if c.pos = c.have_ then c.refill stream else c

/-- The loop of `draw_cot_`, with `n - done` correlations to go; it runs at most that often. -/
def drawLoop : ℕ → ℕ → CotBuf α → List α × CotBuf α
  | 0, _, c => ([], c)
  | fuel + 1, left, c =>
    if 0 < left then
      let c := c.refillIfEmpty stream
      let take := min left (c.have_ - c.pos)
      let rest := drawLoop fuel (left - take) { c with pos := c.pos + take }
      ((List.range take).map (fun i => c.buf (c.pos + i)) ++ rest.1, rest.2)
    else ([], c)

/-- `draw_one_cot_` and `draw_cot_`. -/
def draw (c : CotBuf α) : Draw → List α × CotBuf α
  | .one =>
    let c := c.refillIfEmpty stream
    ([c.buf c.pos], { c with pos := c.pos + 1 })
  | .many n => drawLoop stream n n c

/-- Several draws, and what each returns. -/
def draws : CotBuf α → List Draw → List (List α)
  | _, [] => []
  | c, d :: ds => (c.draw stream d).1 :: draws (c.draw stream d).2 ds

/-- The constructor: the buffer holds 128 chunks, and is empty. -/
def new (chunkSize : ℕ) (buf : ℕ → α) : CotBuf α where
  chunkSize := chunkSize
  size := 128 * chunkSize
  buf := buf

/-- After `m` correlations have been drawn. -/
structure Serves (c : CotBuf α) (m : ℕ) : Prop where
  refills : 0 < c.size / c.chunkSize * c.chunkSize
  pos_le : c.pos ≤ c.have_
  produced : c.produced = m + (c.have_ - c.pos)
  buf : ∀ i, c.pos + i < c.have_ → c.buf (c.pos + i) = stream (m + i)

variable {stream} {c : CotBuf α} {m : ℕ}

theorem Serves.refill (h : Serves stream c m) (hempty : c.pos = c.have_) :
    Serves stream (c.refill stream) m where
  refills := h.refills
  pos_le := Nat.zero_le _
  produced := by
    have hproduced := h.produced
    rw [hempty, Nat.sub_self, Nat.add_zero] at hproduced
    show c.produced + _ = m + (_ - 0)
    rw [hproduced]
    rfl
  buf i hi := by
    have hproduced := h.produced
    rw [hempty, Nat.sub_self, Nat.add_zero] at hproduced
    have hlt : 0 + i < c.size / c.chunkSize * c.chunkSize := hi
    show (if 0 + i < _ then stream (c.produced + (0 + i)) else _) = stream (m + i)
    rw [if_pos hlt, hproduced, Nat.zero_add]

/-- Before a draw from the buffer there is something in it. -/
theorem Serves.ready (h : Serves stream c m) :
    Serves stream (c.refillIfEmpty stream) m
    ∧ (c.refillIfEmpty stream).pos < (c.refillIfEmpty stream).have_ := by
  rw [refillIfEmpty]
  split_ifs with hempty
  · exact ⟨h.refill hempty, h.refills⟩
  · exact ⟨h, lt_of_le_of_ne h.pos_le hempty⟩

/-- Taking what the buffer has. -/
theorem Serves.advance (h : Serves stream c m) {take : ℕ} (hle : take ≤ c.have_ - c.pos) :
    (List.range take).map (fun i => c.buf (c.pos + i)) = segment stream m take
    ∧ Serves stream { c with pos := c.pos + take } (m + take) := by
  have hpos := h.pos_le
  refine ⟨List.map_congr_left fun i hi => h.buf i ?_, h.refills, ?_, ?_, fun i hi => ?_⟩
  · have hi' := List.mem_range.mp hi
    omega
  · exact Nat.add_le_of_le_sub' hpos hle
  · show c.produced = m + take + (c.have_ - (c.pos + take))
    rw [h.produced, Nat.add_assoc, Nat.sub_add_eq, Nat.add_sub_cancel' hle]
  · show c.buf (c.pos + take + i) = stream (m + take + i)
    rw [Nat.add_assoc, Nat.add_assoc]
    exact h.buf _ (by rw [← Nat.add_assoc]; exact hi)

theorem Serves.drawLoop {fuel left : ℕ} (hfuel : left ≤ fuel) (h : Serves stream c m) :
    (drawLoop stream fuel left c).1 = segment stream m left
    ∧ Serves stream (drawLoop stream fuel left c).2 (m + left) := by
  induction fuel generalizing left c m with
  | zero =>
    obtain rfl := Nat.le_zero.mp hfuel
    exact ⟨rfl, h⟩
  | succ fuel ih =>
    rw [CotBuf.drawLoop]
    rcases Nat.eq_zero_or_pos left with rfl | hleft
    · exact ⟨rfl, h⟩
    · rw [if_pos hleft]
      obtain ⟨hready, hlt⟩ := h.ready
      generalize c.refillIfEmpty stream = c' at hready hlt
      obtain ⟨hout, hnext⟩ := hready.advance (min_le_right left (c'.have_ - c'.pos))
      have htake : 0 < min left (c'.have_ - c'.pos) := lt_min hleft (Nat.sub_pos_of_lt hlt)
      have hsum : min left (c'.have_ - c'.pos) + (left - min left (c'.have_ - c'.pos)) = left :=
        Nat.add_sub_cancel' (min_le_left _ _)
      obtain ⟨hrest, hlast⟩ := ih (by omega : left - min left (c'.have_ - c'.pos) ≤ fuel) hnext
      refine ⟨?_, ?_⟩
      · dsimp only
        rw [hout, hrest, ← segment_add, hsum]
      · rw [Nat.add_assoc, hsum] at hlast
        exact hlast

theorem Serves.draw (h : Serves stream c m) (d : Draw) :
    (c.draw stream d).1 = segment stream m d.size
    ∧ Serves stream (c.draw stream d).2 (m + d.size) := by
  cases d with
  | one =>
    obtain ⟨hready, hlt⟩ := h.ready
    rw [CotBuf.draw]
    generalize c.refillIfEmpty stream = c' at hready hlt
    have hone := hready.advance (Nat.sub_pos_of_lt hlt)
    exact ⟨hone.1, hone.2⟩
  | many n => exact h.drawLoop le_rfl

theorem Serves.draws (h : Serves stream c m) (ds : List Draw) :
    (c.draws stream ds).flatten = segment stream m (ds.map Draw.size).sum
    ∧ (c.draws stream ds).map List.length = ds.map Draw.size := by
  induction ds generalizing c m with
  | nil => exact ⟨rfl, rfl⟩
  | cons d ds ih =>
    obtain ⟨hout, hnext⟩ := h.draw d
    obtain ⟨hflat, hlen⟩ := ih hnext
    rw [CotBuf.draws, List.flatten_cons, List.map_cons, List.map_cons, List.sum_cons, segment_add,
      hout, hflat, hlen, length_segment]
    exact ⟨rfl, rfl⟩

theorem new_serves {chunkSize : ℕ} (h : 0 < chunkSize) (buf : ℕ → α) :
    Serves stream (new chunkSize buf) 0 where
  refills := by
    show 0 < 128 * chunkSize / chunkSize * chunkSize
    rw [Nat.mul_div_cancel _ h]
    exact Nat.mul_pos (Nat.succ_pos _) h
  pos_le := le_rfl
  produced := rfl
  buf i hi := absurd hi (Nat.not_lt_zero _)

end CotBuf

/-! ## The session of an sVOLE -/

namespace VoleStream

variable {β : Type*} (CH : ℕ) (split : β → α) (src : ℕ → β)

/-- The loop of `next_n`, with `left` correlations to go: at most `CH` at a time come from the
session, which is at position `pos`, and are split into the fields of the output.  It runs at most
`left` times. -/
def nextNLoop : ℕ → ℕ → ℕ → List α × ℕ
  | 0, _, pos => ([], pos)
  | fuel + 1, left, pos =>
    if 0 < left then
      let m := min CH left
      let rest := nextNLoop fuel (left - m) (pos + m)
      ((segment src pos m).map split ++ rest.1, rest.2)
    else ([], pos)

/-- `next_n`: `n` fresh correlations, and the position of the session after them. -/
def nextN (n pos : ℕ) : List α × ℕ := nextNLoop CH split src n n pos

/-- Calls of `next_n`, one after the other. -/
def draws : ℕ → List ℕ → List (List α)
  | _, [] => []
  | pos, n :: ns => (nextN CH split src n pos).1 :: draws (nextN CH split src n pos).2 ns

variable {CH split src} {stream : ℕ → α} (hCH : 0 < CH) (hsplit : ∀ i, split (src i) = stream i)
include hCH hsplit

/-- The loop, by induction on how often it may run. -/
theorem nextNLoop_eq {fuel left pos : ℕ} (hfuel : left ≤ fuel) :
    nextNLoop CH split src fuel left pos = (segment stream pos left, pos + left) := by
  induction fuel generalizing left pos with
  | zero =>
    obtain rfl := Nat.le_zero.mp hfuel
    rfl
  | succ fuel ih =>
    rw [nextNLoop]
    rcases Nat.eq_zero_or_pos left with rfl | hleft
    · rfl
    · have hm : 0 < min CH left := lt_min hCH hleft
      have hle : min CH left ≤ left := min_le_right _ _
      have hpiece : ∀ m, (segment src pos m).map split = segment stream pos m := fun m => by
        rw [segment, List.map_map, segment]
        exact List.map_congr_left fun i _ => hsplit (pos + i)
      rw [if_pos hleft]
      dsimp only
      rw [ih (by omega), hpiece, ← segment_add, Nat.add_assoc, Nat.add_sub_cancel' hle]

/-- **`next_n` returns the next correlations**, whatever the size of the pieces. -/
theorem nextN_eq (n pos : ℕ) : nextN CH split src n pos = (segment stream pos n, pos + n) :=
  nextNLoop_eq hCH hsplit le_rfl

theorem draws_flatten (pos : ℕ) (ns : List ℕ) :
    (draws CH split src pos ns).flatten = segment stream pos ns.sum
    ∧ (draws CH split src pos ns).map List.length = ns := by
  induction ns generalizing pos with
  | nil => exact ⟨rfl, rfl⟩
  | cons n ns ih =>
    rw [draws, nextN_eq hCH hsplit, List.flatten_cons, (ih _).1, List.map_cons, (ih _).2,
      List.sum_cons, segment_add, length_segment]
    exact ⟨rfl, rfl⟩

end VoleStream

namespace FpVoleStream

/-- The prover's `next_n`: the session hands it packed words, the MAC in the low lane and the value
in the high one. -/
def nextNPrv (src : ℕ → ℕ × ℕ) (n pos : ℕ) : List AuthVal × ℕ :=
  VoleStream.nextN 2048 (fun (low, high) => ⟨high, low⟩) src n pos

/-- The verifier's `next_n`: the session hands it keys. -/
def nextNVer (src : ℕ → ℕ) (n pos : ℕ) : List AuthVal × ℕ :=
  VoleStream.nextN 2048 (fun key => ⟨0, key⟩) src n pos

/-- Both halves of a correlation are at the same position of the two streams. -/
theorem nextN_eq (srcPrv : ℕ → ℕ × ℕ) (srcVer : ℕ → ℕ) (n pos : ℕ) :
    nextNPrv srcPrv n pos
        = (segment (fun i => ⟨(srcPrv i).2, (srcPrv i).1⟩) pos n, pos + n) ∧
      nextNVer srcVer n pos = (segment (fun i => ⟨0, srcVer i⟩) pos n, pos + n) :=
  ⟨VoleStream.nextN_eq (by decide) (fun _ => rfl) n pos,
    VoleStream.nextN_eq (by decide) (fun _ => rfl) n pos⟩

end FpVoleStream

/-! ## Two sockets -/

/-- Where the producer thread is. -/
inductive Filling where
  /-- About to call `acquire_free`. -/
  | waiting
  /-- Filling slot `i`, of which the entries `written` are there. -/
  | slot (i : ℕ) (written : Finset ℕ)

/-- The two threads of one party, and the ring between them. -/
structure Drain (α : Type*) where
  /-- The ring. -/
  pipe : CorrelationPipe
  /-- `bg_batch_`. -/
  batch : ℕ
  /-- The entries that the producer writes into a slot. -/
  filled : ℕ
  /-- The contents of the slots. -/
  slot : ℕ → ℕ → α
  /-- The producer thread. -/
  producer : Filling := .waiting
  /-- The rounds the producer has published. -/
  round : ℕ := 0
  /-- The draws still to be made; the first may be under way. -/
  rest : List Draw
  /-- `cur_slot_`. -/
  curSlot : Option ℕ := none
  /-- `cur_off_`. -/
  curOff : ℕ := 0
  /-- `done`, of the draw under way. -/
  done : ℕ := 0
  /-- The entries that the `memcpy` under way has copied. -/
  copied : ℕ := 0
  /-- What the draw under way has put into `out`. -/
  out : List α := []
  /-- What the draws before it returned. -/
  returned : List (List α) := []

namespace Drain

variable (stream : ℕ → α)

/-- A step of a thread. -/
inductive Act where
  /-- The producer calls `acquire_free`. -/
  | acquireFree
  /-- The producer writes entry `j` of its slot. -/
  | fill (j : ℕ)
  /-- The producer calls `publish`. -/
  | publish
  /-- The consumer goes on. -/
  | consume

/-- The next step of the consumer. -/
def consume (s : Drain α) : Option (Drain α) :=
  match s.rest with
  | [] => none
  | d :: ds =>
    if s.done < d.size then
      match s.curSlot with
      | none => match s.pipe.acquireReady with
        | some (some i) => some { s with curSlot := some i, curOff := 0 }
        | _ => none
      | some i =>
        let take := d.take s.done (s.batch - s.curOff)
        if s.copied < take then
          some { s with out := s.out ++ [s.slot i (s.curOff + s.copied)], copied := s.copied + 1 }
        else if s.curOff + take = s.batch then
          some { s with curOff := s.curOff + take, done := s.done + take, copied := 0,
                        pipe := s.pipe.release, curSlot := none }
        else some { s with curOff := s.curOff + take, done := s.done + take, copied := 0 }
    else some { s with rest := ds, done := 0, out := [], returned := s.returned ++ [s.out] }

/-- One step of a thread. -/
def step (s : Drain α) : Act → Option (Drain α)
  | .acquireFree => match s.producer, s.pipe.acquireFree with
    | .waiting, some (some i) => some { s with producer := .slot i ∅ }
    | _, _ => none
  | .fill j => match s.producer with
    | .slot i written =>
      if j < s.filled then
        some { s with
          slot := Function.update s.slot i
            (Function.update (s.slot i) j (stream (s.round * s.filled + j)))
          producer := .slot i (insert j written) }
      else none
    | .waiting => none
  | .publish => match s.producer with
    | .slot _ written =>
      if Finset.range s.filled ⊆ written then
        some { s with pipe := s.pipe.publish, producer := .waiting, round := s.round + 1 }
      else none
    | .waiting => none
  | .consume => s.consume

/-- The start; nothing is known of the slots.  The producer of the Boolean engine writes whole
chunks of `chunkSize` entries, as many as fit (`next_chunks_parallel`); that of the arithmetic
engine counts entries (`next_n`), which is `chunkSize = 1`. -/
def init (N batch chunkSize : ℕ) (slot : ℕ → ℕ → α) (draws : List Draw) : Drain α where
  pipe := { N := N }
  batch := batch
  filled := batch / chunkSize * chunkSize
  slot := slot
  rest := draws

/-- Two of `N` consecutive rounds are in different slots. -/
theorem slot_ne {N R i c : ℕ} (hi : i < c) (hc : c < N) : (R + i) % N ≠ (R + c) % N := by
  intro h
  have hdvd : N ∣ R + c - (R + i) := (Nat.modEq_iff_dvd' (Nat.add_le_add_left hi.le R)).mp h
  rw [Nat.add_sub_add_left] at hdvd
  exact absurd (Nat.le_of_dvd (Nat.sub_pos_of_lt hi) hdvd) (by omega)

/-- What the consumer has drawn. -/
def drawn (s : Drain α) : List α := s.returned.flatten ++ s.out

/-- **Where the two threads are.**  `R` rounds have been released; the slots in use hold the rounds
from `R` on, the slot being filled the next one after these, and the consumer is in round `R`. -/
structure Inv (N batch : ℕ) (draws : List Draw) (R : ℕ) (s : Drain α) : Prop where
  N_eq : s.pipe.N = N
  batch_eq : s.batch = batch
  filled_eq : s.filled = batch
  done_eq : s.pipe.done = false
  producerDone_eq : s.pipe.producerDone = false
  count_le : s.pipe.count ≤ N
  round : s.round = R + s.pipe.count
  head : s.pipe.head = R % N
  tail : s.pipe.tail = s.round % N
  full : ∀ i < s.pipe.count, ∀ j < batch,
    s.slot ((R + i) % N) j = stream ((R + i) * batch + j)
  filling : ∀ i written, s.producer = .slot i written → i = s.pipe.tail ∧ s.pipe.count < N
    ∧ ∀ j ∈ written, s.slot i j = stream (s.round * batch + j)
  idle : s.curSlot = none → s.copied = 0 ∧ s.drawn = segment stream 0 (R * batch)
  reading : ∀ i, s.curSlot = some i → i = s.pipe.head ∧ 0 < s.pipe.count ∧ s.curOff < batch
    ∧ s.drawn = segment stream 0 (R * batch + s.curOff + s.copied)
  busy : 0 < s.copied → ∃ d ds, s.rest = d :: ds ∧ s.done < d.size
    ∧ s.copied ≤ d.take s.done (batch - s.curOff)
  done_le : ∀ d ds, s.rest = d :: ds → s.done ≤ d.size
  length_out : s.out.length = s.done + s.copied
  sizes : s.returned.map List.length ++ s.rest.map Draw.size = draws.map Draw.size

variable {stream} {N batch R : ℕ} {draws : List Draw} {s s' : Drain α}

theorem init_inv {chunkSize : ℕ} (hchunk : chunkSize ∣ batch) (slot : ℕ → ℕ → α) :
    Inv stream N batch draws 0 (init N batch chunkSize slot draws) where
  N_eq := rfl
  batch_eq := rfl
  filled_eq := Nat.div_mul_cancel hchunk
  done_eq := rfl
  producerDone_eq := rfl
  count_le := Nat.zero_le _
  round := rfl
  head := (Nat.zero_mod N).symm
  tail := (Nat.zero_mod N).symm
  full i hi := absurd hi (Nat.not_lt_zero _)
  filling i written h := by cases h
  idle _ := ⟨rfl, by rw [Nat.zero_mul]; rfl⟩
  reading i h := by cases h
  busy h := absurd h (Nat.not_lt_zero _)
  done_le d ds _ := Nat.zero_le _
  length_out := rfl
  sizes := rfl

/-- **The producer never writes the slot that the consumer reads.** -/
theorem Inv.disjoint (h : Inv stream N batch draws R s) {i : ℕ} {written : Finset ℕ} {k : ℕ}
    (hi : s.producer = .slot i written) (hk : s.curSlot = some k) : i ≠ k := by
  obtain ⟨rfl, hlt, -⟩ := h.filling i written hi
  obtain ⟨rfl, hpos, -⟩ := h.reading k hk
  rw [h.tail, h.head, h.round]
  exact (slot_ne (R := R) hpos hlt).symm

/-! ### The producer -/

theorem Inv.acquireFree (h : Inv stream N batch draws R s)
    (hstep : step stream s .acquireFree = some s') : Inv stream N batch draws R s' := by
  rw [step] at hstep
  split at hstep
  · next hacquire =>
    simp only [CorrelationPipe.acquireFree, h.done_eq, Bool.false_eq_true, or_false,
      if_false] at hacquire
    split_ifs at hacquire with hlt
    cases hacquire
    cases hstep
    exact { h with
      filling := fun i written hi => by
        cases hi
        exact ⟨rfl, h.N_eq ▸ hlt, fun j hj => absurd hj (Finset.notMem_empty j)⟩ }
  · cases hstep

theorem Inv.fill (h : Inv stream N batch draws R s) {j : ℕ}
    (hstep : step stream s (.fill j) = some s') : Inv stream N batch draws R s' := by
  rw [step] at hstep
  split at hstep
  · next i written hproducer =>
    split_ifs at hstep with hj
    cases hstep
    obtain ⟨hi, hlt, hwritten⟩ := h.filling i written hproducer
    exact { h with
      full := fun k hk l hl => by
        -- the slots in use are not touched
        have hne : (R + k) % N ≠ i := by
          rw [hi, h.tail, h.round]
          exact slot_ne hk hlt
        exact (congrFun (Function.update_of_ne hne _ _) l).trans (h.full k hk l hl)
      filling := fun k written' hk => by
        cases hk
        refine ⟨hi, hlt, fun l hl => ?_⟩
        show Function.update s.slot i (Function.update (s.slot i) j _) i l = _
        rw [Function.update_self]
        by_cases hlj : l = j
        · rw [hlj, Function.update_self, h.filled_eq]
        · rw [Function.update_of_ne hlj]
          exact hwritten l (Finset.mem_of_mem_insert_of_ne hl hlj) }
  · cases hstep

theorem Inv.publish (h : Inv stream N batch draws R s)
    (hstep : step stream s .publish = some s') : Inv stream N batch draws R s' := by
  rw [step] at hstep
  split at hstep
  · next i written hproducer =>
    split_ifs at hstep with hall
    cases hstep
    obtain ⟨hi, hlt, hwritten⟩ := h.filling i written hproducer
    exact { h with
      count_le := hlt
      round := congrArg (· + 1) h.round
      tail := by
        show (s.pipe.tail + 1) % s.pipe.N = (s.round + 1) % N
        rw [h.tail, h.N_eq, Nat.mod_add_mod]
      full := fun k hk l hl => by
        rcases Nat.lt_succ_iff_lt_or_eq.mp hk with hk | rfl
        · exact h.full k hk l hl
        · rw [← h.round, ← h.tail, ← hi]
          exact hwritten l (hall (Finset.mem_range.mpr (h.filled_eq.symm ▸ hl)))
      filling := fun k written' hk => by cases hk
      reading := fun k hk => by
        obtain ⟨hhead, -, hrest⟩ := h.reading k hk
        exact ⟨hhead, Nat.succ_pos _, hrest⟩ }
  · cases hstep

/-! ### The consumer -/

theorem Inv.release (h : Inv stream N batch draws R s) {i : ℕ} (hcur : s.curSlot = some i)
    {take : ℕ} (hcopied : s.copied = take) (hfull : s.curOff + take = batch)
    (hdone : ∀ d ds, s.rest = d :: ds → s.done + take ≤ d.size) :
    Inv stream N batch draws (R + 1) { s with
      curOff := s.curOff + take, done := s.done + take, copied := 0, pipe := s.pipe.release,
      curSlot := none } := by
  obtain ⟨-, hpos, -, hdrawn⟩ := h.reading i hcur
  have hcount : R + 1 + (s.pipe.count - 1) = R + s.pipe.count := by omega
  exact { h with
    count_le := (Nat.sub_le _ _).trans h.count_le
    round := h.round.trans hcount.symm
    head := by
      show (s.pipe.head + 1) % s.pipe.N = (R + 1) % N
      rw [h.head, h.N_eq, Nat.mod_add_mod]
    full := fun k hk l hl => by
      have hk' : k + 1 < s.pipe.count := Nat.add_lt_of_lt_sub hk
      rw [Nat.add_right_comm R 1 k]
      exact h.full (k + 1) hk' l hl
    filling := fun k written hk => by
      obtain ⟨htail, hlt, hwritten⟩ := h.filling k written hk
      exact ⟨htail, (Nat.sub_le _ _).trans_lt hlt, hwritten⟩
    idle := fun _ => by
      refine ⟨rfl, hdrawn.trans ?_⟩
      rw [hcopied, Nat.add_assoc, hfull, Nat.succ_mul]
    reading := fun k hk => by cases hk
    busy := fun hpos => absurd hpos (Nat.lt_irrefl 0)
    done_le := hdone
    length_out := by
      rw [← hcopied]
      exact h.length_out }

/-- The end of a `memcpy`. -/
theorem Inv.copied_eq (h : Inv stream N batch draws R s) {d : Draw} {ds : List Draw}
    (hrest : s.rest = d :: ds) (hcopy : ¬ s.copied < d.take s.done (s.batch - s.curOff)) :
    s.copied = d.take s.done (s.batch - s.curOff) := by
  refine le_antisymm ?_ (not_lt.mp hcopy)
  rcases Nat.eq_zero_or_pos s.copied with h0 | hpos
  · exact h0 ▸ Nat.zero_le _
  · obtain ⟨d', ds', hrest', -, hle⟩ := h.busy hpos
    cases hrest.symm.trans hrest'
    rw [h.batch_eq]
    exact hle

/-- `bg_next_slot_`. -/
theorem Inv.nextSlot (hbatch : 0 < batch) (h : Inv stream N batch draws R s)
    (hcur : s.curSlot = none) {i : ℕ} (hacquire : s.pipe.acquireReady = some (some i)) :
    Inv stream N batch draws R { s with curSlot := some i, curOff := 0 } := by
  simp only [CorrelationPipe.acquireReady, h.done_eq, h.producerDone_eq, Bool.false_eq_true,
    or_false] at hacquire
  split_ifs at hacquire with hpos
  cases hacquire
  obtain ⟨hcopied, hdrawn⟩ := h.idle hcur
  exact { h with
    idle := fun hc => by cases hc
    reading := fun k hk => by
      cases hk
      refine ⟨rfl, hpos, hbatch, hdrawn.trans ?_⟩
      rw [hcopied]
      rfl
    busy := fun hpos => absurd hpos (by rw [hcopied]; exact Nat.lt_irrefl 0) }

/-- One more entry of the slot. -/
theorem Inv.copy (h : Inv stream N batch draws R s) {i : ℕ} (hcur : s.curSlot = some i) {d : Draw}
    {ds : List Draw} (hrest : s.rest = d :: ds) (hdone : s.done < d.size)
    (hcopy : s.copied < d.take s.done (batch - s.curOff)) :
    Inv stream N batch draws R
      { s with out := s.out ++ [s.slot i (s.curOff + s.copied)], copied := s.copied + 1 } := by
  obtain ⟨hhead, hpos, hoff, hdrawn⟩ := h.reading i hcur
  have hentry : s.slot i (s.curOff + s.copied) = stream (R * batch + (s.curOff + s.copied)) := by
    have hlt := hcopy.trans_le (Draw.take_le_room (Nat.sub_pos_of_lt hoff))
    rw [hhead, h.head]
    exact h.full 0 hpos _ (Nat.add_lt_of_lt_sub' hlt)
  exact { h with
    idle := fun hc => by rw [hcur] at hc; cases hc
    reading := fun k hk => by
      refine ⟨?_, hpos, hoff, ?_⟩
      · rw [hcur] at hk
        cases hk
        exact hhead
      · show s.returned.flatten ++ (s.out ++ _) = _
        rw [← List.append_assoc, ← Nat.add_assoc, segment_succ, Nat.zero_add, hentry,
          Nat.add_assoc (R * batch), ← Nat.add_assoc (R * batch), ← hdrawn]
        rfl
    busy := fun _ => ⟨d, ds, hrest, hdone, hcopy⟩
    length_out := by
      show (s.out ++ _).length = s.done + (s.copied + 1)
      rw [List.length_append, h.length_out]
      rfl }

/-- The end of a `memcpy` that leaves something in the slot. -/
theorem Inv.advance (h : Inv stream N batch draws R s) {i : ℕ} (hcur : s.curSlot = some i)
    {take : ℕ} (hcopied : s.copied = take) (hlt : s.curOff + take < batch)
    (hdone : ∀ d ds, s.rest = d :: ds → s.done + take ≤ d.size) :
    Inv stream N batch draws R
      { s with curOff := s.curOff + take, done := s.done + take, copied := 0 } := by
  obtain ⟨hhead, hpos, -, hdrawn⟩ := h.reading i hcur
  exact { h with
    idle := fun hc => by rw [hcur] at hc; cases hc
    reading := fun k hk => by
      refine ⟨?_, hpos, hlt, ?_⟩
      · rw [hcur] at hk
        cases hk
        exact hhead
      · rw [← hcopied, Nat.add_zero, ← Nat.add_assoc]
        exact hdrawn
    busy := fun hpos => absurd hpos (Nat.lt_irrefl 0)
    done_le := hdone
    length_out := by
      rw [← hcopied]
      exact h.length_out }

/-- A draw returns. -/
theorem Inv.finishDraw (h : Inv stream N batch draws R s) {d : Draw} {ds : List Draw}
    (hrest : s.rest = d :: ds) (hdone : ¬ s.done < d.size) :
    Inv stream N batch draws R
      { s with rest := ds, done := 0, out := [], returned := s.returned ++ [s.out] } := by
  have hdone' : s.done = d.size := (h.done_le d ds hrest).antisymm (not_lt.mp hdone)
  have hcopied : s.copied = 0 := by
    refine Nat.eq_zero_of_not_pos fun hpos => ?_
    obtain ⟨d', ds', hrest', hlt, -⟩ := h.busy hpos
    cases hrest.symm.trans hrest'
    exact hdone hlt
  have hdrawn : (s.returned ++ [s.out]).flatten ++ [] = s.drawn := by
    rw [List.flatten_append, List.flatten_singleton, List.append_nil]
    rfl
  have hlength : s.out.length = d.size := by rw [h.length_out, hcopied, hdone', Nat.add_zero]
  exact { h with
    idle := fun hc => ⟨hcopied, hdrawn.trans (h.idle hc).2⟩
    reading := fun k hk => by
      obtain ⟨hhead, hpos, hoff, hsofar⟩ := h.reading k hk
      exact ⟨hhead, hpos, hoff, hdrawn.trans hsofar⟩
    busy := fun hpos => absurd hpos (by rw [hcopied]; exact Nat.lt_irrefl 0)
    done_le := fun _ _ _ => Nat.zero_le _
    length_out := by rw [hcopied]; rfl
    sizes := by
      have hsizes := h.sizes
      rw [hrest, List.map_cons, ← hlength] at hsizes
      rw [List.map_append, List.append_assoc]
      exact hsizes }

theorem Inv.consume (hbatch : 0 < batch) (h : Inv stream N batch draws R s)
    (hstep : s.consume = some s') : ∃ R', Inv stream N batch draws R' s' := by
  rw [Drain.consume] at hstep
  split at hstep
  · cases hstep
  · next d ds hrest =>
    split_ifs at hstep with hdone
    · split at hstep
      · next hcur =>
        split at hstep
        · next i hacquire =>
          cases hstep
          exact ⟨R, h.nextSlot hbatch hcur hacquire⟩
        · cases hstep
      · next i hcur =>
        obtain ⟨-, -, hoff, -⟩ := h.reading i hcur
        have hle : s.curOff + d.take s.done (s.batch - s.curOff) ≤ batch := by
          rw [h.batch_eq]
          exact Nat.add_le_of_le_sub' hoff.le (Draw.take_le_room (Nat.sub_pos_of_lt hoff))
        have htake : ∀ d' ds', s.rest = d' :: ds' →
            s.done + d.take s.done (s.batch - s.curOff) ≤ d'.size := fun d' ds' hrest' => by
          cases hrest.symm.trans hrest'
          exact Draw.add_take_le hdone
        dsimp only at hstep
        split_ifs at hstep with hcopy hfull
        · cases hstep
          exact ⟨R, h.copy hcur hrest hdone (h.batch_eq ▸ hcopy)⟩
        · cases hstep
          exact ⟨R + 1, h.release hcur (h.copied_eq hrest hcopy) (hfull.trans h.batch_eq) htake⟩
        · cases hstep
          have hlt := lt_of_le_of_ne hle fun heq => hfull (heq.trans h.batch_eq.symm)
          exact ⟨R, h.advance hcur (h.copied_eq hrest hcopy) hlt htake⟩
    · cases hstep
      exact ⟨R, h.finishDraw hrest hdone⟩

/-- **Every step of either thread keeps the invariant.** -/
theorem step_inv (hbatch : 0 < batch) {a : Act} (h : ∃ R, Inv stream N batch draws R s)
    (hstep : step stream s a = some s') : ∃ R, Inv stream N batch draws R s' := by
  obtain ⟨R, h⟩ := h
  cases a with
  | acquireFree => exact ⟨R, h.acquireFree hstep⟩
  | fill j => exact ⟨R, h.fill hstep⟩
  | publish => exact ⟨R, h.publish hstep⟩
  | consume => exact h.consume hbatch hstep

/-- Whatever has been drawn is the start of the stream. -/
theorem Inv.drawn_eq (h : Inv stream N batch draws R s) :
    s.drawn = segment stream 0 s.drawn.length := by
  cases hcur : s.curSlot with
  | none =>
    obtain ⟨-, hdrawn⟩ := h.idle hcur
    rw [hdrawn, length_segment]
  | some i =>
    obtain ⟨-, -, -, hdrawn⟩ := h.reading i hcur
    rw [hdrawn, length_segment]

end Drain

/-- **All draws together return a prefix of the stream**, each as many correlations as it asks for:
* with one socket, from `cot_buf_`;
* with one socket, directly from the session of the sVOLE, in pieces of any size, if its words,
  taken apart, are the stream;
* in background mode, in every state of every interleaving of the two threads, whatever the size
  of the ring; and the producer never writes the slot that the consumer reads.  A round is a whole
  number of chunks of the session, as it is in Ferret. -/
theorem draws_fifo (stream : ℕ → α) :
    (∀ (chunkSize : ℕ) (buf : ℕ → α) (ds : List Draw), 0 < chunkSize →
        ((CotBuf.new chunkSize buf).draws stream ds).flatten
          = segment stream 0 (ds.map Draw.size).sum
        ∧ ((CotBuf.new chunkSize buf).draws stream ds).map List.length = ds.map Draw.size)
    ∧ (∀ (β : Type) (CH : ℕ) (split : β → α) (src : ℕ → β) (ns : List ℕ), 0 < CH →
        (∀ i, split (src i) = stream i) →
        (VoleStream.draws CH split src 0 ns).flatten = segment stream 0 ns.sum
        ∧ (VoleStream.draws CH split src 0 ns).map List.length = ns)
    ∧ (∀ (N batch chunkSize : ℕ) (slot : ℕ → ℕ → α) (ds : List Draw) (acts : List Drain.Act)
        (s : Drain α), 0 < batch → chunkSize ∣ batch →
        Runs.run (Drain.step stream) (Drain.init N batch chunkSize slot ds) acts = some s →
        s.returned.flatten ++ s.out
          = segment stream 0 (s.returned.flatten ++ s.out).length
        ∧ s.returned.map List.length ++ s.rest.map Draw.size = ds.map Draw.size
        ∧ ∀ i written k, s.producer = .slot i written → s.curSlot = some k → i ≠ k) := by
  refine ⟨fun chunkSize buf ds hchunk => (CotBuf.new_serves hchunk buf).draws ds,
    fun β CH split src ns hCH hsplit => VoleStream.draws_flatten hCH hsplit 0 ns,
    fun N batch chunkSize slot ds acts s hbatch hchunk hrun => ?_⟩
  obtain ⟨R, h⟩ := Runs.invariant_of_run
    (fun hinv hstep => Drain.step_inv hbatch hinv hstep) ⟨0, Drain.init_inv hchunk slot⟩ hrun
  exact ⟨h.drawn_eq, h.sizes, fun i written k hi hk => h.disjoint hi hk⟩

/-- A run on a ring of two slots of two correlations, which the session fills in chunks of two, for
draws of 3 and 1: the producer is in its third round while the consumer reads the second. -/
def twoSlots : Option (Drain ℕ) :=
  Runs.run (Drain.step id) (Drain.init 2 2 2 (fun _ _ => 0) [.many 3, .one])
    [.acquireFree, .fill 1, .fill 0, .publish, .consume, .acquireFree, .consume, .fill 0, .fill 1,
      .publish, .consume, .consume, .acquireFree, .fill 0, .consume, .consume, .consume, .consume,
      .consume, .fill 1, .consume, .consume]

theorem twoSlots_isSome : twoSlots.isSome = true := by decide

/-- Draws of 130 and 1 from `cot_buf_`, of 3 and 2 from a session in pieces of 2, and the run. -/
theorem draws_fifo_two :
    (((CotBuf.new 1 fun _ => 0).draws id [.many 130, .one]).flatten = List.range 131
      ∧ ((CotBuf.new 1 fun _ => 0).draws id [.many 130, .one]).map List.length = [130, 1])
    ∧ ((VoleStream.draws 2 Prod.snd (fun i => (0, i)) 0 [3, 2]).flatten = [0, 1, 2, 3, 4]
      ∧ (VoleStream.draws 2 Prod.snd (fun i => (0, i)) 0 [3, 2]).map List.length = [3, 2])
    ∧ (twoSlots.get twoSlots_isSome).returned = [[0, 1, 2], [3]]
    ∧ (twoSlots.get twoSlots_isSome).returned.flatten ++ (twoSlots.get twoSlots_isSome).out
      = [0, 1, 2, 3] := by
  have hbuf := (draws_fifo id).1 1 (fun _ => 0) [.many 130, .one] Nat.one_pos
  have hsession := (draws_fifo id).2.1 (ℕ × ℕ) 2 Prod.snd (fun i => (0, i)) [3, 2] Nat.two_pos
    fun _ => rfl
  have hring := (draws_fifo id).2.2 2 2 2 _ _ _ _ Nat.two_pos dvd_rfl
    (Option.some_get twoSlots_isSome).symm
  exact ⟨⟨hbuf.1.trans (by decide), hbuf.2⟩, ⟨hsession.1.trans (by decide), hsession.2⟩, by decide,
    hring.1.trans (by decide)⟩

end VoleZk
