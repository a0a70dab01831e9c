import VoleZk.Pipe.Teardown
import Mathlib.Algebra.Order.BigOperators.Group.List
import Mathlib.Algebra.Order.Group.Nat
import Mathlib.Algebra.GroupWithZero.Nat

/-!
# Two engines in background mode

Each party has a pipe with its producer, as in `VoleZk.Pipe.Model`, and an engine that draws
from it and talks to the other engine over the main socket.  A round needs both producers, a
message needs both engines, and nothing that was sent arrives before a flush.  Each engine
flushes before it may block: in front of every receive, and in front of `acquire_ready`
(`bg_next_slot_`, `draw_vole_`).

## What is here

* `Work` — what the two engines do, in the same order on both sides;
* `Engine.mainStep`, `Engines.step` — the four threads;
* `Engine.Ok` — what one party's counters say; nothing relates the two parties but the work;
* `Engine.blocked_cases` — where an engine can block;
* `Engines.exists_step` — **before its work is done, an engine is never stuck for good**;
* `Engines.never_stuck`, `Engines.unflushed_tail` — this needs a flush at the end of the work.
-/

set_option autoImplicit false

namespace VoleZk

/-- What both engines do. -/
inductive Work where
  /-- Both draw `n` correlations. -/
  | draw (n : ℕ)
  /-- `X` sends `n` bytes, and the other engine receives them. -/
  | transfer (X : Party) (n : ℕ)
  /-- Both flush the main socket. -/
  | flush
  deriving DecidableEq

namespace Work

/-- The correlations drawn in a piece of work. -/
def draws : Work → ℕ
  | .draw n => n
  | .transfer _ _ => 0
  | .flush => 0

/-- The bytes `X` sends in a piece of work. -/
def sends (X : Party) : Work → ℕ
  | .draw _ => 0
  | .transfer Y n => if Y = X then n else 0
  | .flush => 0

/-- The correlations drawn in the first `k` pieces. -/
def drawnTo (work : List Work) (k : ℕ) : ℕ := ((work.take k).map draws).sum

/-- The bytes `X` sends in the first `k` pieces. -/
def sentTo (work : List Work) (X : Party) (k : ℕ) : ℕ := ((work.take k).map (sends X)).sum

end Work

/-- One party: its pipe with the producer, the draw under way (`rest`), and the main socket. -/
structure Engine extends Endpoint where
  /-- The pieces of work that are done. -/
  pos : ℕ := 0
  /-- The bytes handed to the main socket. -/
  sent : ℕ := 0
  /-- Those among them that were flushed. -/
  flushed : ℕ := 0
  /-- The bytes received. -/
  received : ℕ := 0
  /-- Behind the flush that stands before a call that may block. -/
  justFlushed : Bool := false

namespace Engine

/-- The next step of the engine of `X`: `none` while it blocks, and when its work is done. -/
def mainStep (X : Party) (work : List Work) (peerFlushed : ℕ) (x : Engine) : Option Engine :=
  match work[x.pos]? with
  | none => none
  | some (.draw n) => match x.rest with
    | [] => some { x with rest := [n] }
    | left :: _ =>
      if 0 < left ∧ x.curSlot = none ∧ x.justFlushed = false then
        some { x with flushed := x.sent, justFlushed := true }
      else x.toEndpoint.consumerStep.map fun e =>
        { x with toEndpoint := e, pos := if e.rest = [] then x.pos + 1 else x.pos,
                 justFlushed := false }
  | some (.transfer Y n) =>
    if Y = X then some { x with sent := x.sent + n, pos := x.pos + 1, justFlushed := false }
    else if x.justFlushed = false then some { x with flushed := x.sent, justFlushed := true }
    else if x.received + n ≤ peerFlushed then
      some { x with received := x.received + n, pos := x.pos + 1, justFlushed := false }
    else none
  | some .flush => some { x with flushed := x.sent, pos := x.pos + 1 }

end Engine

namespace Engines

open Pipe (Thread)

/-- Both parties. -/
abbrev State : Type := Party → Engine

/-- One step of one thread. -/
def step (work : List Work) (s : State) : Thread → Option State
  | .consumer X => ((s X).mainStep X work (s X.peer).flushed).map (Function.update s X)
  | .producer X => ((s X).producerStep (s X.peer).entered).map fun e =>
      Function.update s X { s X with toEndpoint := e }

/-- The start, on empty rings. -/
def init (N : Party → ℕ) (batch : ℕ) : State := fun X =>
  { pipe := { N := N X }, batch := batch, rest := [] }

end Engines

/-! ## What is drawn and sent -/

namespace Work

variable {work : List Work} {X : Party} {k l : ℕ} {w : Work}

theorem drawnTo_succ (h : work[k]? = some w) : drawnTo work (k + 1) = drawnTo work k + w.draws := by
  rw [drawnTo, List.take_add_one, h, Option.toList_some, List.map_append, List.sum_append,
    List.map_singleton, List.sum_singleton, drawnTo]

theorem sentTo_succ (X : Party) (h : work[k]? = some w) :
    sentTo work X (k + 1) = sentTo work X k + w.sends X := by
  rw [sentTo, List.take_add_one, h, Option.toList_some, List.map_append, List.sum_append,
    List.map_singleton, List.sum_singleton, sentTo]

theorem take_sublist_take (work : List Work) (h : k ≤ l) : (work.take k).Sublist (work.take l) := by
  have hpre := List.take_sublist k (work.take l)
  rwa [List.take_take, min_eq_left h] at hpre

theorem drawnTo_mono (work : List Work) (h : k ≤ l) : drawnTo work k ≤ drawnTo work l :=
  ((take_sublist_take work h).map draws).sum_le_sum fun _ _ => Nat.zero_le _

theorem sentTo_mono (work : List Work) (X : Party) (h : k ≤ l) :
    sentTo work X k ≤ sentTo work X l :=
  ((take_sublist_take work h).map (sends X)).sum_le_sum fun _ _ => Nat.zero_le _

end Work

namespace Engine

open Work

/-! ## One party -/

/-- `d` correlations were drawn. -/
def Drawn (work : List Work) (x : Engine) (d : ℕ) : Prop :=
  (x.rest = [] ∧ d = drawnTo work x.pos) ∨
    ∃ n left, work[x.pos]? = some (.draw n) ∧ x.rest = [left] ∧ left ≤ n
      ∧ d + left = drawnTo work x.pos + n

theorem Drawn.le {work : List Work} {x : Engine} {d : ℕ} (h : x.Drawn work d) :
    drawnTo work x.pos ≤ d ∧ d ≤ drawnTo work (x.pos + 1) := by
  rcases h with ⟨-, rfl⟩ | ⟨n, left, hw, -, hle, hd⟩
  · exact ⟨le_rfl, drawnTo_mono work (Nat.le_succ _)⟩
  · rw [drawnTo_succ hw, draws]
    omega

/-- What one party's counters say when it has released `R` rounds. -/
structure Ok (N batch : ℕ) (X : Party) (work : List Work) (R : ℕ) (x : Engine) : Prop where
  N_eq : x.pipe.N = N
  batch_eq : x.batch = batch
  done_eq : x.pipe.done = false
  producerDone_eq : x.pipe.producerDone = false
  aborted_eq : x.aborted = false
  joined_eq : x.joined = false
  running : x.producer ≠ .exited
  entered : x.entered = R + x.pipe.count + if x.producer = .inRound then 1 else 0
  slot : x.curSlot ≠ none → 0 < x.pipe.count ∧ x.curOff < batch
  pos_le : x.pos ≤ work.length
  drawn : x.Drawn work (R * batch + if x.curSlot = none then 0 else x.curOff)
  sent : x.sent = sentTo work X x.pos
  received : x.received = sentTo work X.peer x.pos
  flushed : x.justFlushed = true → x.flushed = x.sent
  last : ∀ k, x.pos = k + 1 → work[k]? = some .flush → x.flushed = x.sent

theorem init_ok (N : Party → ℕ) (batch : ℕ) (X : Party) (work : List Work) :
    (Engines.init N batch X).Ok (N X) batch X work 0 where
  N_eq := rfl
  batch_eq := rfl
  done_eq := rfl
  producerDone_eq := rfl
  aborted_eq := rfl
  joined_eq := rfl
  running h := by cases h
  entered := rfl
  slot h := absurd rfl h
  pos_le := Nat.zero_le _
  drawn := .inl ⟨rfl, by rw [Nat.zero_mul]; rfl⟩
  sent := rfl
  received := rfl
  flushed h := by cases h
  last k h := by cases h

end Engine

namespace Endpoint

/-- **One step of a draw**, on a pipe that is open. -/
theorem drawStep_cases {e e' : Endpoint} {left : ℕ} {ns : List ℕ} (hdone : e.pipe.done = false)
    (hpdone : e.pipe.producerDone = false) (hrest : e.rest = left :: ns)
    (h : e.consumerStep = some e') :
    (left = 0 ∧ e' = { e with rest := ns }) ∨
    (e.curSlot = none ∧ 0 < e.pipe.count ∧
      e' = { e with curSlot := some e.pipe.head, curOff := 0 }) ∨
    (e.curSlot ≠ none ∧ e.curOff + min left (e.batch - e.curOff) = e.batch ∧
      e' = { e with rest := (left - min left (e.batch - e.curOff)) :: ns, curOff := e.batch,
                    curSlot := none, pipe := e.pipe.release }) ∨
    (e.curSlot ≠ none ∧ e.curOff + min left (e.batch - e.curOff) ≠ e.batch ∧
      e' = { e with rest := (left - min left (e.batch - e.curOff)) :: ns,
                    curOff := e.curOff + min left (e.batch - e.curOff) }) := by
  rw [consumerStep] at h
  by_cases hrun : (e.aborted || e.joined) = true
  · rw [if_pos hrun] at h
    cases h
  rw [if_neg hrun, hrest] at h
  cases left with
  | zero => exact .inl ⟨rfl, (Option.some_inj.mp h).symm⟩
  | succ left =>
    refine .inr ?_
    cases hcur : e.curSlot with
    | none =>
      simp only [hcur, CorrelationPipe.acquireReady, hdone, hpdone, Bool.false_eq_true,
        or_false] at h
      split_ifs at h with hcount
      refine .inl ⟨rfl, hcount, ?_⟩
      rw [← Option.some_inj.mp h, ← hrest]
    | some i =>
      simp only [hcur] at h
      split_ifs at h with hfull
      · refine .inr (.inl ⟨Option.some_ne_none i, hfull, (Option.some_inj.mp h).symm⟩)
      · refine .inr (.inr ⟨Option.some_ne_none i, hfull, ?_⟩)
        exact (Option.some_inj.mp h).symm

end Endpoint

namespace Engine

open Work

variable {N batch : ℕ} {X : Party} {work : List Work} {R : ℕ} {x : Engine} {w : Work}

/-- Outside a draw nothing is under way. -/
theorem Ok.rest_nil (h : x.Ok N batch X work R) (hw : work[x.pos]? = some w)
    (hdraw : ∀ n, w ≠ .draw n) :
    x.rest = [] ∧ R * batch + (if x.curSlot = none then 0 else x.curOff) = drawnTo work x.pos := by
  rcases h.drawn with hnil | ⟨n, left, hn, -⟩
  · exact hnil
  · exact absurd (Option.some_inj.mp (hw.symm.trans hn)) (hdraw n)

/-- In a draw, `left` correlations are still to be drawn. -/
theorem Ok.rest_cons (h : x.Ok N batch X work R) {left : ℕ} {ns : List ℕ}
    (hrest : x.rest = left :: ns) : ns = [] ∧ ∃ n, work[x.pos]? = some (.draw n) ∧ left ≤ n
      ∧ R * batch + (if x.curSlot = none then 0 else x.curOff) + left
        = drawnTo work x.pos + n := by
  rcases h.drawn with ⟨hnil, -⟩ | ⟨n, left', hw, hrest', hle, hd⟩
  · rw [hrest] at hnil
    cases hnil
  · cases hrest.symm.trans hrest'
    exact ⟨rfl, n, hw, hle, hd⟩

theorem Ok.producerStep (h : x.Ok N batch X work R) {e : Endpoint} {peerEntered : ℕ}
    (hstep : x.producerStep peerEntered = some e) :
    { x with toEndpoint := e }.Ok N batch X work R := by
  have hentered := h.entered
  rcases Endpoint.producerStep_cases hstep with ⟨-, hdone, -⟩ | ⟨⟨hwait, -, -⟩, rfl⟩ |
    ⟨hround, -, rfl⟩
  · rw [h.done_eq] at hdone
    cases hdone
  · rw [hwait, if_neg (by decide), Nat.add_zero] at hentered
    exact { h with
      running := fun hx => by cases hx
      entered := congrArg (· + 1) hentered }
  · rw [hround, if_pos rfl] at hentered
    exact { h with
      running := fun hx => by cases hx
      entered := hentered
      slot := fun hcur => ⟨Nat.succ_pos _, (h.slot hcur).2⟩ }

/-- The engine is through with a piece of work that is not a draw. -/
theorem Ok.next (h : x.Ok N batch X work R) (hw : work[x.pos]? = some w)
    (hdraw : ∀ n, w ≠ .draw n) {sent flushed received : ℕ} {justFlushed : Bool}
    (hsent : sent = x.sent + w.sends X) (hreceived : received = x.received + w.sends X.peer)
    (hflushed : justFlushed = true → flushed = sent) (hlast : w = .flush → flushed = sent) :
    { x with pos := x.pos + 1, sent := sent, flushed := flushed, received := received,
             justFlushed := justFlushed }.Ok N batch X work R := by
  obtain ⟨hnil, hd⟩ := h.rest_nil hw hdraw
  have hdraws : w.draws = 0 := by
    cases w with
    | draw n => exact absurd rfl (hdraw n)
    | transfer Y n => rfl
    | flush => rfl
  exact { h with
    pos_le := (List.getElem?_eq_some_iff.mp hw).1
    drawn := .inl ⟨hnil, by rw [drawnTo_succ hw, hdraws, Nat.add_zero]; exact hd⟩
    sent := by rw [sentTo_succ X hw, ← h.sent]; exact hsent
    received := by rw [sentTo_succ X.peer hw, ← h.received]; exact hreceived
    flushed := hflushed
    last := fun k hk hflush => by
      obtain rfl : x.pos = k := Nat.succ_inj.mp hk
      exact hlast (Option.some_inj.mp (hw.symm.trans hflush)) }

/-- A flush in front of a call that may block. -/
theorem Ok.flushNow (h : x.Ok N batch X work R) :
    { x with flushed := x.sent, justFlushed := true }.Ok N batch X work R :=
  { h with
    flushed := fun _ => rfl
    last := fun _ _ _ => rfl }

theorem Ok.drawStep (h : x.Ok N batch X work R) (hbatch : 0 < batch) {left : ℕ} {ns : List ℕ}
    (hrest : x.rest = left :: ns) {e : Endpoint} (hstep : x.consumerStep = some e) :
    ∃ R', { x with toEndpoint := e, pos := if e.rest = [] then x.pos + 1 else x.pos,
                   justFlushed := false }.Ok N batch X work R' := by
  obtain ⟨rfl, n, hw, hle, hd⟩ := h.rest_cons hrest
  have hidle : ∀ k, x.pos = k + 1 → work[k]? = some .flush → x.flushed = x.sent := h.last
  have hsent := h.sent
  rcases Endpoint.drawStep_cases h.done_eq h.producerDone_eq hrest hstep with
    ⟨rfl, rfl⟩ | ⟨hcur, hcount, rfl⟩ | ⟨hcur, hfull, rfl⟩ | ⟨hcur, hpart, rfl⟩
  · -- the draw is complete
    refine ⟨R, ?_⟩
    rw [if_pos rfl]
    exact { h with
      pos_le := (List.getElem?_eq_some_iff.mp hw).1
      drawn := .inl ⟨rfl, (Nat.add_zero _).symm.trans (hd.trans (drawnTo_succ hw).symm)⟩
      sent := hsent.trans (sentTo_succ X hw).symm
      received := h.received.trans (sentTo_succ X.peer hw).symm
      flushed := fun hj => by cases hj
      last := fun k hk hflush => by
        obtain rfl : x.pos = k := Nat.succ_inj.mp hk
        cases hw.symm.trans hflush }
  · refine ⟨R, ?_⟩
    rw [if_neg (by rw [hrest]; exact List.cons_ne_nil _ _)]
    rw [if_pos hcur] at hd
    exact { h with
      slot := fun _ => ⟨hcount, hbatch⟩
      drawn := .inr ⟨n, left, hw, hrest, hle, hd⟩
      flushed := fun hj => by cases hj }
  · obtain ⟨hcount, hoff⟩ := h.slot hcur
    refine ⟨R + 1, ?_⟩
    rw [if_neg (List.cons_ne_nil _ _)]
    rw [if_neg hcur] at hd
    have htake : min left (x.batch - x.curOff) ≤ left := min_le_left _ _
    rw [h.batch_eq] at hfull htake
    have hreleased : R + 1 + (x.pipe.count - 1) = R + x.pipe.count := by omega
    exact { h with
      entered := h.entered.trans (by rw [← hreleased]; rfl)
      slot := fun hc => absurd rfl hc
      drawn := .inr ⟨n, _, hw, rfl, (Nat.sub_le _ _).trans hle, by
        show (R + 1) * batch + 0 + (left - min left (x.batch - x.curOff)) = _
        rw [h.batch_eq, ← hd, Nat.succ_mul]
        omega⟩
      flushed := fun hj => by cases hj }
  · obtain ⟨hcount, hoff⟩ := h.slot hcur
    refine ⟨R, ?_⟩
    rw [if_neg (List.cons_ne_nil _ _)]
    rw [if_neg hcur] at hd
    have htake : min left (x.batch - x.curOff) ≤ left := min_le_left _ _
    have hroom : min left (x.batch - x.curOff) ≤ x.batch - x.curOff := min_le_right _ _
    rw [h.batch_eq] at hpart htake hroom
    exact { h with
      slot := fun _ => ⟨hcount, by
        show x.curOff + min left (x.batch - x.curOff) < batch
        rw [h.batch_eq]
        omega⟩
      drawn := .inr ⟨n, _, hw, rfl, (Nat.sub_le _ _).trans hle, by
        show R * batch + (if x.curSlot = none then 0
          else x.curOff + min left (x.batch - x.curOff))
          + (left - min left (x.batch - x.curOff)) = _
        rw [if_neg hcur, h.batch_eq, ← hd]
        omega⟩
      flushed := fun hj => by cases hj }

theorem Ok.mainStep (h : x.Ok N batch X work R) (hbatch : 0 < batch) {peerFlushed : ℕ}
    {x' : Engine} (hstep : x.mainStep X work peerFlushed = some x') :
    ∃ R', x'.Ok N batch X work R' := by
  rw [Engine.mainStep] at hstep
  cases hw : work[x.pos]? with
  | none =>
    rw [hw] at hstep
    cases hstep
  | some w =>
    rw [hw] at hstep
    cases w with
    | draw n =>
      dsimp only at hstep
      split at hstep
      · next hrest =>
        cases hstep
        rcases h.drawn with ⟨-, hd⟩ | ⟨_, _, -, hrest', -⟩
        · exact ⟨R, { h with drawn := .inr ⟨n, n, hw, rfl, le_rfl, congrArg (· + n) hd⟩ }⟩
        · rw [hrest] at hrest'
          cases hrest'
      · next left ns hrest =>
        split_ifs at hstep with hflush
        · cases hstep
          exact ⟨R, h.flushNow⟩
        · obtain ⟨e, he, rfl⟩ := Option.map_eq_some_iff.mp hstep
          exact h.drawStep hbatch hrest he
    | transfer Y n =>
      dsimp only at hstep
      have hnot : ∀ m, Work.transfer Y n ≠ .draw m := fun m => Work.noConfusion
      split_ifs at hstep with hY hflush hready
      · cases hstep
        subst hY
        refine ⟨R, h.next hw hnot ?_ ?_ (fun hj => by cases hj) fun hf => by cases hf⟩
        · rw [sends, if_pos rfl]
        · rw [sends, if_neg (Party.ne_peer Y), Nat.add_zero]
      · cases hstep
        exact ⟨R, h.flushNow⟩
      · cases hstep
        obtain rfl : Y = X.peer := (X.eq_or_eq_peer Y).resolve_left hY
        refine ⟨R, h.next hw hnot ?_ ?_ (fun hj => by cases hj) fun hf => by cases hf⟩
        · rw [sends, if_neg (Party.peer_ne X), Nat.add_zero]
        · rw [sends, if_pos rfl]
    | flush =>
      cases hstep
      exact ⟨R, h.next hw (fun m => Work.noConfusion) rfl rfl (fun _ => rfl) fun _ => rfl⟩

/-! ## Where an engine blocks -/

/-- **An engine blocks** when its work is done, in `acquire_ready` on an empty ring, or in a
receive; before the two latter it has flushed. -/
theorem blocked_cases (hdone : x.pipe.done = false) (haborted : x.aborted = false)
    (hjoined : x.joined = false) {peerFlushed : ℕ} (h : x.mainStep X work peerFlushed = none) :
    work[x.pos]? = none
    ∨ (∃ n, work[x.pos]? = some (.draw n) ∧ x.justFlushed = true ∧ x.curSlot = none
        ∧ x.pipe.count = 0)
    ∨ ∃ n, work[x.pos]? = some (.transfer X.peer n) ∧ x.justFlushed = true
        ∧ peerFlushed < x.received + n := by
  rw [mainStep] at h
  cases hw : work[x.pos]? with
  | none => exact .inl rfl
  | some w =>
    rw [hw] at h
    refine .inr ?_
    cases w with
    | draw n =>
      dsimp only at h
      split at h
      · cases h
      · next left ns hrest =>
        split_ifs at h with hflush
        have hstep := Option.map_eq_none_iff.mp h
        rw [Endpoint.consumerStep, haborted, hjoined, hrest, if_neg (by decide)] at hstep
        cases left with
        | zero => cases hstep
        | succ left =>
          cases hcur : x.curSlot with
          | some i =>
            simp only [hcur] at hstep
            split_ifs at hstep
          | none =>
            simp only [hcur, CorrelationPipe.acquireReady, hdone] at hstep
            refine .inl ⟨n, rfl, ?_, rfl, ?_⟩
            · rw [← Bool.not_eq_false]
              exact fun hj => hflush ⟨Nat.succ_pos left, hcur, hj⟩
            · by_contra hcount
              have hpos := Nat.pos_of_ne_zero hcount
              simp [hpos] at hstep
    | transfer Y n =>
      dsimp only at h
      split_ifs at h with hY hflush hready
      obtain rfl : Y = X.peer := (X.eq_or_eq_peer Y).resolve_left hY
      exact .inr ⟨n, rfl, Bool.eq_true_of_not_eq_false hflush, not_le.mp hready⟩
    | flush => cases h

/-- A producer that cannot go on waits for room, or for the other producer. -/
theorem producer_blocked_cases {e : Endpoint} (hdone : e.pipe.done = false)
    (hrunning : e.producer ≠ .exited) {peerEntered : ℕ} (h : e.producerStep peerEntered = none) :
    (e.producer = .waiting ∧ e.pipe.N ≤ e.pipe.count)
    ∨ (e.producer = .inRound ∧ peerEntered < e.entered) := by
  rw [Endpoint.producerStep] at h
  cases hp : e.producer with
  | waiting =>
    simp only [hp, CorrelationPipe.acquireFree, hdone] at h
    refine .inl ⟨rfl, not_lt.mp fun hlt => ?_⟩
    simp [hlt] at h
  | inRound =>
    simp only [hp] at h
    split_ifs at h with hle
    exact .inr ⟨rfl, not_le.mp hle⟩
  | exited => exact absurd hp hrunning

end Engine

namespace Engines

open Engine Work

open Pipe (Thread)

variable {N : Party → ℕ} {batch : ℕ} {work : List Work} {s s' : State}

/-- Both parties' counters are in order. -/
def Inv (N : Party → ℕ) (batch : ℕ) (work : List Work) (s : State) : Prop :=
  ∀ X, ∃ R, (s X).Ok (N X) batch X work R

theorem init_inv (N : Party → ℕ) (batch : ℕ) (work : List Work) : Inv N batch work (init N batch) :=
  fun X => ⟨0, init_ok N batch X work⟩

theorem Inv.update (h : Inv N batch work s) {X : Party} {x : Engine}
    (hx : ∃ R, x.Ok (N X) batch X work R) : Inv N batch work (Function.update s X x) := by
  intro Y
  by_cases hY : Y = X
  · subst hY
    rw [Function.update_self]
    exact hx
  · rw [Function.update_of_ne hY]
    exact h Y

theorem step_inv (hbatch : 0 < batch) (h : Inv N batch work s) {t : Thread}
    (hstep : step work s t = some s') : Inv N batch work s' := by
  cases t with
  | consumer X =>
    obtain ⟨x, hx, rfl⟩ := Option.map_eq_some_iff.mp hstep
    obtain ⟨R, hR⟩ := h X
    exact h.update (hR.mainStep hbatch hx)
  | producer X =>
    obtain ⟨e, he, rfl⟩ := Option.map_eq_some_iff.mp hstep
    obtain ⟨R, hR⟩ := h X
    exact h.update ⟨R, hR.producerStep he⟩

/-- No thread can go on. -/
def Stuck (work : List Work) (s : State) : Prop := ∀ t, step work s t = none

theorem Stuck.engine (h : Stuck work s) (X : Party) :
    (s X).mainStep X work (s X.peer).flushed = none :=
  Option.map_eq_none_iff.mp (h (.consumer X))

theorem Stuck.producer (h : Stuck work s) (X : Party) :
    (s X).producerStep (s X.peer).entered = none :=
  Option.map_eq_none_iff.mp (h (.producer X))

theorem Inv.blocked (h : Inv N batch work s) (hstuck : Stuck work s) (X : Party) :
    work[(s X).pos]? = none
    ∨ (∃ n, work[(s X).pos]? = some (.draw n) ∧ (s X).justFlushed = true ∧ (s X).curSlot = none
        ∧ (s X).pipe.count = 0)
    ∨ ∃ n, work[(s X).pos]? = some (.transfer X.peer n) ∧ (s X).justFlushed = true
        ∧ (s X.peer).flushed < (s X).received + n := by
  obtain ⟨R, hR⟩ := h X
  exact blocked_cases hR.done_eq hR.aborted_eq hR.joined_eq (hstuck.engine X)

/-- In a stuck state everything that was sent has been flushed. -/
theorem Inv.flushed_eq (h : Inv N batch work s) (hstuck : Stuck work s)
    (hlast : work.getLast? = some .flush) (X : Party) : (s X).flushed = (s X).sent := by
  obtain ⟨R, hR⟩ := h X
  rcases h.blocked hstuck X with hdone | ⟨_, _, hj, _⟩ | ⟨_, _, hj, _⟩
  · obtain ⟨work₀, hwork⟩ := List.getLast?_eq_some_iff.mp hlast
    have hpos : (s X).pos = work.length := hR.pos_le.antisymm (List.getElem?_eq_none_iff.mp hdone)
    rw [hwork, List.length_append, List.length_singleton] at hpos
    refine hR.last _ hpos ?_
    rw [hwork, List.getElem?_append_right le_rfl, Nat.sub_self]
    rfl
  · exact hR.flushed hj
  · exact hR.flushed hj

/-- An engine that waits for a message is ahead of the one that is to send it. -/
theorem Inv.lt_of_receives (h : Inv N batch work s) (hstuck : Stuck work s)
    (hlast : work.getLast? = some .flush) {X : Party} {n : ℕ}
    (hw : work[(s X).pos]? = some (.transfer X.peer n))
    (hwait : (s X.peer).flushed < (s X).received + n) : (s X.peer).pos < (s X).pos := by
  obtain ⟨R, hR⟩ := h X
  obtain ⟨R', hR'⟩ := h X.peer
  by_contra hle
  rcases (not_lt.mp hle).eq_or_lt with heq | hlt
  · -- the other engine is about to send the message, and would not be blocked
    rw [heq] at hw
    rcases h.blocked hstuck X.peer with hnone | ⟨m, hdraw, -⟩ | ⟨m, hrecv, -⟩
    · rw [hw] at hnone
      cases hnone
    · rw [hw] at hdraw
      cases hdraw
    · rw [hw, Party.peer_peer] at hrecv
      injection hrecv with hrecv
      injection hrecv with hX _
      exact absurd hX (Party.peer_ne X)
  · -- it has sent the message, and flushed
    have hmono := sentTo_mono work X.peer hlt
    rw [Nat.succ_eq_add_one, sentTo_succ X.peer hw, sends, if_pos rfl, ← hR.received,
      ← hR'.sent, ← h.flushed_eq hstuck hlast X.peer] at hmono
    exact absurd hmono hwait.not_ge

/-- An engine that waits for a round is not ahead, and the ring of the other one is not empty. -/
theorem Inv.le_of_draws (hbatch : 0 < batch) (hN : ∀ X, 0 < N X) (h : Inv N batch work s)
    (hstuck : Stuck work s) {X : Party} (hcur : (s X).curSlot = none)
    (hcount : (s X).pipe.count = 0) :
    (s X.peer).pos ≤ (s X).pos ∧ (s X.peer).pipe.count ≠ 0 := by
  obtain ⟨R, hR⟩ := h X
  obtain ⟨R', hR'⟩ := h X.peer
  have hentered := hR.entered
  have hentered' := hR'.entered
  have hpeer := hstuck.producer X.peer
  rw [Party.peer_peer] at hpeer
  -- `X`'s producer is in the round that `X` waits for; the other one has no room for it
  rcases producer_blocked_cases hR.done_eq hR.running (hstuck.producer X) with ⟨-, hfull⟩ |
    ⟨hround, hbehind⟩
  · rw [hcount, hR.N_eq] at hfull
    exact absurd (hN X) hfull.not_gt
  · rw [hround, if_pos rfl, hcount, Nat.add_zero] at hentered
    rcases producer_blocked_cases hR'.done_eq hR'.running hpeer with ⟨hwait, hfull⟩ |
      ⟨-, hbehind'⟩
    · rw [hwait, if_neg (by decide), Nat.add_zero] at hentered'
      rw [hR'.N_eq] at hfull
      have hroom : 0 < (s X.peer).pipe.count := (hN X.peer).trans_le hfull
      have hreleased : R' < R := by omega
      refine ⟨not_lt.mp fun hlt => ?_, hroom.ne'⟩
      -- it has drawn less, and so it cannot be ahead
      have hdrawn := hR.drawn.le.2
      have hdrawn' := hR'.drawn.le.1
      have hmono := drawnTo_mono work hlt
      rw [if_pos hcur, Nat.add_zero] at hdrawn
      have hless : R' * batch + (if (s X.peer).curSlot = none then 0 else (s X.peer).curOff)
          < R * batch := by
        have hoff : (if (s X.peer).curSlot = none then 0 else (s X.peer).curOff) < batch := by
          split_ifs with hc
          · exact hbatch
          · exact (hR'.slot hc).2
        calc R' * batch + _ < R' * batch + batch := Nat.add_lt_add_left hoff _
          _ = (R' + 1) * batch := (Nat.succ_mul R' batch).symm
          _ ≤ R * batch := Nat.mul_le_mul_right batch hreleased
      exact absurd (hdrawn.trans (hmono.trans hdrawn')) hless.not_ge
    · exact absurd (hbehind.trans hbehind') (Nat.lt_irrefl _)

/-- **While the work of one party is not done, some thread can go on.** -/
theorem exists_step (hbatch : 0 < batch) (hN : ∀ X, 0 < N X) (h : Inv N batch work s)
    (hlast : work.getLast? = some .flush) {X : Party} (hX : (s X).pos ≠ work.length) :
    ∃ t s', step work s t = some s' := by
  by_contra hnone
  have hstuck : Stuck work s := fun t =>
    Option.eq_none_iff_forall_ne_some.mpr fun s' hs' => hnone ⟨t, s', hs'⟩
  have hunfinished : ∀ Y, (s Y).pos < work.length → work[(s Y).pos]? ≠ none := fun Y hY => by
    rw [List.getElem?_eq_getElem hY]
    exact Option.some_ne_none _
  -- nobody waits for a round: the other party would be behind, and wait for a message
  have hdraw : ∀ Y n, work[(s Y).pos]? = some (.draw n) → (s Y).curSlot = none →
      (s Y).pipe.count = 0 → False := by
    intro Y n hw hcur hcount
    obtain ⟨hle, hne⟩ := h.le_of_draws hbatch hN hstuck hcur hcount
    have hY := (List.getElem?_eq_some_iff.mp hw).1
    rcases h.blocked hstuck Y.peer with hdone | ⟨_, _, _, _, h0⟩ | ⟨m, hrecv, -, hwait⟩
    · exact hunfinished Y.peer (hle.trans_lt hY) hdone
    · exact hne h0
    · have hlt := h.lt_of_receives hstuck hlast hrecv hwait
      rw [Party.peer_peer] at hlt
      exact absurd hle hlt.not_ge
  -- two parties cannot wait for each other's messages, each ahead of the other
  obtain ⟨R, hR⟩ := h X
  have hXlt := lt_of_le_of_ne hR.pos_le hX
  rcases h.blocked hstuck X with hdone | ⟨n, hw, _, hcur, hcount⟩ | ⟨n, hrecv, -, hwait⟩
  · exact hunfinished X hXlt hdone
  · exact hdraw X n hw hcur hcount
  · have hlt := h.lt_of_receives hstuck hlast hrecv hwait
    rcases h.blocked hstuck X.peer with
      hdone | ⟨n', hw', _, hcur', hcount'⟩ | ⟨n', hrecv', -, hwait'⟩
    · exact hunfinished X.peer (hlt.trans hXlt) hdone
    · exact hdraw X.peer n' hw' hcur' hcount'
    · have hlt' := h.lt_of_receives hstuck hlast hrecv' hwait'
      rw [Party.peer_peer] at hlt'
      exact absurd hlt hlt'.not_gt

/-- **Background mode cannot deadlock before teardown**, if both engines flush at the end: whatever
the sizes of the two rings, the work and the interleaving, while one engine has work left some
thread can go on. -/
theorem never_stuck (N : Party → ℕ) (hN : ∀ X, 0 < N X) {batch : ℕ} (hbatch : 0 < batch)
    (work : List Work) {acts : List Thread} {s : State}
    (hrun : Runs.run (step (work ++ [.flush])) (init N batch) acts = some s) {X : Party}
    (hX : (s X).pos ≠ (work ++ [Work.flush]).length) :
    ∃ t s', step (work ++ [.flush]) s t = some s' :=
  exists_step hbatch hN
    (Runs.invariant_of_run (fun hinv hstep => step_inv hbatch hinv hstep)
      (init_inv N batch (work ++ [.flush])) hrun)
    List.getLast?_concat hX

/-- A message of BOB with nothing behind it, on rings of one slot: both producers fill their slot,
BOB sends, and ALICE gets as far as the receive. -/
def unflushedRun : Option State :=
  Runs.run (step [.transfer .bob 1]) (init (fun _ => 1) 1)
    [.producer .alice, .producer .bob, .producer .alice, .producer .bob, .consumer .bob,
      .consumer .alice]

theorem unflushedRun_isSome : unflushedRun.isSome = true := by decide

/-- **Without the flush at the end an engine can be stuck**: ALICE has not received the message,
and no thread can go on. -/
theorem unflushed_tail : ∃ acts s,
    Runs.run (step [.transfer .bob 1]) (init (fun _ => 1) 1) acts = some s
    ∧ (s .alice).pos ≠ [Work.transfer .bob 1].length ∧ Stuck [.transfer .bob 1] s := by
  refine ⟨_, _, (Option.some_get unflushedRun_isSome).symm, by decide, fun t => ?_⟩
  cases t with
  | consumer X => cases X <;> rfl
  | producer X => cases X <;> rfl

/-- The same message with the flush, in the same run. -/
def flushedRun : Option State :=
  Runs.run (step ([.transfer .bob 1] ++ [.flush])) (init (fun _ => 1) 1)
    [.producer .alice, .producer .bob, .producer .alice, .producer .bob, .consumer .bob,
      .consumer .alice]

theorem flushedRun_isSome : flushedRun.isSome = true := by decide

theorem never_stuck_message : ∃ t s',
    step ([.transfer .bob 1] ++ [.flush]) (flushedRun.get flushedRun_isSome) t = some s' :=
  never_stuck (fun _ => 1) (fun _ => Nat.one_pos) Nat.one_pos [.transfer .bob 1]
    (Option.some_get flushedRun_isSome).symm (X := .alice) (by decide)

end Engines

end VoleZk
