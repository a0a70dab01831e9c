import VoleZk.Lib.Runs
import Mathlib.Data.List.Basic

/-!
# The cooperative finish

Every party has a control connection to each other one and a watchdog thread that listens on all of
them.  A party whose checks fail tells everybody and exits; one whose checks pass tells everybody
that it is done and waits for its watchdog, which drops a peer when that one is done, and takes the
process down when a peer aborts or is gone.

The messages of `stop()` are sent one after the other.  So a party may have returned from
`finalize()` while another one, through with its checks, has told that party but not all others,
and never will if it crashes then.  What a party that returned does know is that everybody passed
and told *it*.

## What is here

* `FinishState.step` — main threads, watchdogs and crashes, in any order;
* `FinishState.Inv` — what the flags and the poll set of a party say about the others;
* `FinishState.finish_all_or_nothing` — **a party that returned from `finalize()` has everybody's
  word, and nobody failed**;
* `FinishState.finish_cut_short` — a crash between two messages of `stop()`.
-/

set_option autoImplicit false

namespace VoleZk.Mvzk

/-! ## The parties -/

/-- A message on a control connection. -/
inductive CtrlMsg where
  /-- `ABORT`. -/
  | abort
  /-- `DONE`. -/
  | done
  deriving DecidableEq

/-- Where the main thread of a party is. -/
inductive MainPhase where
  /-- It runs the protocol and its checks. -/
  | checking
  /-- In the loop of `stop()`, at peer `j`. -/
  | stopping (j : ℕ)
  /-- In `th.join()`. -/
  | joining
  /-- `finalize()` has returned. -/
  | returned
  /-- In the loop of `fail()`, at peer `j`. -/
  | failing (j : ℕ)
  /-- The process is gone. -/
  | dead
  deriving DecidableEq

/-- A party: its main thread and its `AbortGuard`. -/
structure Guard where
  /-- The main thread. -/
  main : MainPhase
  /-- `who`, the peers in the poll set. -/
  who : List ℕ
  /-- The watchdog has not returned. -/
  watching : Bool
  /-- `aborting`. -/
  aborting : Bool
  /-- How many messages it has read from each peer. -/
  read : ℕ → ℕ
  /-- History: how its checks came out. -/
  verdict : Option Bool
  /-- History: `finalize()` has returned. -/
  finalized : Bool

/-- All parties, and what each wrote to the control connection with each other. -/
structure FinishState where
  /-- The parties. -/
  party : ℕ → Guard
  /-- From the first to the second. -/
  sent : ℕ → ℕ → List CtrlMsg

/-- What happens next. -/
inductive FinishAction where
  /-- The checks of party `i` pass: it enters `stop()`. -/
  | pass (i : ℕ)
  /-- A check fails: `mvzk_fail`. -/
  | fail (i : ℕ)
  /-- A check fails with `error`, which tells nobody. -/
  | error (i : ℕ)
  /-- The next turn of the loop that `i` is in, or the end of `join()`. -/
  | main (i : ℕ)
  /-- The watchdog of `i` finds something on the connection with `j`. -/
  | poll (i j : ℕ)
  /-- The poll set of `i` is empty: its watchdog returns. -/
  | leave (i : ℕ)
  /-- The process of `i` crashes, or ends after `finalize()`. -/
  | gone (i : ℕ)

namespace FinishState

/-- Before any party is through. -/
def init (P : ℕ) : FinishState where
  party i :=
    ⟨.checking, (List.range P).filter fun j => j != i, true, false, fun _ => 0, none, false⟩
  sent _ _ := []

variable (s : FinishState)

/-- Another state of party `i`. -/
def setParty (i : ℕ) (p : Guard) : FinishState :=
  { s with party := Function.update s.party i p }

/-- `send_msg`. -/
def sendMsg (i j : ℕ) (m : CtrlMsg) : FinishState :=
  { s with sent := Function.update s.sent i (Function.update (s.sent i) j (s.sent i j ++ [m])) }

/-- One turn of the loops of `stop()` and `fail()`. -/
def tell (i j : ℕ) (m : CtrlMsg) : FinishState := if j = i then s else s.sendMsg i j m

variable (P : ℕ)

/-- The main thread of `i`, in `stop()` or `fail()`.  A party finalizes once: the early return of a
second `stop()`, that of the destructor included, and `stop(false)` are not steps. -/
def mainStep (i : ℕ) : Option FinishState :=
  let p := s.party i
  match p.main with
  | .stopping j =>
    if j < P then some ((s.tell i j .done).setParty i { p with main := .stopping (j + 1) })
    else some (s.setParty i { p with main := .joining })
  | .joining =>
    if p.watching then none else some (s.setParty i { p with main := .returned, finalized := true })
  | .failing j =>
    if j < P then some ((s.tell i j .abort).setParty i { p with main := .failing (j + 1) })
    else some (s.setParty i { p with main := .dead })
  | _ => none

/-- The watchdog of `i` at peer `j`: a message, or the end of the connection.  `poll` itself does
not fail. -/
def pollStep (i j : ℕ) : Option FinishState :=
  let p := s.party i
  let lost : FinishState := s.setParty i
    (if p.aborting then { p with watching := false } else { p with main := .dead })
  if p.watching ∧ j ∈ p.who then
    match (s.sent j i)[p.read j]? with
    | some .done => some (s.setParty i
        { p with who := p.who.erase j, read := Function.update p.read j (p.read j + 1) })
    | some .abort => some lost
    | none => if (s.party j).main = .dead then some lost else none
  else none

/-- A process that is gone does nothing more. -/
def step (s : FinishState) : FinishAction → Option FinishState
  | .pass i =>
    if i < P ∧ (s.party i).main = .checking then
      some (s.setParty i { s.party i with main := .stopping 0, verdict := some true })
    else none
  | .fail i =>
    if i < P ∧ (s.party i).main = .checking then
      some (s.setParty i
        { s.party i with main := .failing 0, aborting := true, verdict := some false })
    else none
  | .error i =>
    if i < P ∧ (s.party i).main = .checking then
      some (s.setParty i { s.party i with main := .dead, verdict := some false })
    else none
  | .main i => if i < P then s.mainStep P i else none
  | .poll i j => if i < P ∧ (s.party i).main ≠ .dead then s.pollStep i j else none
  | .leave i =>
    if i < P ∧ (s.party i).main ≠ .dead ∧ (s.party i).who = [] then
      some (s.setParty i { s.party i with watching := false })
    else none
  | .gone i => if i < P then some (s.setParty i { s.party i with main := .dead }) else none

end FinishState

/-! ## What the flags say -/

/-- What the flags of a party say about it. -/
structure Guard.Ok (p : Guard) : Prop where
  /-- Its checks are not over. -/
  checking : p.main = .checking → p.verdict = none
  /-- They passed. -/
  stopping : ∀ j, p.main = .stopping j → p.verdict = some true
  /-- They passed. -/
  joining : p.main = .joining → p.verdict = some true
  /-- They failed. -/
  aborting : p.aborting → p.verdict = some false
  /-- The watchdog leaves when nobody is left, or in an abort. -/
  watching : p.watching = false → p.who = [] ∨ p.aborting
  /-- The watchdog had left. -/
  finalized : p.finalized → p.verdict = some true ∧ p.who = []

/-- A party whose checks are not over neither aborts nor has it finished. -/
theorem Guard.Ok.undecided {p : Guard} (h : p.Ok) (hmain : p.main = .checking) :
    p.aborting = false ∧ p.finalized = false := by
  have hnone := h.checking hmain
  constructor
  · by_contra haborting
    have hfalse := h.aborting (by simpa using haborting)
    exact absurd (hnone.symm.trans hfalse) (by simp)
  · by_contra hfinalized
    have htrue := (h.finalized (by simpa using hfinalized)).1
    exact absurd (hnone.symm.trans htrue) (by simp)

namespace FinishState

variable {P : ℕ} {s : FinishState}

/-- Party `i` has told `j` that it is done. -/
def Told (s : FinishState) (i j : ℕ) : Prop := .done ∈ s.sent i j

/-- How far party `i` is with telling the others. -/
structure Telling (P : ℕ) (s : FinishState) (i : ℕ) (p : Guard) : Prop where
  /-- The peers before the one the loop is at. -/
  stopping : ∀ k, p.main = .stopping k → ∀ j < k, j ≠ i → s.Told i j
  /-- All of them. -/
  joining : p.main = .joining → ∀ j < P, j ≠ i → s.Told i j
  /-- All of them. -/
  finalized : p.finalized → ∀ j < P, j ≠ i → s.Told i j

/-- What holds in every reachable state. -/
structure Inv (P : ℕ) (s : FinishState) : Prop where
  /-- The flags. -/
  ok : ∀ i, (s.party i).Ok
  /-- A party that is done has passed its checks. -/
  told : ∀ i j, s.Told i j → (s.party i).verdict = some true
  /-- A peer is dropped from the poll set when it is done. -/
  dropped : ∀ i, ∀ j < P, j ≠ i → j ∉ (s.party i).who → s.Told j i
  /-- The loop of `stop()`. -/
  telling : ∀ i, s.Telling P i (s.party i)

theorem inv_init (P : ℕ) : (init P).Inv P where
  ok _ := ⟨fun _ => rfl, by simp [init], by simp [init], by simp [init], by simp [init],
    by simp [init]⟩
  told _ _ h := absurd h (by simp [init, Told])
  dropped i j hj hji h := absurd (List.mem_filter.mpr ⟨List.mem_range.mpr hj, by simpa⟩) h
  telling _ := ⟨by simp [init], by simp [init], by simp [init]⟩

/-- A step of one party that tells nobody anything. -/
theorem Inv.setParty (h : s.Inv P) {i : ℕ} {p : Guard} (hok : p.Ok)
    (hverdict : (s.party i).verdict = some true → p.verdict = some true)
    (hdropped : ∀ j < P, j ≠ i → j ∉ p.who → s.Told j i) (htelling : s.Telling P i p) :
    (s.setParty i p).Inv P := by
  have hself : (s.setParty i p).party i = p := Function.update_self ..
  have hother : ∀ i', i' ≠ i → (s.setParty i p).party i' = s.party i' := fun i' hi =>
    Function.update_of_ne hi ..
  refine ⟨fun i' => ?_, fun i' j hj => ?_, fun i' => ?_, fun i' => ?_⟩
  · by_cases hi : i' = i
    · subst hi
      rwa [hself]
    · rw [hother i' hi]
      exact h.ok i'
  · by_cases hi : i' = i
    · subst hi
      rw [hself]
      exact hverdict (h.told i' j hj)
    · rw [hother i' hi]
      exact h.told i' j hj
  · by_cases hi : i' = i
    · subst hi
      rw [hself]
      exact hdropped
    · rw [hother i' hi]
      exact h.dropped i'
  · by_cases hi : i' = i
    · subst hi
      rw [hself]
      exact ⟨htelling.stopping, htelling.joining, htelling.finalized⟩
    · rw [hother i' hi]
      exact ⟨(h.telling i').stopping, (h.telling i').joining, (h.telling i').finalized⟩

/-- What was told stays told. -/
theorem Told.sendMsg {i j : ℕ} (h : s.Told i j) (i' j' : ℕ) (m : CtrlMsg) :
    (s.sendMsg i' j' m).Told i j := by
  by_cases hi : i = i'
  · subst hi
    by_cases hj : j = j'
    · subst hj
      simp only [Told, FinishState.sendMsg, Function.update_self]
      exact List.mem_append_left _ h
    · simp only [Told, FinishState.sendMsg, Function.update_self, Function.update_of_ne hj]
      exact h
  · simp only [Told, FinishState.sendMsg, Function.update_of_ne hi]
    exact h

/-- Nothing is told but the message. -/
theorem told_of_sendMsg {i j i' j' : ℕ} {m : CtrlMsg} (h : (s.sendMsg i' j' m).Told i j) :
    s.Told i j ∨ (i = i' ∧ m = .done) := by
  by_cases hi : i = i'
  · subst hi
    by_cases hj : j = j'
    · subst hj
      simp only [Told, FinishState.sendMsg, Function.update_self, List.mem_append,
        List.mem_singleton] at h
      exact h.imp id fun hm => ⟨rfl, hm.symm⟩
    · simp only [Told, FinishState.sendMsg, Function.update_self, Function.update_of_ne hj] at h
      exact Or.inl h
  · simp only [Told, FinishState.sendMsg, Function.update_of_ne hi] at h
    exact Or.inl h

theorem Telling.sendMsg {i : ℕ} {p : Guard} (h : s.Telling P i p) (i' j' : ℕ) (m : CtrlMsg) :
    (s.sendMsg i' j' m).Telling P i p where
  stopping k hk j hj hji := (h.stopping k hk j hj hji).sendMsg i' j' m
  joining hjoin j hj hji := (h.joining hjoin j hj hji).sendMsg i' j' m
  finalized hfin j hj hji := (h.finalized hfin j hj hji).sendMsg i' j' m

/-- **A message**: only a party that passed its checks says that it is done. -/
theorem Inv.tell (h : s.Inv P) {i : ℕ} {m : CtrlMsg}
    (hm : m = .done → (s.party i).verdict = some true) (j : ℕ) : (s.tell i j m).Inv P := by
  rw [FinishState.tell]
  split
  · exact h
  · refine ⟨h.ok, fun i' j' htold => ?_, fun i' j' hj hji hwho => ?_, fun i' => ?_⟩
    · rcases told_of_sendMsg htold with hold | ⟨rfl, hdone⟩
      · exact h.told i' j' hold
      · exact hm hdone
    · exact (h.dropped i' j' hj hji hwho).sendMsg ..
    · exact (h.telling i').sendMsg ..

@[simp] theorem tell_party (s : FinishState) (i j : ℕ) (m : CtrlMsg) :
    (s.tell i j m).party = s.party := by
  rw [FinishState.tell]
  split <;> rfl

theorem told_tell {i j : ℕ} (hji : j ≠ i) : (s.tell i j .done).Told i j := by
  simp [Told, FinishState.tell, FinishState.sendMsg, hji]

/-- The process of a party is gone. -/
theorem Inv.gone (h : s.Inv P) (i : ℕ) :
    (s.setParty i { s.party i with main := .dead }).Inv P := by
  have hok := h.ok i
  refine h.setParty ⟨by simp, by simp, by simp, hok.aborting, hok.watching, hok.finalized⟩ id
    (h.dropped i) ⟨by simp, by simp, (h.telling i).finalized⟩

theorem Inv.mainStep (h : s.Inv P) {i : ℕ} {s' : FinishState}
    (hstep : s.mainStep P i = some s') : s'.Inv P := by
  have hok := h.ok i
  have htelling := h.telling i
  rw [FinishState.mainStep] at hstep
  split at hstep
  · rename_i j hmain
    have hpassed := hok.stopping j hmain
    split at hstep
    · obtain rfl := Option.some_inj.mp hstep
      have h' := h.tell (m := .done) (fun _ => hpassed) j
      have htelling' := h'.telling i
      rw [tell_party] at htelling'
      refine h'.setParty ⟨by simp, fun _ _ => hpassed, by simp, hok.aborting, hok.watching,
        hok.finalized⟩ (fun _ => hpassed) ?_ ⟨fun k hk j' hj' hji => ?_, by simp, ?_⟩
      · simpa using h'.dropped i
      · obtain rfl := MainPhase.stopping.inj hk
        rcases Nat.lt_succ_iff_lt_or_eq.mp hj' with hlt | rfl
        · exact htelling'.stopping j hmain j' hlt hji
        · exact told_tell hji
      · exact htelling'.finalized
    · rename_i hj
      obtain rfl := Option.some_inj.mp hstep
      refine h.setParty ⟨by simp, by simp, fun _ => hpassed, hok.aborting, hok.watching,
        hok.finalized⟩ id (h.dropped i) ⟨by simp, fun _ j' hj' => ?_, htelling.finalized⟩
      exact htelling.stopping j hmain j' (Nat.lt_of_lt_of_le hj' (Nat.not_lt.mp hj))
  · rename_i hmain
    have hpassed := hok.joining hmain
    split at hstep
    · exact absurd hstep (by simp)
    · rename_i hwatching
      obtain rfl := Option.some_inj.mp hstep
      have hwho : (s.party i).who = [] := by
        refine (hok.watching (by simpa using hwatching)).resolve_right fun haborting => ?_
        exact absurd (hpassed.symm.trans (hok.aborting haborting)) (by simp)
      refine h.setParty ⟨by simp, by simp, by simp, hok.aborting, hok.watching,
        fun _ => ⟨hpassed, hwho⟩⟩ id (h.dropped i) ⟨by simp, by simp, fun _ => ?_⟩
      exact htelling.joining hmain
  · rename_i j hmain
    split at hstep
    · obtain rfl := Option.some_inj.mp hstep
      have h' := h.tell (i := i) (m := .abort) (by simp) j
      have htelling' := h'.telling i
      rw [tell_party] at htelling'
      refine h'.setParty ⟨by simp, by simp, by simp, hok.aborting, hok.watching, hok.finalized⟩
        (by simp) ?_ ⟨by simp, by simp, htelling'.finalized⟩
      simpa using h'.dropped i
    · obtain rfl := Option.some_inj.mp hstep
      exact h.gone i
  · exact absurd hstep (by simp)

theorem Inv.pollStep (h : s.Inv P) {i j : ℕ} {s' : FinishState}
    (hstep : s.pollStep i j = some s') : s'.Inv P := by
  have hok := h.ok i
  have htelling := h.telling i
  -- the watchdog leaves in an abort, and takes the process down otherwise
  have hlost : (s.setParty i (if (s.party i).aborting then { s.party i with watching := false }
      else { s.party i with main := .dead })).Inv P := by
    split
    · rename_i haborting
      exact h.setParty ⟨hok.checking, hok.stopping, hok.joining, hok.aborting,
        fun _ => Or.inr haborting, hok.finalized⟩ id (h.dropped i)
        ⟨htelling.stopping, htelling.joining, htelling.finalized⟩
    · exact h.gone i
  rw [FinishState.pollStep] at hstep
  obtain ⟨⟨hwatching, hwho⟩, hmsg⟩ := Option.ite_none_right_eq_some.mp hstep
  split at hmsg
  · rename_i hdone
    obtain rfl := Option.some_inj.mp hmsg
    refine h.setParty ⟨hok.checking, hok.stopping, hok.joining, hok.aborting,
      fun hleft => absurd (hwatching.symm.trans hleft) (by simp), fun hfin => ?_⟩ id
      (fun j' hj' hji hwho' => ?_) ⟨htelling.stopping, htelling.joining, htelling.finalized⟩
    · exact absurd ((hok.finalized hfin).2 ▸ hwho) List.not_mem_nil
    · by_cases hj : j' = j
      · subst hj
        exact List.mem_of_getElem? hdone
      · exact h.dropped i j' hj' hji fun hmem => hwho' ((List.mem_erase_of_ne hj).mpr hmem)
  · obtain rfl := Option.some_inj.mp hmsg
    exact hlost
  · obtain ⟨-, hdead⟩ := Option.ite_none_right_eq_some.mp hmsg
    obtain rfl := Option.some_inj.mp hdead
    exact hlost

/-- **One step.** -/
theorem Inv.step (h : s.Inv P) {a : FinishAction} {s' : FinishState}
    (hstep : s.step P a = some s') : s'.Inv P := by
  cases a with
  | pass i =>
    obtain ⟨⟨-, hmain⟩, hset⟩ := Option.ite_none_right_eq_some.mp hstep
    obtain rfl := Option.some_inj.mp hset
    obtain ⟨haborting, hfinalized⟩ := (h.ok i).undecided hmain
    exact h.setParty ⟨by simp, fun _ _ => rfl, by simp, by simp [haborting], (h.ok i).watching,
      by simp [hfinalized]⟩ (fun _ => rfl) (h.dropped i) ⟨by simp, by simp, by simp [hfinalized]⟩
  | fail i =>
    obtain ⟨⟨-, hmain⟩, hset⟩ := Option.ite_none_right_eq_some.mp hstep
    obtain rfl := Option.some_inj.mp hset
    obtain ⟨-, hfinalized⟩ := (h.ok i).undecided hmain
    exact h.setParty ⟨by simp, by simp, by simp, fun _ => rfl, fun _ => Or.inr rfl,
      by simp [hfinalized]⟩ (by simp [(h.ok i).checking hmain]) (h.dropped i)
      ⟨by simp, by simp, by simp [hfinalized]⟩
  | error i =>
    obtain ⟨⟨-, hmain⟩, hset⟩ := Option.ite_none_right_eq_some.mp hstep
    obtain rfl := Option.some_inj.mp hset
    obtain ⟨haborting, hfinalized⟩ := (h.ok i).undecided hmain
    exact h.setParty ⟨by simp, by simp, by simp, by simp [haborting], (h.ok i).watching,
      by simp [hfinalized]⟩ (by simp [(h.ok i).checking hmain]) (h.dropped i)
      ⟨by simp, by simp, by simp [hfinalized]⟩
  | main i =>
    obtain ⟨-, hmain⟩ := Option.ite_none_right_eq_some.mp hstep
    exact h.mainStep hmain
  | poll i j =>
    obtain ⟨-, hpoll⟩ := Option.ite_none_right_eq_some.mp hstep
    exact h.pollStep hpoll
  | leave i =>
    obtain ⟨⟨-, -, hwho⟩, hset⟩ := Option.ite_none_right_eq_some.mp hstep
    obtain rfl := Option.some_inj.mp hset
    have hok := h.ok i
    have htelling := h.telling i
    exact h.setParty ⟨hok.checking, hok.stopping, hok.joining, hok.aborting, fun _ => Or.inl hwho,
      hok.finalized⟩ id (h.dropped i) ⟨htelling.stopping, htelling.joining, htelling.finalized⟩
  | gone i =>
    obtain ⟨-, hset⟩ := Option.ite_none_right_eq_some.mp hstep
    obtain rfl := Option.some_inj.mp hset
    exact h.gone i

theorem inv_of_run {as : List FinishAction} {s : FinishState}
    (hrun : Runs.run (FinishState.step P) (init P) as = some s) : s.Inv P :=
  Runs.invariant_of_run (fun h hstep => h.step hstep) (inv_init P) hrun

/-! ## All or nothing -/

/-- **All or nothing.**  When a party has returned from `finalize()`, every party has passed its
checks and told that party that it is done; so no party has failed a check, and none is gone without
having said so.  And that party has told all others. -/
theorem finish_all_or_nothing {as : List FinishAction} {s : FinishState}
    (hrun : Runs.run (FinishState.step P) (init P) as = some s) {i : ℕ}
    (hfinalized : (s.party i).finalized) :
    (∀ j < P, (s.party j).verdict = some true ∧ (j ≠ i → s.Told j i ∧ s.Told i j)) ∧
      ∀ j < P, j ≠ i → (s.party j).verdict ≠ some false ∧
        ¬((s.party j).main = .dead ∧ ¬s.Told j i) := by
  have h := inv_of_run hrun
  obtain ⟨hpassed, hwho⟩ := (h.ok i).finalized hfinalized
  have htold : ∀ j < P, j ≠ i → s.Told j i := fun j hj hji =>
    h.dropped i j hj hji (hwho ▸ List.not_mem_nil)
  have hverdict : ∀ j < P, (s.party j).verdict = some true := fun j hj => by
    by_cases hji : j = i
    · exact hji ▸ hpassed
    · exact h.told j i (htold j hj hji)
  refine ⟨fun j hj => ⟨hverdict j hj, fun hji => ⟨htold j hj hji, ?_⟩⟩, fun j hj hji => ⟨?_, ?_⟩⟩
  · exact (h.telling i).finalized hfinalized j hj hji
  · rw [hverdict j hj]
    simp
  · exact fun hcrash => hcrash.2 (htold j hj hji)

/-- Three parties pass; the first two tell everybody, and the third tells the first. -/
def allPass : List FinishAction :=
  [.pass 0, .pass 1, .pass 2, .main 0, .main 0, .main 0, .main 0, .main 1, .main 1, .main 1,
    .main 1, .main 2]

/-- The first returns. -/
def firstReturns : List FinishAction := [.poll 0 1, .poll 0 2, .leave 0, .main 0]

theorem finish_all_or_nothing_three : ∃ s, Runs.run (step 3) (init 3) (allPass ++ firstReturns)
    = some s ∧ (s.party 0).finalized ∧ (s.party 2).verdict = some true ∧ s.Told 2 0 := by
  obtain ⟨s, hrun⟩ : ∃ s, Runs.run (step 3) (init 3) (allPass ++ firstReturns) = some s :=
    Option.isSome_iff_exists.mp (by decide)
  have hfinalized : (Runs.run (step 3) (init 3) (allPass ++ firstReturns)).map
      (fun s => (s.party 0).finalized) = some true := by decide
  rw [hrun, Option.map_some, Option.some_inj] at hfinalized
  obtain ⟨hverdict, htold⟩ := (finish_all_or_nothing hrun hfinalized).1 2 (by decide)
  exact ⟨s, hrun, hfinalized, hverdict, (htold (by decide)).1⟩

/-- **A crash between two messages of `stop()`**: the first party returns from `finalize()`, and the
third, which has told it, is gone without having told the second. -/
theorem finish_cut_short : ∃ s, Runs.run (step 3) (init 3)
      (allPass ++ [.gone 2] ++ firstReturns) = some s ∧ (s.party 0).finalized ∧
    (s.party 2).main = .dead ∧ ¬s.Told 2 1 := by
  obtain ⟨s, hrun⟩ : ∃ s, Runs.run (step 3) (init 3) (allPass ++ [.gone 2] ++ firstReturns)
    = some s := Option.isSome_iff_exists.mp (by decide)
  have hstate : (Runs.run (step 3) (init 3) (allPass ++ [.gone 2] ++ firstReturns)).map
      (fun s => ((s.party 0).finalized, (s.party 2).main, s.sent 2 1))
      = some (true, .dead, []) := by decide
  rw [hrun, Option.map_some, Option.some_inj, Prod.mk.injEq, Prod.mk.injEq] at hstate
  refine ⟨s, hrun, hstate.1, hstate.2.1, ?_⟩
  rw [Told, hstate.2.2]
  exact List.not_mem_nil

end FinishState

end VoleZk.Mvzk
