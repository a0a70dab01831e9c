import VoleZk.Lib.Runs
import Mathlib.Data.List.Nodup
import Mathlib.Data.Nat.Find
import Mathlib.Order.Basic
import Mathlib.Tactic.Set
import Mathlib.Tactic.SplitIfs

/-!
# The pairwise sessions of the n-party VOLE

Every pair of verifiers runs two VOLEs, one in each direction, on one thread of each party.  A
verifier hands its peers, in increasing order, to a pool of `peer_par` workers, and a worker that
takes a peer which is busy elsewhere blocks until that one comes round.

No cycle of such waits arises.  Order the pairs by their lower and then by their higher id: every
party's queue is increasing in that order, because a party meets first the peers below it and then
those above.  The least pair that is not finished is then either running at both ends, or at an end
where it is the first of the queue and all workers are free.

## What is here

* `NVoleState.step` — workers that take peers, and calls that complete at both ends;
* `NVoleState.Inv` — the queue, the peers started, and the calls completed;
* `NVoleState.no_deadlock` — **as long as a pair is unfinished, something can happen.**
-/

set_option autoImplicit false

namespace VoleZk.Mvzk

/-! ## The verifiers -/

/-- A party's part in one VOLE. -/
inductive VoleRole where
  /-- `make_inv` and `verify_round`. -/
  | verify
  /-- `make_fwd` and `commit_round`. -/
  | commit
  deriving DecidableEq

/-- The calls of `setup_with` and of `extend_with`: the lower id verifies first. -/
def voleRoles (id j : ℕ) : List VoleRole :=
  if id > j then [.commit, .verify] else [.verify, .commit]

/-- Two calls that can talk to each other. -/
def VoleRole.matches : VoleRole → VoleRole → Bool
  | .verify, .commit => true
  | .commit, .verify => true
  | _, _ => false

/-- `peer_par` of a verifier, as the constructor sets it from its argument. -/
def peerPar (n arg : ℕ) : ℕ :=
  let all := n - 1
  let par := if arg = 0 ∨ arg > all then all else arg
  if par = 0 then 1 else par

theorem peerPar_pos (n arg : ℕ) : 0 < peerPar n arg := by
  simp only [peerPar]
  split_ifs <;> omega

/-- The verifiers: how many there are, and how many workers each has. -/
structure NVole where
  /-- `n`. -/
  n : ℕ
  /-- `peer_par`, by verifier. -/
  par : ℕ → ℕ
  /-- Every verifier has a worker. -/
  par_pos : ∀ i, 0 < par i

/-- The verifiers as the constructor makes them. -/
def NVole.ofArgs (n : ℕ) (arg : ℕ → ℕ) : NVole :=
  ⟨n, fun i => peerPar n (arg i), fun i => peerPar_pos n (arg i)⟩

/-- The peers of `for_each_peer`, in the order in which they are enqueued. -/
def peers (n id : ℕ) : List ℕ := (List.range n).filter fun j => j != id

/-- All verifiers, in the middle of `setup()` or `extend_verifier()`. -/
structure NVoleState where
  /-- The tasks of a party's pool that wait. -/
  queue : ℕ → List ℕ
  /-- The peers its workers are at. -/
  busy : ℕ → List ℕ
  /-- How many calls a party has completed with a peer. -/
  turn : ℕ → ℕ → ℕ

/-- What happens next. -/
inductive NVoleAction where
  /-- A worker of `i` takes the next peer. -/
  | take (i : ℕ)
  /-- A call of `i` with `j` completes, at both. -/
  | complete (i j : ℕ)

namespace NVoleState

variable (C : NVole)

/-- `for_each_peer` has enqueued its tasks. -/
def init : NVoleState where
  queue i := if i < C.n then peers C.n i else []
  busy _ := []
  turn _ _ := 0

/-- Whether the calls that `i` and `j` are in belong together. -/
def facing (s : NVoleState) (i j : ℕ) : Bool :=
  match (voleRoles i j)[s.turn i j]?, (voleRoles j i)[s.turn j i]? with
  | some a, some b => a.matches b
  | _, _ => false

/-- The workers of `i` after a call with `j`: the last call frees the worker. -/
def afterCall (s : NVoleState) (i j : ℕ) : List ℕ :=
  if s.turn i j + 1 < (voleRoles i j).length then s.busy i else (s.busy i).erase j

/-- A worker of `i` is at `j`, and `js` wait. -/
def take (s : NVoleState) (i j : ℕ) (js : List ℕ) : NVoleState :=
  { s with
    queue := Function.update s.queue i js
    busy := Function.update s.busy i (j :: s.busy i) }

/-- A call has completed at both ends. -/
def complete (s : NVoleState) (i j : ℕ) : NVoleState :=
  { s with
    busy := fun a => if a = i then s.afterCall i j else if a = j then s.afterCall j i else s.busy a
    turn := fun a b => if (a = i ∧ b = j) ∨ (a = j ∧ b = i) then s.turn a b + 1 else s.turn a b }

/-- One step. -/
def step (s : NVoleState) : NVoleAction → Option NVoleState
  | .take i =>
    match s.queue i with
    | [] => none
    | j :: js =>
      if i < C.n ∧ (s.busy i).length < C.par i then some (s.take i j js) else none
  | .complete i j =>
    if (i < C.n ∧ j < C.n) ∧ (j ∈ s.busy i ∧ i ∈ s.busy j) ∧ s.facing i j then
      some (s.complete i j)
    else none

/-- A pair is finished when both its calls are. -/
def Finished (s : NVoleState) (i j : ℕ) : Prop := 2 ≤ s.turn i j

end NVoleState

/-! ## The peers -/

theorem length_voleRoles (id j : ℕ) : (voleRoles id j).length = 2 := by
  rw [voleRoles]
  split <;> rfl

theorem mem_peers {n id j : ℕ} : j ∈ peers n id ↔ j < n ∧ j ≠ id := by
  simp [peers]

theorem pairwise_peers (n id : ℕ) : (peers n id).Pairwise (· < ·) :=
  List.pairwise_lt_range.filter _

theorem nodup_peers (n id : ℕ) : (peers n id).Nodup := List.nodup_range.filter _

namespace NVoleState

variable {C : NVole} {s : NVoleState}

/-- **Equal turns face each other.** -/
theorem facing_of_turn {i j : ℕ} (hij : i ≠ j) (hsymm : s.turn i j = s.turn j i)
    (hlt : s.turn i j < 2) : s.facing i j := by
  have hturn : s.turn i j = 0 ∨ s.turn i j = 1 := by omega
  rw [facing, ← hsymm]
  rcases Nat.lt_or_gt_of_ne hij with h | h
  · rw [voleRoles, voleRoles, if_neg (Nat.lt_asymm h), if_pos h]
    rcases hturn with h0 | h1
    · rw [h0]; rfl
    · rw [h1]; rfl
  · rw [voleRoles, voleRoles, if_pos h, if_neg (Nat.lt_asymm h)]
    rcases hturn with h0 | h1
    · rw [h0]; rfl
    · rw [h1]; rfl

/-! ## What holds in every reachable state -/

/-- The tasks of a party: those started, those that wait, and the workers. -/
structure Tasks (C : NVole) (s : NVoleState) (i : ℕ) (started : List ℕ) : Prop where
  /-- What was started came before what waits. -/
  split : peers C.n i = started ++ s.queue i
  /-- A worker is at every peer that is started and not finished. -/
  mem_busy : ∀ j, j ∈ s.busy i ↔ j ∈ started ∧ ¬s.Finished i j
  /-- No two are at the same. -/
  nodup : (s.busy i).Nodup
  /-- With the peers that wait, nothing has happened. -/
  waiting : ∀ j ∈ s.queue i, s.turn i j = 0

/-- What holds in every reachable state. -/
structure Inv (C : NVole) (s : NVoleState) : Prop where
  /-- The tasks of each party. -/
  tasks : ∀ i < C.n, ∃ started, s.Tasks C i started
  /-- Both ends of a pair are at the same call. -/
  symm : ∀ i j, s.turn i j = s.turn j i

theorem inv_init (C : NVole) : (init C).Inv C where
  tasks i hi := ⟨[], by simp [init, hi], by simp [init], List.nodup_nil, fun _ _ => rfl⟩
  symm _ _ := rfl

/-- What was started does not wait. -/
theorem Tasks.not_mem_queue {i : ℕ} {started : List ℕ} (h : s.Tasks C i started) {j : ℕ}
    (hj : j ∈ started) : j ∉ s.queue i :=
  (List.nodup_append'.mp (h.split ▸ nodup_peers C.n i)).2.2 hj

/-- **A worker takes a peer.** -/
theorem Inv.take (h : s.Inv C) {i j : ℕ} {js : List ℕ} (hi : i < C.n)
    (hqueue : s.queue i = j :: js) : (s.take i j js).Inv C where
  symm := h.symm
  tasks a ha := by
    obtain ⟨started, htasks⟩ := h.tasks a ha
    by_cases hai : a = i
    · subst hai
      have hfresh : j ∉ started := fun hj => htasks.not_mem_queue hj (by simp [hqueue])
      have hturn : s.turn a j = 0 := htasks.waiting j (by simp [hqueue])
      refine ⟨started ++ [j], ?_, fun k => ?_, ?_, fun k hk => htasks.waiting k ?_⟩
      · simp [NVoleState.take, htasks.split, hqueue]
      · simp only [NVoleState.take, Function.update_self, List.mem_cons, htasks.mem_busy,
          List.mem_append, List.not_mem_nil, or_false, Finished]
        constructor
        · rintro (rfl | ⟨hk, hlt⟩)
          · exact ⟨Or.inr rfl, by simp [hturn]⟩
          · exact ⟨Or.inl hk, hlt⟩
        · rintro ⟨hk | rfl, hlt⟩
          · exact Or.inr ⟨hk, hlt⟩
          · exact Or.inl rfl
      · simp only [NVoleState.take, Function.update_self, List.nodup_cons]
        exact ⟨fun hj => hfresh ((htasks.mem_busy j).mp hj).1, htasks.nodup⟩
      · simp only [NVoleState.take, Function.update_self] at hk
        exact hqueue ▸ List.mem_cons_of_mem _ hk
    · refine ⟨started, ?_, fun k => ?_, ?_, fun k hk => htasks.waiting k ?_⟩
      · simpa [NVoleState.take, hai] using htasks.split
      · simpa [NVoleState.take, hai, Finished] using htasks.mem_busy k
      · simpa [NVoleState.take, hai] using htasks.nodup
      · simpa [NVoleState.take, hai] using hk

theorem complete_comm (s : NVoleState) {i j : ℕ} (hij : i ≠ j) :
    s.complete i j = s.complete j i := by
  have hbusy : ∀ a, (s.complete i j).busy a = (s.complete j i).busy a := fun a => by
    by_cases hai : a = i
    · simp [complete, hai, hij]
    · simp [complete, hai]
  have hturn : ∀ a b, (s.complete i j).turn a b = (s.complete j i).turn a b := fun a b => by
    simp only [complete, or_comm]
  exact congrArg₂ (NVoleState.mk s.queue) (funext hbusy) (funext fun a => funext (hturn a))

/-- The tasks of one end. -/
theorem Tasks.complete {i j : ℕ} {started : List ℕ} (h : s.Tasks C i started) (hij : i ≠ j)
    (hj : j ∈ s.busy i) : (s.complete i j).Tasks C i started := by
  have hturn : ∀ k, k ≠ j → (s.complete i j).turn i k = s.turn i k := fun k hk => by
    simp [NVoleState.complete, hk, hij]
  have hturnj : (s.complete i j).turn i j = s.turn i j + 1 := by simp [NVoleState.complete]
  have hbusy : (s.complete i j).busy i = s.afterCall i j := by simp [NVoleState.complete]
  have hstarted := ((h.mem_busy j).mp hj).1
  refine ⟨h.split, fun k => ?_, ?_, fun k hk => ?_⟩
  · rw [hbusy, afterCall, length_voleRoles, Finished]
    by_cases hkj : k = j
    · subst hkj
      rw [hturnj]
      split
      · rename_i hlt
        exact iff_of_true hj ⟨hstarted, Nat.not_le.mpr hlt⟩
      · rename_i hlt
        exact iff_of_false h.nodup.not_mem_erase fun hk => hk.2 (Nat.not_lt.mp hlt)
    · rw [hturn k hkj, ← Finished, ← h.mem_busy k]
      split
      · rfl
      · exact List.mem_erase_of_ne hkj
  · rw [hbusy, afterCall]
    split
    · exact h.nodup
    · exact h.nodup.erase j
  · rw [hturn k fun hkj => h.not_mem_queue hstarted (hkj ▸ hk)]
    exact h.waiting k hk

/-- **A call completes.** -/
theorem Inv.complete (h : s.Inv C) {i j : ℕ} (hi : i < C.n) (hj : j ∈ s.busy i)
    (hi' : i ∈ s.busy j) : (s.complete i j).Inv C where
  symm a b := by
    simp only [NVoleState.complete, h.symm a b, and_comm, or_comm]
  tasks a ha := by
    obtain ⟨started, htasks⟩ := h.tasks a ha
    have hij : i ≠ j := by
      obtain ⟨startedi, htasksi⟩ := h.tasks i hi
      have hmem : j ∈ peers C.n i :=
        htasksi.split ▸ List.mem_append_left _ ((htasksi.mem_busy j).mp hj).1
      exact (mem_peers.mp hmem).2.symm
    refine ⟨started, ?_⟩
    by_cases hai : a = i
    · subst hai
      exact htasks.complete hij hj
    · by_cases haj : a = j
      · subst haj
        rw [complete_comm s hij]
        exact htasks.complete hij.symm hi'
      · have hturn : ∀ k, (s.complete i j).turn a k = s.turn a k := fun k => by
          simp [NVoleState.complete, hai, haj]
        have hbusy : (s.complete i j).busy a = s.busy a := by
          simp [NVoleState.complete, hai, haj]
        refine ⟨htasks.split, fun k => ?_, hbusy ▸ htasks.nodup, fun k hk => ?_⟩
        · rw [hbusy, Finished, hturn]
          exact htasks.mem_busy k
        · rw [hturn]
          exact htasks.waiting k hk

theorem Inv.step (h : s.Inv C) {a : NVoleAction} {s' : NVoleState}
    (hstep : s.step C a = some s') : s'.Inv C := by
  cases a with
  | take i =>
    rw [NVoleState.step] at hstep
    split at hstep
    · exact absurd hstep (by simp)
    · rename_i j js hqueue
      obtain ⟨hi, htake⟩ := Option.ite_none_right_eq_some.mp hstep
      obtain rfl := Option.some_inj.mp htake
      exact h.take hi.1 hqueue
  | complete i j =>
    obtain ⟨⟨hn, hbusy, -⟩, hcomplete⟩ := Option.ite_none_right_eq_some.mp hstep
    obtain rfl := Option.some_inj.mp hcomplete
    exact h.complete hn.1 hbusy.1 hbusy.2

theorem inv_of_run {as : List NVoleAction} {s : NVoleState}
    (hrun : Runs.run (NVoleState.step C) (init C) as = some s) : s.Inv C :=
  Runs.invariant_of_run (fun h hstep => h.step hstep) (inv_init C) hrun

/-! ## Progress -/

/-- **The first unfinished peer** of a party has a worker, or can have one. -/
theorem Inv.busy_or_take (h : s.Inv C) {i j : ℕ} (hi : i < C.n) (hj : j < C.n) (hji : j ≠ i)
    (hunfinished : ¬s.Finished i j) (hbefore : ∀ k < j, k ≠ i → s.Finished i k) :
    j ∈ s.busy i ∨ (s.step C (.take i)).isSome := by
  obtain ⟨started, htasks⟩ := h.tasks i hi
  have hmem : j ∈ started ++ s.queue i := htasks.split ▸ mem_peers.mpr ⟨hj, hji⟩
  rcases List.mem_append.mp hmem with hstarted | hqueue
  · exact Or.inl ((htasks.mem_busy j).mpr ⟨hstarted, hunfinished⟩)
  · right
    -- the peers that were started come before `j`, so no worker is at any of them
    have hidle : s.busy i = [] := by
      refine List.eq_nil_iff_forall_not_mem.mpr fun k hk => ?_
      obtain ⟨hkstarted, hk⟩ := (htasks.mem_busy k).mp hk
      have hkj : k < j := by
        have hsorted := pairwise_peers C.n i
        rw [htasks.split, List.pairwise_append] at hsorted
        exact hsorted.2.2 k hkstarted j hqueue
      have hkpeer : k ∈ peers C.n i := htasks.split ▸ List.mem_append_left _ hkstarted
      exact hk (hbefore k hkj (mem_peers.mp hkpeer).2)
    rw [NVoleState.step]
    split
    · rename_i hempty
      exact absurd (hempty ▸ hqueue) List.not_mem_nil
    · rw [hidle, if_pos ⟨hi, C.par_pos i⟩]
      rfl

/-- **No deadlock.**  In every reachable state in which a pair is not finished, a free worker can
take its next peer, or a call that both parties of a pair are in can complete. -/
theorem no_deadlock {as : List NVoleAction} {s : NVoleState}
    (hrun : Runs.run (NVoleState.step C) (init C) as = some s) {i j : ℕ} (hi : i < C.n)
    (hj : j < C.n) (hij : i ≠ j) (hunfinished : ¬s.Finished i j) :
    ∃ a, (s.step C a).isSome := by
  have h := inv_of_run hrun
  have hsymm : ∀ a b, s.Finished a b ↔ s.Finished b a := fun a b => by
    rw [Finished, Finished, h.symm a b]
  -- the least unfinished pair, by its lower and then by its higher id
  have hexists : ∃ a, ∃ b, a < b ∧ b < C.n ∧ ¬s.Finished a b := by
    rcases Nat.lt_or_gt_of_ne hij with hlt | hgt
    · exact ⟨i, j, hlt, hj, hunfinished⟩
    · exact ⟨j, i, hgt, hi, fun hfin => hunfinished ((hsymm j i).mp hfin)⟩
  classical
  obtain ⟨hab, hb, hopen⟩ := Nat.find_spec (Nat.find_spec hexists)
  set a := Nat.find hexists with ha
  set b := Nat.find (Nat.find_spec hexists) with hbdef
  have hlower : ∀ a' < a, ∀ b', a' < b' → b' < C.n → s.Finished a' b' := fun a' ha' b' hb' hn => by
    by_contra hfin
    exact Nat.find_min hexists ha' ⟨b', hb', hn, hfin⟩
  have hhigher : ∀ b' < b, a < b' → s.Finished a b' := fun b' hb' hab' => by
    by_contra hfin
    exact Nat.find_min (Nat.find_spec hexists) hb' ⟨hab', hb'.trans hb, hfin⟩
  -- at either end it is the first that is unfinished
  have hfirsta : ∀ k < b, k ≠ a → s.Finished a k := fun k hk hka => by
    rcases Nat.lt_or_gt_of_ne hka with hlt | hgt
    · exact (hsymm k a).mp (hlower k hlt a hlt (hab.trans hb))
    · exact hhigher k hk hgt
  have hfirstb : ∀ k < a, k ≠ b → s.Finished b k := fun k hk _ =>
    (hsymm k b).mp (hlower k hk b (hk.trans hab) hb)
  rcases h.busy_or_take (hab.trans hb) hb hab.ne' hopen hfirsta with hbusya | htake
  · rcases h.busy_or_take hb (hab.trans hb) hab.ne (fun hfin => hopen ((hsymm b a).mp hfin))
      hfirstb with hbusyb | htake
    · refine ⟨.complete a b, ?_⟩
      have hfacing := facing_of_turn hab.ne (h.symm a b) (Nat.not_le.mp hopen)
      rw [NVoleState.step, if_pos ⟨⟨hab.trans hb, hb⟩, ⟨hbusya, hbusyb⟩, hfacing⟩]
      rfl
    · exact ⟨.take b, htake⟩
  · exact ⟨.take a, htake⟩

/-- Three verifiers with two, one and two workers, where the last two still have a peer waiting. -/
theorem no_deadlock_three : ∃ s, Runs.run (step (.ofArgs 3 id)) (init (.ofArgs 3 id))
      [.take 1, .take 0, .take 0, .take 2, .complete 0 2] = some s ∧ s.busy 1 = [0] ∧
    ∃ a, (s.step (.ofArgs 3 id) a).isSome := by
  obtain ⟨s, hrun⟩ : ∃ s, Runs.run (step (.ofArgs 3 id)) (init (.ofArgs 3 id))
      [.take 1, .take 0, .take 0, .take 2, .complete 0 2] = some s :=
    Option.isSome_iff_exists.mp (by decide)
  have hstate : (Runs.run (step (.ofArgs 3 id)) (init (.ofArgs 3 id))
      [.take 1, .take 0, .take 0, .take 2, .complete 0 2]).map (fun s => (s.busy 1, s.turn 0 1))
      = some ([0], 0) := by decide
  rw [hrun, Option.map_some, Option.some_inj, Prod.mk.injEq] at hstate
  have hunfinished : ¬s.Finished 0 1 := by rw [Finished, hstate.2]; decide
  exact ⟨s, hrun, hstate.1, no_deadlock (i := 0) (j := 1) hrun (by decide) (by decide) (by decide)
    hunfinished⟩

end NVoleState

end VoleZk.Mvzk
