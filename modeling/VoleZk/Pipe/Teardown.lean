import VoleZk.Pipe.Model

/-!
# Teardown of the background pipe

The destructors release the slot being drained, call `finish` and join the producer, and the
source argues that both parties get there after consuming the same correlations, so that their
producers are at the same round.  They consume the same, but the producers run ahead of the
consumers, by as much as their rings have room: a `release` makes room for one more round, and
whether a producer takes it before its own `finish` is a race that each machine runs by itself.

## What is here

* `Endpoint.consumerStep_cases`, `Endpoint.producerStep_cases` — what one step can do;
* `Endpoint.Orderly` — what holds of one party in every run;
* `Pipe.Permitted` — the steps that keep the rounds of the two producers together;
* `Pipe.teardown_iff` — **runs of permitted steps strand nobody and both joins can return; any
  other step can be followed by one party's producer exiting a round short of the other's**;
* `Pipe.stranded_forever` — a stranded producer's party never returns from `join`;
* `Pipe.teardown_strands` — the race.
-/

set_option autoImplicit false

namespace VoleZk

/-! ## What one step can do -/

namespace Endpoint

/-- The next step of the consumer is the call of `finish`. -/
def FinishesNext (e : Endpoint) : Prop := e.rest = [] ∧ e.curSlot = none ∧ e.pipe.done = false

instance (e : Endpoint) : Decidable e.FinishesNext := inferInstanceAs (Decidable (_ ∧ _))

/-- The next step of the producer is to enter a round. -/
def EntersNext (e : Endpoint) : Prop :=
  e.producer = .waiting ∧ e.pipe.count < e.pipe.N ∧ e.pipe.done = false

instance (e : Endpoint) : Decidable e.EntersNext := inferInstanceAs (Decidable (_ ∧ _))

/-- **One step of a consumer**: a step of a draw, a draw that finds the pipe closed, and the three
calls of the destructor. -/
theorem consumerStep_cases {e e' : Endpoint} (h : e.consumerStep = some e') :
    e.aborted = false ∧ e.joined = false ∧
      ((e.rest ≠ [] ∧ ∃ rest slot off pipe, (pipe = e.pipe ∨ pipe = e.pipe.release) ∧
          e' = { e with rest := rest, curSlot := slot, curOff := off, pipe := pipe }) ∨
        (e.rest ≠ [] ∧ e.pipe.acquireReady = some none ∧ e' = { e with aborted := true }) ∨
        (e.rest = [] ∧ e.curSlot.isSome = true ∧
          e' = { e with curSlot := none, pipe := e.pipe.release }) ∨
        (e.FinishesNext ∧ e' = { e with pipe := e.pipe.finish }) ∨
        (e.rest = [] ∧ e.curSlot = none ∧ e.pipe.done = true ∧ e.producer = .exited ∧
          e' = { e with joined := true })) := by
  rw [consumerStep] at h
  by_cases hrun : (e.aborted || e.joined) = true
  · rw [if_pos hrun] at h
    exact absurd h (by simp)
  · rw [if_neg hrun] at h
    rw [Bool.or_eq_true, not_or, Bool.not_eq_true, Bool.not_eq_true] at hrun
    refine ⟨hrun.1, hrun.2, ?_⟩
    split at h
    · rename_i ns hrest
      rw [Option.some_inj] at h
      exact Or.inl ⟨by rw [hrest]; simp, ns, e.curSlot, e.curOff, e.pipe, Or.inl rfl, h.symm⟩
    · rename_i n ns _ hrest
      have hne : e.rest ≠ [] := by rw [hrest]; simp
      split at h
      · split at h
        · exact absurd h (by simp)
        · rename_i hready
          rw [Option.some_inj] at h
          exact Or.inr (Or.inl ⟨hne, hready, h.symm⟩)
        · rename_i i _
          rw [Option.some_inj] at h
          exact Or.inl ⟨hne, e.rest, some i, 0, e.pipe, Or.inl rfl, h.symm⟩
      · rename_i i _
        simp only at h
        split at h
        · rw [Option.some_inj] at h
          exact Or.inl ⟨hne, _, _, _, _, Or.inr rfl, h.symm⟩
        · rw [Option.some_inj] at h
          exact Or.inl ⟨hne, _, _, _, e.pipe, Or.inl rfl, h.symm⟩
    · rename_i hrest
      split at h
      · rename_i hslot
        rw [Option.some_inj] at h
        exact Or.inr (Or.inr (Or.inl ⟨hrest, hslot, h.symm⟩))
      · rename_i hslot
        rw [Bool.not_eq_true, Option.isSome_eq_false_iff, Option.isNone_iff_eq_none] at hslot
        split at h
        · rename_i hdone
          split at h
          · rename_i hexit
            rw [Option.some_inj] at h
            exact Or.inr (Or.inr (Or.inr (Or.inr ⟨hrest, hslot, hdone, hexit, h.symm⟩)))
          · exact absurd h (by simp)
        · rename_i hdone
          rw [Option.some_inj] at h
          exact Or.inr (Or.inr (Or.inr (Or.inl
            ⟨⟨hrest, hslot, by rwa [Bool.not_eq_true] at hdone⟩, h.symm⟩)))

/-- **One step of a producer**: it leaves its loop, enters a round, or comes back from one. -/
theorem producerStep_cases {e e' : Endpoint} {peerEntered : ℕ}
    (h : e.producerStep peerEntered = some e') :
    (e.producer = .waiting ∧ e.pipe.done = true ∧ e' = { e with producer := .exited }) ∨
      (e.EntersNext ∧ e' = { e with producer := .inRound, entered := e.entered + 1 }) ∨
      (e.producer = .inRound ∧ e.entered ≤ peerEntered ∧
        e' = { e with producer := .waiting, pipe := e.pipe.publish }) := by
  rw [producerStep] at h
  split at h
  · rename_i hwait
    rw [CorrelationPipe.acquireFree] at h
    by_cases hdone : e.pipe.done = true
    · simp only [hdone, or_true, if_true] at h
      exact Or.inl ⟨hwait, hdone, (Option.some_inj.mp h).symm⟩
    · by_cases hroom : e.pipe.count < e.pipe.N
      · simp only [hdone, hroom, true_or, if_true] at h
        exact Or.inr (Or.inl ⟨⟨hwait, hroom, by rwa [Bool.not_eq_true] at hdone⟩,
          (Option.some_inj.mp h).symm⟩)
      · simp [hdone, hroom] at h
  · rename_i hround
    split at h
    · rename_i hpeer
      exact Or.inr (Or.inr ⟨hround, hpeer, (Option.some_inj.mp h).symm⟩)
    · exact absurd h (by simp)
  · exact absurd h (by simp)

/-! ## One party, in every run -/

/-- What holds of one party at every point of every run: `finish` comes after the draws, nobody
else closes the pipe, and the producer leaves its loop only after `finish`. -/
structure Orderly (e : Endpoint) : Prop where
  /-- Nothing is left to draw after `finish`. -/
  rest_nil : e.pipe.done = true → e.rest = []
  /-- The last slot was released before `finish`. -/
  slot_none : e.pipe.done = true → e.curSlot = none
  /-- `mark_producer_done` is never called. -/
  not_producerDone : e.pipe.producerDone = false
  /-- No draw finds the pipe closed. -/
  not_aborted : e.aborted = false
  /-- The producer exits only after `finish`. -/
  done_of_exited : e.producer = .exited → e.pipe.done = true
  /-- `join` returns only after the producer has exited. -/
  exited_of_joined : e.joined = true → e.producer = .exited

/-- A draw never finds the pipe closed: only the party's own destructor closes it. -/
theorem Orderly.acquireReady_ne {e : Endpoint} (he : e.Orderly) (hrest : e.rest ≠ []) :
    e.pipe.acquireReady ≠ some none := by
  have hdone : e.pipe.done = false := by
    rw [← Bool.not_eq_true]
    exact fun h => hrest (he.rest_nil h)
  rw [CorrelationPipe.acquireReady, he.not_producerDone, hdone]
  by_cases h : 0 < e.pipe.count <;> simp [h]

theorem Orderly.consumerStep {e e' : Endpoint} (he : e.Orderly) (h : e.consumerStep = some e') :
    e'.Orderly := by
  obtain ⟨-, hj, hcases⟩ := consumerStep_cases h
  rcases hcases with ⟨hrest, r, c, o, p, hp, rfl⟩ | ⟨hrest, hready, -⟩ | ⟨hrest, -, rfl⟩ |
    ⟨⟨hrest, hslot, hdone⟩, rfl⟩ | ⟨hrest, hslot, hdone, hexit, rfl⟩
  · have hnd : e.pipe.done = false := by
      rw [← Bool.not_eq_true]
      exact fun hd => hrest (he.rest_nil hd)
    have hpd : p.done = false := by
      rcases hp with rfl | rfl
      · exact hnd
      · exact hnd
    have hpp : p.producerDone = false := by
      rcases hp with rfl | rfl
      · exact he.not_producerDone
      · exact he.not_producerDone
    have hne : e.producer ≠ .exited := fun hx => by
      rw [he.done_of_exited hx] at hnd
      exact absurd hnd (by simp)
    exact ⟨fun hd => absurd hd (by simp [hpd]), fun hd => absurd hd (by simp [hpd]), hpp,
      he.not_aborted, fun hx => absurd hx hne, he.exited_of_joined⟩
  · exact absurd hready (he.acquireReady_ne hrest)
  · exact ⟨fun _ => hrest, fun _ => rfl, he.not_producerDone, he.not_aborted, he.done_of_exited,
      he.exited_of_joined⟩
  · exact ⟨fun _ => hrest, fun _ => hslot, he.not_producerDone, he.not_aborted, fun _ => rfl,
      he.exited_of_joined⟩
  · exact ⟨fun _ => hrest, fun _ => hslot, he.not_producerDone, he.not_aborted, he.done_of_exited,
      fun _ => hexit⟩

theorem Orderly.producerStep {e e' : Endpoint} (he : e.Orderly) {peerEntered : ℕ}
    (h : e.producerStep peerEntered = some e') : e'.Orderly := by
  have hj : e.producer ≠ .exited → e.joined ≠ true := fun hne hj => hne (he.exited_of_joined hj)
  rcases producerStep_cases h with ⟨-, hdone, rfl⟩ | ⟨⟨hwait, -, -⟩, rfl⟩ | ⟨hround, -, rfl⟩
  · exact ⟨he.rest_nil, he.slot_none, he.not_producerDone, he.not_aborted, fun _ => hdone,
      fun _ => rfl⟩
  · exact ⟨he.rest_nil, he.slot_none, he.not_producerDone, he.not_aborted, fun hx => (nomatch hx),
      fun hx => absurd hx (hj (by rw [hwait]; decide))⟩
  · exact ⟨he.rest_nil, he.slot_none, he.not_producerDone, he.not_aborted, fun hx => (nomatch hx),
      fun hx => absurd hx (hj (by rw [hround]; decide))⟩

end Endpoint

namespace Pipe

open Endpoint Runs

/-! ## Stranded producers -/

/-- `X`'s producer has left its loop, and the other party's has entered a round it never will. -/
def StrandedBy (s : State) (X : Party) : Prop :=
  (s X).producer = .exited ∧ (s X).entered < (s X.peer).entered

/-- The steps that keep the rounds together: `finish` is called only once one's own producer has
entered every round the other one has, and no producer enters a round past those of a party that
has called `finish`. -/
def Permitted (s : State) : Thread → Prop
  | .consumer X => (s X).FinishesNext → (s X.peer).entered ≤ (s X).entered
  | .producer X =>
    (s X).EntersNext → (s X.peer).pipe.done = true → (s X).entered < (s X.peer).entered

instance (s : State) (t : Thread) : Decidable (Permitted s t) :=
  match t with
  | .consumer _ => inferInstanceAs (Decidable (_ → _))
  | .producer _ => inferInstanceAs (Decidable (_ → _))

/-! ## Runs of permitted steps -/

/-- The invariant of such runs: a party that has called `finish` is not behind. -/
structure Together (s : State) : Prop where
  /-- Each party is orderly. -/
  orderly : ∀ X, (s X).Orderly
  /-- After `finish`, one's own producer has entered every round the other one has. -/
  not_behind : ∀ X, (s X).pipe.done = true → (s X.peer).entered ≤ (s X).entered

theorem together_init (N : Party → ℕ) (batch : ℕ) (draws : List ℕ) :
    Together (init N batch draws) where
  orderly _ := ⟨fun h => (nomatch h), fun h => (nomatch h), rfl, rfl, fun h => (nomatch h),
    fun h => (nomatch h)⟩
  not_behind _ h := (nomatch h)

/-- The step of one thread of `X` replaces `X`'s endpoint. -/
theorem step_eq_some {s s' : State} {t : Thread} (h : step s t = some s') :
    (∃ X e, t = .consumer X ∧ (s X).consumerStep = some e ∧ s' = Function.update s X e) ∨
      ∃ X e, t = .producer X ∧ (s X).producerStep (s X.peer).entered = some e ∧
        s' = Function.update s X e := by
  cases t with
  | consumer X =>
    obtain ⟨e, he, rfl⟩ := Option.map_eq_some_iff.mp h
    exact Or.inl ⟨X, e, rfl, he, rfl⟩
  | producer X =>
    obtain ⟨e, he, rfl⟩ := Option.map_eq_some_iff.mp h
    exact Or.inr ⟨X, e, rfl, he, rfl⟩

theorem orderly_update {s : State} {X : Party} {e : Endpoint} (h : ∀ Y, (s Y).Orderly)
    (he : e.Orderly) (Y : Party) : (Function.update s X e Y).Orderly := by
  by_cases hY : Y = X
  · rw [hY, Function.update_self]
    exact he
  · rw [Function.update_of_ne hY]
    exact h Y

/-- Replacing `X`'s endpoint keeps the parties together if it does so from `X`'s side and from the
peer's. -/
theorem Together.update {s : State} (hs : Together s) {X : Party} {e : Endpoint} (he : e.Orderly)
    (hX : e.pipe.done = true → (s X.peer).entered ≤ e.entered)
    (hpeer : (s X.peer).pipe.done = true → e.entered ≤ (s X.peer).entered) :
    Together (Function.update s X e) where
  orderly := orderly_update hs.orderly he
  not_behind Y := by
    rcases X.eq_or_eq_peer Y with rfl | rfl
    · rw [Function.update_self, Function.update_of_ne Y.peer_ne]
      exact hX
    · rw [Function.update_of_ne X.peer_ne, X.peer_peer, Function.update_self]
      exact hpeer

/-- **A permitted step keeps the parties together.** -/
theorem Together.of_step {s s' : State} {t : Thread} (hs : Together s) (ht : Permitted s t)
    (h : step s t = some s') : Together s' := by
  have hback : ∀ X : Party, (s X.peer).pipe.done = true → (s X).entered ≤ (s X.peer).entered := by
    intro X hd
    have h1 := hs.not_behind X.peer hd
    rwa [X.peer_peer] at h1
  rcases step_eq_some h with ⟨X, e, rfl, he, rfl⟩ | ⟨X, e, rfl, he, rfl⟩
  · have hord := (hs.orderly X).consumerStep he
    rcases (consumerStep_cases he).2.2 with ⟨hrest, _, _, _, p, hp, rfl⟩ | ⟨_, _, rfl⟩ |
      ⟨_, _, rfl⟩ | ⟨hfin, rfl⟩ | ⟨_, _, hdone, _, rfl⟩
    · refine hs.update hord (fun hd => ?_) (hback X)
      rcases hp with rfl | rfl
      · exact hs.not_behind X hd
      · exact hs.not_behind X hd
    · exact hs.update hord (hs.not_behind X) (hback X)
    · exact hs.update hord (hs.not_behind X) (hback X)
    · exact hs.update hord (fun _ => ht hfin) (hback X)
    · exact hs.update hord (hs.not_behind X) (hback X)
  · have hord := (hs.orderly X).producerStep he
    rcases producerStep_cases he with ⟨_, _, rfl⟩ | ⟨hent, rfl⟩ | ⟨_, _, rfl⟩
    · exact hs.update hord (hs.not_behind X) (hback X)
    · exact hs.update hord (fun hd => absurd hd (by simp [hent.2.2])) (fun hd => ht hent hd)
    · exact hs.update hord (hs.not_behind X) (hback X)

/-- Nobody is stranded while the parties are together. -/
theorem Together.not_stranded {s : State} (hs : Together s) (X : Party) : ¬ StrandedBy s X :=
  fun h => absurd (hs.not_behind X ((hs.orderly X).done_of_exited h.1)) (Nat.not_le.mpr h.2)

/-! ## After `finish` -/

/-- **A producer whose party has called `finish` and whose round the other one has entered can
leave its loop**, by steps of its own. -/
theorem exists_run_exited {s : State} {X : Party} (hdone : (s X).pipe.done = true)
    (hle : (s X).entered ≤ (s X.peer).entered) : ∃ ts p,
      run step s ts = some (Function.update s X { s X with producer := .exited, pipe := p }) ∧
        p.done = true := by
  have hexit : ∀ {s : State}, (s X).producer = .waiting → (s X).pipe.done = true →
      step s (.producer X) = some (Function.update s X { s X with producer := .exited }) := by
    intro s hw hd
    simp only [step, producerStep, hw, CorrelationPipe.acquireFree, hd, or_true, if_true,
      Option.map_some]
  cases hp : (s X).producer with
  | waiting => exact ⟨[.producer X], (s X).pipe, run_cons_of_step (hexit hp hdone) [], hdone⟩
  | inRound =>
    have hpub : step s (.producer X) = some (Function.update s X
        { s X with producer := .waiting, pipe := (s X).pipe.publish }) := by
      simp only [step, producerStep, hp, hle, if_true, Option.map_some]
    refine ⟨[.producer X, .producer X], (s X).pipe.publish, ?_, hdone⟩
    rw [run_cons_of_step hpub, run_cons_of_step (hexit (by simp) (by simpa using hdone)), run_nil]
    simp
  | exited =>
    refine ⟨[], (s X).pipe, ?_, hdone⟩
    have hsame : ({ s X with producer := .exited, pipe := (s X).pipe } : Endpoint) = s X := by
      rw [← hp]
    rw [run_nil, hsame, Function.update_eq_self]

/-- An orderly party that has called `finish` joins its exited producer. -/
theorem exists_run_joined {s : State} {X : Party} (hs : (s X).Orderly)
    (hdone : (s X).pipe.done = true) (hle : (s X).entered ≤ (s X.peer).entered) :
    ∃ ts e, run step s ts = some (Function.update s X e) ∧ e.joined = true ∧
      e.entered = (s X).entered := by
  by_cases hj : (s X).joined = true
  · exact ⟨[], s X, by rw [run_nil, Function.update_eq_self], hj, rfl⟩
  · obtain ⟨ts, p, hrun, hp⟩ := exists_run_exited hdone hle
    rw [Bool.not_eq_true] at hj
    have hjoin : step (Function.update s X { s X with producer := .exited, pipe := p })
        (.consumer X) = some (Function.update s X
          { s X with producer := .exited, pipe := p, joined := true }) := by
      simp [step, consumerStep, hs.not_aborted, hj, hs.rest_nil hdone, hs.slot_none hdone, hp]
    exact ⟨ts ++ [.consumer X], { s X with producer := .exited, pipe := p, joined := true },
      by rw [run_append _ hrun, run_cons_of_step hjoin, run_nil], rfl, rfl⟩

/-- **Once both parties have called `finish`, both joins can return.** -/
theorem Together.exists_run_both_joined {s : State} (hs : Together s)
    (hdone : ∀ X, (s X).pipe.done = true) :
    ∃ ts s', run step s ts = some s' ∧ ∀ X, (s' X).joined = true := by
  have heq : (s .alice).entered = (s .bob).entered :=
    Nat.le_antisymm (hs.not_behind .bob (hdone .bob)) (hs.not_behind .alice (hdone .alice))
  obtain ⟨ts, e, hrun, hjoin, hent⟩ :=
    exists_run_joined (hs.orderly .alice) (hdone .alice) (Nat.le_of_eq heq)
  obtain ⟨ts', e', hrun', hjoin', -⟩ :=
    exists_run_joined (s := Function.update s .alice e) (X := .bob) (hs.orderly .bob)
      (hdone .bob) (by
        show (s .bob).entered ≤ e.entered
        exact Nat.le_of_eq (heq.symm.trans hent.symm))
  refine ⟨ts ++ ts', _, by rw [run_append _ hrun, hrun'], fun X => ?_⟩
  cases X with
  | alice => exact hjoin
  | bob => exact hjoin'

/-! ## Steps that are not permitted -/

/-- A party that has called `finish` a round behind the other strands it. -/
theorem exists_run_stranded {s : State} {X : Party} (hdone : (s X).pipe.done = true)
    (hlt : (s X).entered < (s X.peer).entered) :
    ∃ ts s', run step s ts = some s' ∧ ∃ Y, StrandedBy s' Y := by
  obtain ⟨ts, p, hrun, -⟩ := exists_run_exited hdone (Nat.le_of_lt hlt)
  refine ⟨ts, _, hrun, X, ?_, ?_⟩
  · rw [Function.update_self]
  · rw [Function.update_self, Function.update_of_ne X.peer_ne]
    exact hlt

/-- **After a step that is not permitted, one producer can exit a round short of the other.** -/
theorem exists_stranded_of_not_permitted {s s' : State} {t : Thread} (h : step s t = some s')
    (ht : ¬ Permitted s t) : ∃ ts s'', run step s' ts = some s'' ∧ ∃ Y, StrandedBy s'' Y := by
  rcases step_eq_some h with ⟨X, e, rfl, he, rfl⟩ | ⟨X, e, rfl, he, rfl⟩
  · rw [Permitted, Classical.not_imp, Nat.not_le] at ht
    obtain ⟨hfin, hlt⟩ := ht
    rcases (consumerStep_cases he).2.2 with ⟨hrest, -⟩ | ⟨hrest, -⟩ | ⟨-, hslot, -⟩ | ⟨-, rfl⟩ |
      ⟨-, -, hdone, -⟩
    · exact absurd hfin.1 hrest
    · exact absurd hfin.1 hrest
    · exact absurd hslot (by simp [hfin.2.1])
    · refine exists_run_stranded (X := X) (by simp) ?_
      rw [Function.update_self, Function.update_of_ne X.peer_ne]
      exact hlt
    · exact absurd hdone (by simp [hfin.2.2])
  · rw [Permitted, Classical.not_imp, Classical.not_imp, Nat.not_lt] at ht
    obtain ⟨hent, hdone, hle⟩ := ht
    rcases producerStep_cases he with ⟨-, hd, -⟩ | ⟨-, rfl⟩ | ⟨hround, -⟩
    · exact absurd hd (by simp [hent.2.2])
    · refine exists_run_stranded (X := X.peer) ?_ ?_
      · rw [Function.update_of_ne X.peer_ne]
        exact hdone
      · rw [X.peer_peer, Function.update_self, Function.update_of_ne X.peer_ne]
        exact Nat.lt_succ_of_le hle
    · exact absurd hround (by simp [hent.1])

/-- **Teardown strands nobody exactly as long as the steps are permitted.**  In every run of
permitted steps, no producer has exited a round short of the other, producers that have both
exited have executed the same rounds, and both joins can return once both parties have called
`finish`; and any other step of any run can be followed by a run that strands a producer. -/
theorem teardown_iff (N : Party → ℕ) (batch : ℕ) (draws : List ℕ) :
    (∀ ts s, run step (init N batch draws) ts = some s →
      AllSteps step Permitted (init N batch draws) ts →
        (∀ X, ¬ StrandedBy s X) ∧
        ((∀ X, (s X).producer = .exited) → (s .alice).entered = (s .bob).entered) ∧
        ((∀ X, (s X).pipe.done = true) →
          ∃ ts' s', run step s ts' = some s' ∧ ∀ X, (s' X).joined = true)) ∧
    (∀ ts s t s', run step (init N batch draws) ts = some s → step s t = some s' →
      ¬ Permitted s t → ∃ ts' s'', run step s' ts' = some s'' ∧ ∃ Y, StrandedBy s'' Y) := by
  constructor
  · intro ts s hrun hall
    have hs : Together s :=
      invariant (fun hs ht h => hs.of_step ht h) (together_init N batch draws) hall hrun
    refine ⟨hs.not_stranded, fun hexit => ?_, hs.exists_run_both_joined⟩
    have hdone := fun X => (hs.orderly X).done_of_exited (hexit X)
    exact Nat.le_antisymm (hs.not_behind .bob (hdone .bob)) (hs.not_behind .alice (hdone .alice))
  · intro ts s t s' _ hstep ht
    exact exists_stranded_of_not_permitted hstep ht

/-- The run of `teardown_joins`: one slot each, one draw each, and both parties close down before
either producer has found the free slot. -/
def quietRun : List Thread :=
  [.producer .alice, .producer .bob, .producer .alice, .producer .bob,
    .consumer .alice, .consumer .alice, .consumer .alice, .consumer .bob, .consumer .bob,
    .consumer .bob, .consumer .alice, .consumer .alice, .consumer .bob, .consumer .bob]

/-- A run of permitted steps up to both calls of `finish`: both joins can return. -/
theorem teardown_joins : ∃ s, run step (init (fun _ => 1) 2 [1]) quietRun = some s ∧
    ∃ ts' s', run step s ts' = some s' ∧ ∀ X, (s' X).joined = true := by
  refine ⟨_, rfl, ((teardown_iff (fun _ => 1) 2 [1]).1 quietRun _ rfl ?_).2.2 fun X => ?_⟩
  · decide
  · cases X with
    | alice => rfl
    | bob => rfl

/-! ## A stranded producer stays where it is -/

/-- What holds of both parties in every run: a producer outside a round has come back from every
round it entered, so the other one has entered them all. -/
structure Lockstep (s : State) : Prop where
  /-- Each party is orderly. -/
  orderly : ∀ X, (s X).Orderly
  /-- Rounds are finished together. -/
  entered_le : ∀ X, (s X).producer ≠ .inRound → (s X).entered ≤ (s X.peer).entered

theorem lockstep_init (N : Party → ℕ) (batch : ℕ) (draws : List ℕ) :
    Lockstep (init N batch draws) where
  orderly := (together_init N batch draws).orderly
  entered_le _ _ := Nat.le_refl 0

theorem Lockstep.update {s : State} (hs : Lockstep s) {X : Party} {e : Endpoint} (he : e.Orderly)
    (hX : e.producer ≠ .inRound → e.entered ≤ (s X.peer).entered)
    (hpeer : (s X).entered ≤ e.entered) : Lockstep (Function.update s X e) where
  orderly := orderly_update hs.orderly he
  entered_le Y hY := by
    rcases X.eq_or_eq_peer Y with rfl | rfl
    · rw [Function.update_self] at hY ⊢
      rw [Function.update_of_ne Y.peer_ne]
      exact hX hY
    · rw [Function.update_of_ne X.peer_ne] at hY ⊢
      rw [X.peer_peer, Function.update_self]
      have h1 := hs.entered_le X.peer hY
      rw [X.peer_peer] at h1
      exact Nat.le_trans h1 hpeer

/-- Every step keeps the rounds in lockstep. -/
theorem Lockstep.of_step {s s' : State} {t : Thread} (hs : Lockstep s) (h : step s t = some s') :
    Lockstep s' := by
  rcases step_eq_some h with ⟨X, e, rfl, he, rfl⟩ | ⟨X, e, rfl, he, rfl⟩
  · have hord := (hs.orderly X).consumerStep he
    rcases (consumerStep_cases he).2.2 with ⟨-, _, _, _, _, -, rfl⟩ | ⟨-, -, rfl⟩ | ⟨-, -, rfl⟩ |
      ⟨-, rfl⟩ | ⟨-, -, -, -, rfl⟩
    all_goals exact hs.update hord (hs.entered_le X) (Nat.le_refl _)
  · have hord := (hs.orderly X).producerStep he
    rcases producerStep_cases he with ⟨hwait, -, rfl⟩ | ⟨-, rfl⟩ | ⟨-, hle, rfl⟩
    · exact hs.update hord (fun _ => hs.entered_le X (by rw [hwait]; decide)) (Nat.le_refl _)
    · exact hs.update hord (fun hne => absurd rfl hne) (Nat.le_succ _)
    · exact hs.update hord (fun _ => hle) (Nat.le_refl _)

/-- The producer of `X` has exited, and the other one is in a round that `X`'s never enters. -/
structure Stuck (s : State) (X : Party) : Prop where
  /-- One producer is gone. -/
  exited : (s X).producer = .exited
  /-- The other one is in a round. -/
  inRound : (s X.peer).producer = .inRound
  /-- The round is past the last one the first entered. -/
  lt : (s X).entered < (s X.peer).entered
  /-- `join` has not returned. -/
  not_joined : (s X.peer).joined = false

theorem Stuck.of_step {s s' : State} {X : Party} {t : Thread} (hs : Stuck s X)
    (h : step s t = some s') : Stuck s' X := by
  have hexit := hs.exited
  have hround := hs.inRound
  have hlt := hs.lt
  have hjoin := hs.not_joined
  rcases step_eq_some h with ⟨Y, e, rfl, he, rfl⟩ | ⟨Y, e, rfl, he, rfl⟩
  · rcases X.eq_or_eq_peer Y with rfl | rfl
    · -- the consumer of the exited side: its producer and its rounds stay
      rcases (consumerStep_cases he).2.2 with ⟨-, _, _, _, _, -, rfl⟩ | ⟨-, -, rfl⟩ |
        ⟨-, -, rfl⟩ | ⟨-, rfl⟩ | ⟨-, -, -, -, rfl⟩
      all_goals exact ⟨by simpa using hexit, by simpa using hround, by simpa using hlt,
        by simpa using hjoin⟩
    · -- the other consumer: it cannot join a producer that is in a round
      rcases (consumerStep_cases he).2.2 with ⟨-, _, _, _, _, -, rfl⟩ | ⟨-, -, rfl⟩ |
        ⟨-, -, rfl⟩ | ⟨-, rfl⟩ | ⟨-, -, -, hx, -⟩
      on_goal 5 => exact absurd hx (by rw [hround]; decide)
      all_goals exact ⟨by simpa using hexit, by simpa using hround, by simpa using hlt,
        by simpa using hjoin⟩
  · rcases X.eq_or_eq_peer Y with rfl | rfl
    · rcases producerStep_cases he with ⟨hw, -⟩ | ⟨⟨hw, -⟩, -⟩ | ⟨hr, -⟩
      · exact absurd hw (by rw [hexit]; decide)
      · exact absurd hw (by rw [hexit]; decide)
      · exact absurd hr (by rw [hexit]; decide)
    · rw [X.peer_peer] at he
      rcases producerStep_cases he with ⟨hw, -⟩ | ⟨⟨hw, -⟩, -⟩ | ⟨-, hle, -⟩
      · exact absurd hw (by rw [hround]; decide)
      · exact absurd hw (by rw [hround]; decide)
      · exact absurd hle (Nat.not_le.mpr hlt)

/-- **A stranded producer's party never returns from `join`.** -/
theorem stranded_forever {N : Party → ℕ} {batch : ℕ} {draws : List ℕ} {ts ts' : List Thread}
    {s s' : State} {X : Party} (hrun : run step (init N batch draws) ts = some s)
    (hs : StrandedBy s X) (hrun' : run step s ts' = some s') : (s' X.peer).joined = false := by
  have hlock : Lockstep s :=
    invariant_of_run (fun hs h => hs.of_step h) (lockstep_init N batch draws) hrun
  have hround : (s X.peer).producer = .inRound := by
    by_contra hne
    have hle := hlock.entered_le X.peer hne
    rw [X.peer_peer] at hle
    exact absurd hs.2 (Nat.not_lt.mpr hle)
  have hjoin : (s X.peer).joined = false := by
    rw [← Bool.not_eq_true]
    intro hj
    have hx := (hlock.orderly X.peer).exited_of_joined hj
    rw [hround] at hx
    exact absurd hx (by decide)
  have hkeep : ∀ {s s' : State} {t : Thread}, Stuck s X → step s t = some s' → Stuck s' X :=
    fun hs h => hs.of_step h
  exact (invariant_of_run hkeep ⟨hs.1, hround, hs.2, hjoin⟩ hrun').not_joined

/-- The race: rings of four slots, slots of two correlations, one draw of one correlation.  Both
rings are full; ALICE's producer takes the slot her `release` frees before her `finish`, BOB's
does not. -/
def raceRun : List Thread :=
  (List.replicate 4 [.producer .alice, .producer .bob, .producer .alice, .producer .bob]).flatten ++
    [.consumer .alice, .consumer .alice, .consumer .alice, .consumer .bob, .consumer .bob,
      .consumer .bob, .consumer .alice, .producer .alice, .consumer .alice,
      .consumer .bob, .consumer .bob, .producer .bob]

/-- **The race strands ALICE's producer**: BOB's has exited after four rounds and hers has entered
the fifth. -/
theorem teardown_strands :
    ∃ s, run step (init (fun _ => 4) 2 [1]) raceRun = some s ∧ StrandedBy s .bob :=
  ⟨_, rfl, rfl, by decide⟩

end Pipe

end VoleZk
