import VoleZk.Lib.Gf2k
import VoleZk.Lib.Runs
import VoleZk.Bool.Block

/-!
# The coin toss of the verifiers

Every verifier draws two blocks, commits to them towards each of the others, opens them once it has
all commitments, and returns the exclusive or of everything opened.  The commitments go over
pairwise connections, and each receiver checks the openings it got against the commitments *it*
got.

So a corrupted verifier is bound to one opening per receiver and not to one opening: two honest
verifiers return the same blocks exactly if what the corrupted ones opened to the first has the
same exclusive or as what they opened to the second.

## What is here

* `CoinState.step` — the two threads of `exchange_all` at every honest verifier, the corrupted
  ones, and verifiers that stop;
* `CoinState.Inv` — what honest verifiers sent, and what the buffers of a receiver hold;
* `CoinState.coin_agree_iff` — **when the coins agree**, and that commitments sent alike to all are
  enough;
* `CoinState.coin_disagree` — two honest verifiers and one that equivocates.
-/

set_option autoImplicit false

namespace VoleZk.Mvzk

/-! ## The verifiers -/

/-- `msg`: two blocks and the salt. -/
structure Opening where
  /-- `r[0]`. -/
  r0 : Block
  /-- `r[1]`. -/
  r1 : Block
  /-- `salt`. -/
  salt : Block
  deriving DecidableEq

/-- The verifiers: `hash` stands for `Hash::hash_once`. -/
structure CoinConfig (Com : Type) where
  /-- The number of verifiers. -/
  n : ℕ
  /-- The verifiers that run `coin`. -/
  honest : ℕ → Bool
  /-- The commitment to an opening. -/
  hash : Opening → Com
  /-- What a verifier draws. -/
  msg : ℕ → Opening

/-- What one verifier has sent to another: the bytes of a commitment, then those of an opening.
Whatever a corrupted verifier writes reads as that. -/
structure CoinWire (Com : Type) where
  /-- The commitment. -/
  com : Option Com := none
  /-- The opening. -/
  opening : Option Opening := none

/-- Where in `coin` a verifier is. -/
inductive CoinPhase where
  /-- In the first `exchange_all`. -/
  | committing
  /-- In the second. -/
  | opening
  /-- It returned these blocks. -/
  | returned (out : Block × Block)
  /-- It stopped. -/
  | failed
  deriving DecidableEq

/-- A verifier in `coin`. -/
structure CoinParty (Com : Type) where
  /-- Where it is. -/
  phase : CoinPhase
  /-- `j` of the thread that sends. -/
  tx : ℕ
  /-- `j` of the thread that receives. -/
  rx : ℕ
  /-- `coms`. -/
  coms : ℕ → Option Com
  /-- `got`. -/
  got : ℕ → Option Opening

/-- All verifiers, and what went from one to another. -/
structure CoinState (Com : Type) where
  /-- The verifiers. -/
  party : ℕ → CoinParty Com
  /-- From the first to the second. -/
  wire : ℕ → ℕ → CoinWire Com

/-- What happens next. -/
inductive CoinAction (Com : Type) where
  /-- The sending thread of verifier `i` serves the next peer. -/
  | send (i : ℕ)
  /-- Its receiving thread does. -/
  | recv (i : ℕ)
  /-- Both threads are through: the next exchange, or the checks. -/
  | next (i : ℕ)
  /-- Verifier `i` stops, because another one made it. -/
  | halt (i : ℕ)
  /-- The corrupted verifier `j` commits towards `i`. -/
  | commit (j i : ℕ) (c : Com)
  /-- It opens towards `i`. -/
  | decommit (j i : ℕ) (m : Opening)

namespace CoinConfig

variable {Com : Type} [DecidableEq Com] (C : CoinConfig Com)

/-- The first `k` turns of the loop that checks the openings. -/
def checkLoop (i : ℕ) (coms : ℕ → Option Com) (got : ℕ → Option Opening) :
    ℕ → Option (Block × Block)
  | 0 => some ((C.msg i).r0, (C.msg i).r1)
  | j + 1 => (checkLoop i coms got j).bind fun out =>
    if j = i then some out
    else
      match got j, coms j with
      | some m, some c =>
        if C.hash m = c then some (out.1 ^^^ m.r0, out.2 ^^^ m.r1) else none
      -- not after both exchanges: their loops do not end before the buffers are full
      | _, _ => none

end CoinConfig

namespace CoinState

variable {Com : Type} [DecidableEq Com] (C : CoinConfig Com)

/-- Before `coin`. -/
def init : CoinState Com where
  party i := ⟨.committing, (i + 1) % C.n, (i + C.n - 1) % C.n, fun _ => none, fun _ => none⟩
  wire _ _ := {}

variable {C} (s : CoinState Com)

/-- Another state of verifier `i`. -/
def setParty (i : ℕ) (p : CoinParty Com) : CoinState Com :=
  { s with party := Function.update s.party i p }

/-- More on the connection from `j` to `i`. -/
def setWire (j i : ℕ) (w : CoinWire Com) : CoinState Com :=
  { s with wire := Function.update s.wire j (Function.update (s.wire j) i w) }

variable (C)

/-- One turn of the loop that sends. -/
def send (i : ℕ) : Option (CoinState Com) :=
  let p := s.party i
  let w := s.wire i p.tx
  let s' := s.setParty i { p with tx := (p.tx + 1) % C.n }
  if p.tx = i then none
  else
    match p.phase with
    | .committing => some (s'.setWire i p.tx { w with com := some (C.hash (C.msg i)) })
    | .opening => some (s'.setWire i p.tx { w with opening := some (C.msg i) })
    | _ => none

/-- One turn of the loop that receives. -/
def recv (i : ℕ) : Option (CoinState Com) :=
  let p := s.party i
  let w := s.wire p.rx i
  let p' := { p with rx := (p.rx + C.n - 1) % C.n }
  if p.rx = i then none
  else
    match p.phase with
    | .committing => w.com.map fun c =>
      s.setParty i { p' with coms := Function.update p.coms p.rx (some c) }
    | .opening => w.opening.map fun m =>
      s.setParty i { p' with got := Function.update p.got p.rx (some m) }
    | _ => none

/-- Both loops have ended. -/
def next (i : ℕ) : Option (CoinState Com) :=
  let p := s.party i
  if p.tx = i ∧ p.rx = i then
    match p.phase with
    | .committing => some (s.setParty i
        { p with phase := .opening, tx := (i + 1) % C.n, rx := (i + C.n - 1) % C.n })
    | .opening => some (s.setParty i
        { p with phase := ((C.checkLoop i p.coms p.got C.n).map CoinPhase.returned).getD .failed })
    | _ => none
  else none

/-- Verifier `i` stops. -/
def halt (i : ℕ) : Option (CoinState Com) :=
  match (s.party i).phase with
  | .committing => some (s.setParty i { s.party i with phase := .failed })
  | .opening => some (s.setParty i { s.party i with phase := .failed })
  | _ => none

/-- Only an honest verifier runs `coin`, and only a corrupted one writes what it likes. -/
def step (s : CoinState Com) : CoinAction Com → Option (CoinState Com)
  | .send i => if C.honest i ∧ i < C.n then s.send C i else none
  | .recv i => if C.honest i ∧ i < C.n then s.recv C i else none
  | .next i => if C.honest i ∧ i < C.n then s.next C i else none
  | .halt i => if C.honest i ∧ i < C.n then s.halt i else none
  | .commit j i c =>
    if C.honest j = false ∧ (s.wire j i).com = none then
      some (s.setWire j i { s.wire j i with com := some c })
    else none
  | .decommit j i m =>
    if C.honest j = false ∧ (s.wire j i).com.isSome ∧ (s.wire j i).opening = none then
      some (s.setWire j i { s.wire j i with opening := some m })
    else none

/-! ## What the buffers hold -/

variable {C} {s}

/-- What holds in every reachable state. -/
structure Inv (C : CoinConfig Com) (s : CoinState Com) : Prop where
  /-- An honest verifier commits to what it drew. -/
  com : ∀ j i c, C.honest j → (s.wire j i).com = some c → c = C.hash (C.msg j)
  /-- It opens what it drew. -/
  opening : ∀ j i m, C.honest j → (s.wire j i).opening = some m → m = C.msg j
  /-- The commitments in a buffer arrived there. -/
  coms : ∀ i j c, (s.party i).coms j = some c → (s.wire j i).com = some c
  /-- The openings did, too. -/
  got : ∀ i j m, (s.party i).got j = some m → (s.wire j i).opening = some m
  /-- A verifier that returned has checked its openings. -/
  returned : ∀ i out, (s.party i).phase = .returned out →
    C.honest i ∧ i < C.n ∧ C.checkLoop i (s.party i).coms (s.party i).got C.n = some out

theorem inv_init (C : CoinConfig Com) : (init C).Inv C where
  com _ _ _ _ h := absurd h (by simp [init])
  opening _ _ _ _ h := absurd h (by simp [init])
  coms _ _ _ h := absurd h (by simp [init])
  got _ _ _ h := absurd h (by simp [init])
  returned _ _ h := absurd h (by simp [init])

/-- Nothing that was sent is taken back. -/
theorem Inv.setWire (h : s.Inv C) {j i : ℕ} {w : CoinWire Com}
    (hcom : ∀ c, (s.wire j i).com = some c → w.com = some c)
    (hopening : ∀ m, (s.wire j i).opening = some m → w.opening = some m)
    (hhonest : C.honest j → (∀ c, w.com = some c → c = C.hash (C.msg j)) ∧
      ∀ m, w.opening = some m → m = C.msg j) : (s.setWire j i w).Inv C := by
  have hwire : ∀ j' i', (s.setWire j i w).wire j' i'
      = if j' = j ∧ i' = i then w else s.wire j' i' := fun j' i' => by
    by_cases hj : j' = j
    · subst hj
      by_cases hi : i' = i
      · simp [CoinState.setWire, hi]
      · simp [CoinState.setWire, hi]
    · simp [CoinState.setWire, hj]
  refine ⟨fun j' i' c hj hc => ?_, fun j' i' m hj hm => ?_, fun i' j' c hc => ?_,
    fun i' j' m hm => ?_, h.returned⟩
  · rw [hwire] at hc
    split at hc
    · rename_i heq
      exact heq.1 ▸ (hhonest (heq.1 ▸ hj)).1 c hc
    · exact h.com j' i' c hj hc
  · rw [hwire] at hm
    split at hm
    · rename_i heq
      exact heq.1 ▸ (hhonest (heq.1 ▸ hj)).2 m hm
    · exact h.opening j' i' m hj hm
  · have harrived := h.coms i' j' c hc
    rw [hwire]
    split
    · rename_i heq
      exact hcom c (by rwa [heq.1, heq.2] at harrived)
    · exact harrived
  · have harrived := h.got i' j' m hm
    rw [hwire]
    split
    · rename_i heq
      exact hopening m (by rwa [heq.1, heq.2] at harrived)
    · exact harrived

/-- A verifier takes a step of its own. -/
theorem Inv.setParty (h : s.Inv C) {i : ℕ} {p : CoinParty Com}
    (hcoms : ∀ j c, p.coms j = some c → (s.wire j i).com = some c)
    (hgot : ∀ j m, p.got j = some m → (s.wire j i).opening = some m)
    (hreturned : ∀ out, p.phase = .returned out →
      C.honest i ∧ i < C.n ∧ C.checkLoop i p.coms p.got C.n = some out) :
    (s.setParty i p).Inv C := by
  have hself : (s.setParty i p).party i = p := Function.update_self ..
  have hother : ∀ i', i' ≠ i → (s.setParty i p).party i' = s.party i' := fun i' hi =>
    Function.update_of_ne hi ..
  refine ⟨h.com, h.opening, fun i' j c hc => ?_, fun i' j m hm => ?_, fun i' out hout => ?_⟩
  · by_cases hi : i' = i
    · subst hi
      exact hcoms j c (hself ▸ hc)
    · exact h.coms i' j c (hother i' hi ▸ hc)
  · by_cases hi : i' = i
    · subst hi
      exact hgot j m (hself ▸ hm)
    · exact h.got i' j m (hother i' hi ▸ hm)
  · by_cases hi : i' = i
    · subst hi
      rw [hself] at hout ⊢
      exact hreturned out hout
    · rw [hother i' hi] at hout ⊢
      exact h.returned i' out hout

theorem Inv.send (h : s.Inv C) {i : ℕ} (hi : C.honest i) {s' : CoinState Com}
    (hstep : s.send C i = some s') : s'.Inv C := by
  have hparty : (s.setParty i { s.party i with tx := ((s.party i).tx + 1) % C.n }).Inv C :=
    h.setParty (h.coms i) (h.got i) (h.returned i)
  rw [CoinState.send] at hstep
  split at hstep
  · exact absurd hstep (by simp)
  · split at hstep
    · obtain rfl := Option.some_inj.mp hstep
      refine hparty.setWire (fun c hc => ?_) (fun _ hm => hm) fun _ => ⟨?_, ?_⟩
      · exact congrArg some (h.com i _ c hi hc).symm
      · exact fun c hc => (Option.some_inj.mp hc).symm
      · exact fun m hm => h.opening i _ m hi hm
    · obtain rfl := Option.some_inj.mp hstep
      refine hparty.setWire (fun _ hc => hc) (fun m hm => ?_) fun _ => ⟨?_, ?_⟩
      · exact congrArg some (h.opening i _ m hi hm).symm
      · exact fun c hc => h.com i _ c hi hc
      · exact fun m hm => (Option.some_inj.mp hm).symm
    · exact absurd hstep (by simp)

/-- A buffer with one more entry. -/
theorem update_eq_some {α : Type} {f : ℕ → Option α} {k j : ℕ} {v x : α}
    (h : Function.update f k (some v) j = some x) : (j = k ∧ v = x) ∨ f j = some x := by
  by_cases hj : j = k
  · subst hj
    rw [Function.update_self, Option.some_inj] at h
    exact Or.inl ⟨rfl, h⟩
  · rw [Function.update_of_ne hj] at h
    exact Or.inr h

theorem Inv.recv (h : s.Inv C) {i : ℕ} {s' : CoinState Com} (hstep : s.recv C i = some s') :
    s'.Inv C := by
  rw [CoinState.recv] at hstep
  split at hstep
  · exact absurd hstep (by simp)
  · split at hstep
    · rename_i hphase
      obtain ⟨c, hc, rfl⟩ := Option.map_eq_some_iff.mp hstep
      refine h.setParty (fun j c' hc' => ?_) (h.got i) fun out hout => ?_
      · rcases update_eq_some hc' with ⟨rfl, rfl⟩ | hold
        · exact hc
        · exact h.coms i j c' hold
      · exact absurd (hphase.symm.trans hout) (by simp)
    · rename_i hphase
      obtain ⟨m, hm, rfl⟩ := Option.map_eq_some_iff.mp hstep
      refine h.setParty (h.coms i) (fun j m' hm' => ?_) fun out hout => ?_
      · rcases update_eq_some hm' with ⟨rfl, rfl⟩ | hold
        · exact hm
        · exact h.got i j m' hold
      · exact absurd (hphase.symm.trans hout) (by simp)
    · exact absurd hstep (by simp)

theorem Inv.next (h : s.Inv C) {i : ℕ} (hi : C.honest i ∧ i < C.n) {s' : CoinState Com}
    (hstep : s.next C i = some s') : s'.Inv C := by
  rw [CoinState.next] at hstep
  split at hstep
  · split at hstep
    · obtain rfl := Option.some_inj.mp hstep
      exact h.setParty (h.coms i) (h.got i) fun out hout => absurd hout (by simp)
    · obtain rfl := Option.some_inj.mp hstep
      refine h.setParty (h.coms i) (h.got i) fun out hout => ⟨hi.1, hi.2, ?_⟩
      cases hloop : C.checkLoop i (s.party i).coms (s.party i).got C.n with
      | none =>
        simp only [hloop] at hout
        exact absurd hout (by simp)
      | some out' =>
        simp only [hloop] at hout
        exact congrArg some (CoinPhase.returned.inj hout)
    · exact absurd hstep (by simp)
  · exact absurd hstep (by simp)

theorem Inv.halt (h : s.Inv C) {i : ℕ} {s' : CoinState Com} (hstep : s.halt i = some s') :
    s'.Inv C := by
  rw [CoinState.halt] at hstep
  split at hstep
  · obtain rfl := Option.some_inj.mp hstep
    exact h.setParty (h.coms i) (h.got i) fun out hout => absurd hout (by simp)
  · obtain rfl := Option.some_inj.mp hstep
    exact h.setParty (h.coms i) (h.got i) fun out hout => absurd hout (by simp)
  · exact absurd hstep (by simp)

/-- **One step.** -/
theorem Inv.step (h : s.Inv C) {a : CoinAction Com} {s' : CoinState Com}
    (hstep : s.step C a = some s') : s'.Inv C := by
  cases a with
  | send i =>
    obtain ⟨hi, hsend⟩ := Option.ite_none_right_eq_some.mp hstep
    exact h.send hi.1 hsend
  | recv i =>
    obtain ⟨-, hrecv⟩ := Option.ite_none_right_eq_some.mp hstep
    exact h.recv hrecv
  | next i =>
    obtain ⟨hi, hnext⟩ := Option.ite_none_right_eq_some.mp hstep
    exact h.next hi hnext
  | halt i =>
    obtain ⟨-, hhalt⟩ := Option.ite_none_right_eq_some.mp hstep
    exact h.halt hhalt
  | commit j i c =>
    obtain ⟨⟨hj, hnone⟩, hset⟩ := Option.ite_none_right_eq_some.mp hstep
    obtain rfl := Option.some_inj.mp hset
    refine h.setWire (fun c' hc' => ?_) (fun _ hm => hm) fun hhonest => ?_
    · exact absurd (hnone.symm.trans hc') (by simp)
    · exact absurd (hj.symm.trans hhonest) (by decide)
  | decommit j i m =>
    obtain ⟨⟨hj, -, hnone⟩, hset⟩ := Option.ite_none_right_eq_some.mp hstep
    obtain rfl := Option.some_inj.mp hset
    refine h.setWire (fun _ hc => hc) (fun m' hm' => ?_) fun hhonest => ?_
    · exact absurd (hnone.symm.trans hm') (by simp)
    · exact absurd (hj.symm.trans hhonest) (by decide)

theorem inv_of_run {as : List (CoinAction Com)} {s : CoinState Com}
    (hrun : Runs.run (CoinState.step C) (init C) as = some s) : s.Inv C :=
  Runs.invariant_of_run (fun h hstep => h.step hstep) (inv_init C) hrun

/-! ## The coin -/

/-- The loop of the checks: every opening fits its commitment, and all are added up. -/
theorem checkLoop_eq_some {i : ℕ} {coms : ℕ → Option Com} {got : ℕ → Option Opening} :
    ∀ {k : ℕ} {out : Block × Block}, C.checkLoop i coms got k = some out →
      (∀ j < k, j ≠ i → ∃ m, got j = some m ∧ coms j = some (C.hash m)) ∧
      out.1 = (C.msg i).r0
        ^^^ (Gf2k.xorSum k fun j => if j = i then 0 else ((got j).map Opening.r0).getD 0) ∧
      out.2 = (C.msg i).r1
        ^^^ (Gf2k.xorSum k fun j => if j = i then 0 else ((got j).map Opening.r1).getD 0)
  | 0, out, h => by
    obtain rfl := Option.some_inj.mp h
    simp
  | k + 1, out, h => by
    rw [CoinConfig.checkLoop, Option.bind_eq_some_iff] at h
    obtain ⟨out', hprev, hturn⟩ := h
    obtain ⟨hopen, h0, h1⟩ := checkLoop_eq_some hprev
    simp only [Gf2k.xorSum_succ, ← BitVec.xor_assoc, ← h0, ← h1]
    by_cases hk : k = i
    · rw [if_pos hk] at hturn
      obtain rfl := Option.some_inj.mp hturn
      refine ⟨fun j hj hji => hopen j ?_ hji, by simp [hk], by simp [hk]⟩
      exact (Nat.lt_succ_iff_lt_or_eq.mp hj).resolve_right fun hjk => hji (hjk.trans hk)
    · rw [if_neg hk] at hturn
      split at hturn
      · rename_i m c hm hc
        obtain ⟨hhash, hout⟩ := Option.ite_none_right_eq_some.mp hturn
        obtain rfl := Option.some_inj.mp hout
        refine ⟨fun j hj hji => ?_, by simp [hk, hm], by simp [hk, hm]⟩
        rcases Nat.lt_succ_iff_lt_or_eq.mp hj with hlt | rfl
        · exact hopen j hlt hji
        · exact ⟨m, hm, hhash ▸ hc⟩
      · exact absurd hturn (by simp)

/-- What the honest verifiers drew, added up. -/
def honestSum (C : CoinConfig Com) (lane : Opening → Block) : Block :=
  Gf2k.xorSum C.n fun j => if C.honest j then lane (C.msg j) else 0

/-- What the corrupted verifiers opened to `i`, added up. -/
def corruptSum (C : CoinConfig Com) (s : CoinState Com) (i : ℕ) (lane : Opening → Block) : Block :=
  Gf2k.xorSum C.n fun j => if C.honest j then 0 else (((s.wire j i).opening).map lane).getD 0

/-- **What a verifier returns**: all draws of the honest ones, and what the others opened to it. -/
theorem Inv.returned_eq (h : s.Inv C) {i : ℕ} {out : Block × Block}
    (hout : (s.party i).phase = .returned out) :
    out = (honestSum C Opening.r0 ^^^ corruptSum C s i Opening.r0,
      honestSum C Opening.r1 ^^^ corruptSum C s i Opening.r1) := by
  obtain ⟨hhonest, hi, hloop⟩ := h.returned i out hout
  obtain ⟨hopen, h0, h1⟩ := checkLoop_eq_some hloop
  have hlane : ∀ lane : Opening → Block, lane (C.msg i) ^^^ (Gf2k.xorSum C.n fun j =>
      if j = i then 0 else (((s.party i).got j).map lane).getD 0)
      = honestSum C lane ^^^ corruptSum C s i lane := fun lane => by
    rw [honestSum, corruptSum, ← Gf2k.xorSum_xor]
    nth_rewrite 1 [← Gf2k.xorSum_single hi (lane (C.msg i))]
    rw [← Gf2k.xorSum_xor]
    refine Gf2k.xorSum_congr fun j hj => ?_
    by_cases hji : j = i
    · simp [hji, hhonest]
    · obtain ⟨m, hgot, -⟩ := hopen j hj hji
      have harrived := h.got i j m hgot
      rw [if_neg hji, if_neg hji, hgot, harrived]
      by_cases hjh : C.honest j
      · rw [if_pos hjh, if_pos hjh, ← h.opening j i m hjh harrived]
        simp
      · rw [if_neg hjh, if_neg hjh]
  exact Prod.ext (h0.trans (hlane _)) (h1.trans (hlane _))

/-- All verifiers that returned hold the same blocks. -/
def Agree (s : CoinState Com) : Prop :=
  ∀ i i' out out', (s.party i).phase = .returned out → (s.party i').phase = .returned out' →
    out = out'

/-- A returned verifier has, from each other one, an opening that fits the commitment. -/
theorem Inv.opened (h : s.Inv C) {i : ℕ} {out : Block × Block}
    (hout : (s.party i).phase = .returned out) {j : ℕ} (hj : j < C.n) (hji : j ≠ i) :
    ∃ m, (s.wire j i).opening = some m ∧ (s.wire j i).com = some (C.hash m) := by
  obtain ⟨-, -, hloop⟩ := h.returned i out hout
  obtain ⟨m, hgot, hcom⟩ := (checkLoop_eq_some hloop).1 j hj hji
  exact ⟨m, h.got i j m hgot, h.coms i j _ hcom⟩

/-- **When the coins agree.**  In every run, the honest verifiers that return hold the same blocks
exactly if the corrupted ones opened the same to them, added up; and they do if these commit alike
to all. -/
theorem coin_agree_iff {C : CoinConfig Com} (hinj : Function.Injective C.hash)
    {as : List (CoinAction Com)} {s : CoinState Com}
    (hrun : Runs.run (CoinState.step C) (init C) as = some s) :
    (s.Agree ↔ ∀ i i' out out', (s.party i).phase = .returned out →
      (s.party i').phase = .returned out' →
        corruptSum C s i Opening.r0 = corruptSum C s i' Opening.r0 ∧
          corruptSum C s i Opening.r1 = corruptSum C s i' Opening.r1) ∧
    ((∀ j < C.n, C.honest j = false → ∀ i i' out out', (s.party i).phase = .returned out →
      (s.party i').phase = .returned out' → (s.wire j i).com = (s.wire j i').com) → s.Agree) := by
  have h := inv_of_run hrun
  have hiff : s.Agree ↔ ∀ i i' out out', (s.party i).phase = .returned out →
      (s.party i').phase = .returned out' →
        corruptSum C s i Opening.r0 = corruptSum C s i' Opening.r0 ∧
          corruptSum C s i Opening.r1 = corruptSum C s i' Opening.r1 := by
    refine forall₄_congr fun i i' out out' => forall₂_congr fun hout hout' => ?_
    rw [h.returned_eq hout, h.returned_eq hout', Prod.mk.injEq, BitVec.xor_right_inj,
      BitVec.xor_right_inj]
  refine ⟨hiff, fun hcom => hiff.mpr fun i i' out out' hout hout' => ?_⟩
  have hsame : ∀ lane, corruptSum C s i lane = corruptSum C s i' lane := fun lane => by
    refine Gf2k.xorSum_congr fun j hj => ?_
    cases hjh : C.honest j with
    | true => rfl
    | false =>
      have hne : ∀ i, C.honest i → j ≠ i := fun i hi heq => by
        rw [← heq, hjh] at hi
        exact absurd hi (by decide)
      obtain ⟨m, hm, hc⟩ := h.opened hout hj (hne i (h.returned i out hout).1)
      obtain ⟨m', hm', hc'⟩ := h.opened hout' hj (hne i' (h.returned i' out' hout').1)
      have heq := hcom j hj hjh i i' out out' hout hout'
      rw [hc, hc', Option.some_inj] at heq
      rw [hm, hm', hinj heq]
  exact ⟨hsame _, hsame _⟩

/-- Two honest verifiers and a corrupted one, with commitments that hide nothing. -/
def threeVerifiers : CoinConfig Opening where
  n := 3
  honest i := i != 2
  hash := id
  msg i := ⟨BitVec.ofNat 128 i, 0, 0⟩

/-- Everybody in turn; the corrupted verifier commits to `m 0` and `m 1` and opens them. -/
def equivocate (m : ℕ → Opening) : List (CoinAction Opening) :=
  let exchange := [.send 0, .send 0, .send 1, .send 1, .recv 0, .recv 0, .recv 1, .recv 1, .next 0,
    .next 1]
  [.commit 2 0 (m 0), .commit 2 1 (m 1)] ++ exchange
    ++ [.decommit 2 0 (m 0), .decommit 2 1 (m 1)] ++ exchange

/-- A corrupted verifier that opens 7 to both. -/
theorem coin_agree_seven : ∃ s, Runs.run (step threeVerifiers) (init threeVerifiers)
      (equivocate fun _ => ⟨7, 0, 0⟩) = some s ∧ s.Agree := by
  obtain ⟨s, hrun⟩ : ∃ s, Runs.run (step threeVerifiers) (init threeVerifiers)
    (equivocate fun _ => ⟨7, 0, 0⟩) = some s := Option.isSome_iff_exists.mp (by decide +kernel)
  refine ⟨s, hrun, (coin_agree_iff Function.injective_id hrun).2 ?_⟩
  have hcom : ∀ i < 2, (Runs.run (step threeVerifiers) (init threeVerifiers)
      (equivocate fun _ => ⟨7, 0, 0⟩)).map (fun s => (s.wire 2 i).com)
      = some (some ⟨7, 0, 0⟩) := by decide +kernel
  simp only [hrun, Option.map_some, Option.some_inj] at hcom
  have hreturned : ∀ i out, (s.party i).phase = .returned out → i < 2 := fun i out hout => by
    obtain ⟨hhonest, hi, -⟩ := (inv_of_run hrun).returned i out hout
    have hne : i ≠ 2 := by simpa [threeVerifiers] using hhonest
    have hlt : i < 3 := hi
    omega
  have hcorrupt : ∀ j < 3, threeVerifiers.honest j = false → j = 2 := by decide
  intro j hj hjh i i' out out' hout hout'
  rw [hcorrupt j hj hjh, hcom i (hreturned i out hout), hcom i' (hreturned i' out' hout')]

/-- **Equivocation**: the corrupted verifier opens 7 to one and 8 to the other, both honest
verifiers return, and their coins differ. -/
theorem coin_disagree : Function.Injective threeVerifiers.hash ∧
    ∃ s, Runs.run (step threeVerifiers) (init threeVerifiers)
      (equivocate fun i => ⟨BitVec.ofNat 128 (7 + i), 0, 0⟩) = some s ∧ ¬ s.Agree := by
  obtain ⟨s, hrun⟩ : ∃ s, Runs.run (step threeVerifiers) (init threeVerifiers)
    (equivocate fun i => ⟨BitVec.ofNat 128 (7 + i), 0, 0⟩) = some s :=
    Option.isSome_iff_exists.mp (by decide +kernel)
  have hphase : ∀ i < 2, (Runs.run (step threeVerifiers) (init threeVerifiers)
      (equivocate fun i => ⟨BitVec.ofNat 128 (7 + i), 0, 0⟩)).map (fun s => (s.party i).phase)
      = some (.returned (BitVec.ofNat 128 (6 + 3 * i), 0)) := by decide +kernel
  simp only [hrun, Option.map_some, Option.some_inj] at hphase
  refine ⟨Function.injective_id, s, hrun, fun h => ?_⟩
  exact absurd (h 0 1 _ _ (hphase 0 (by decide)) (hphase 1 (by decide))) (by decide)

end CoinState

end VoleZk.Mvzk
