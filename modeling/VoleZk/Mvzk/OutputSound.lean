import VoleZk.Mvzk.CheckRuns
import VoleZk.Mvzk.MaskedCheck

/-!
# What the verifiers accept as an output

A prover that does not follow the protocol sends a verifier any field element as its packed share of
a batch, so that the shares of a batch need not belong to a polynomial of low degree, and their
product with the shares of the global key authenticates nothing.  But what the verifiers get for
their MACs is still linear in their keys and in the coins they deal them with.  If every share of
the key changes by the same amount, as it does when a verifier's key and its coins all do, then
so do the MACs of a wire, by the amount times what the shares of the wire add up to.  Hence of all
such keys at most one makes the verifiers accept a wrong output.

## What is here

* `MacKeys`, `BackendConfig.withKeys`, `Verifier.shareDelta_shift` — **keys and coins, and a change
  of all shares of the global key**;
* `WireExpr`, what a verifier's share of a wire is made of, and `WireExpr.excess_shift`;
* `Sym`, `Sym.tracks_run` — **a verifier's memory after a circuit**, whatever the messages are;
* `committed`, `Verifier.Ran.sum_share`, `Verifier.Ran.revealCheck_iff` — what the messages make of
  a cell, and what the verifiers accept for it;
* `outputs_sound` — **the keys and coefficients that let a wrong output through.**
-/

set_option autoImplicit false

open Finset

namespace VoleZk.Mvzk

/-! ## Keys -/

/-- What the verifiers draw: their parts of the global key, and the shares they deal of it, by
verifier, slot and index. -/
abbrev MacKeys (F : Type*) (n k t : ℕ) : Type _ := (Fin n → F) × (Fin n → Fin k → Fin t → F)

section Keys

variable {F : Type*} [Field F] {n k t : ℕ}

/-- The parts of the global key. -/
def MacKeys.delta (x : MacKeys F n k t) : ℕ → F := streamOf x.1

/-- What the generators returned. -/
def MacKeys.rand (x : MacKeys F n k t) (d m l : ℕ) : F :=
  streamOf (fun d => streamOf (fun m => streamOf (x.2 d m) l) m) d

/-- The session under other keys: the secrets and the keys of the correlations stay as they are. -/
def BackendConfig.withKeys (C : BackendConfig F) (x : MacKeys F n k t) : BackendConfig F :=
  { C with
    delta := x.delta
    macs := fun e i j l => C.keys e j i l + C.secrets e i l * x.delta j
    rand := x.rand }

/-- The first verifier's key and its coins, all `c`. -/
def MacKeys.shift (n k t : ℕ) : F →+ MacKeys F n k t where
  toFun c := (fun d => if d.val = 0 then c else 0, fun d _ _ => if d.val = 0 then c else 0)
  map_zero' := by
    refine Prod.ext (funext fun d => ?_) (funext fun d => funext fun m => funext fun l => ?_) <;>
      simp
  map_add' a b := by
    refine Prod.ext (funext fun d => ?_) (funext fun d => funext fun m => funext fun l => ?_) <;>
    · by_cases hd : d.val = 0 <;> simp [hd]

theorem MacKeys.delta_shift (x : MacKeys F n k t) (c : F) {d : ℕ} (hd : d < n) :
    (x + shift n k t c).delta d = x.delta d + if d = 0 then c else 0 := by
  simp [delta, streamOf, hd, shift]

theorem MacKeys.rand_shift (x : MacKeys F n k t) (c : F) {d m l : ℕ} (hd : d < n) (hm : m < k)
    (hl : l < t) : (x + shift n k t c).rand d m l = x.rand d m l + if d = 0 then c else 0 := by
  simp [rand, streamOf, hd, hm, hl, shift]

theorem MacKeys.sum_delta_shift (x : MacKeys F n k t) (c : F) (hn : 0 < n) :
    ∑ d ∈ range n, (x + shift n k t c).delta d = ∑ d ∈ range n, x.delta d + c := by
  rw [sum_congr rfl fun d hd => x.delta_shift c (mem_range.mp hd), sum_add_distrib,
    sum_ite_eq' (range n) 0 fun _ => c, if_pos (mem_range.mpr hn)]

/-- **A dealing in which the key and all coins change by `c`**: so do all shares. -/
theorem Verifier.dealMacKey_shift {poly : Poly F} {tab : LagrangeTables F} (htab : tab.Ok poly)
    {m j : ℕ} (hm : m < poly.k) (hj : j < poly.n) (delta c : F) {rand rand' : ℕ → ℕ → F}
    (hrand : ∀ l < poly.t, rand' m l = rand m l + c) :
    dealMacKey poly tab (delta + c) rand' m j = dealMacKey poly tab delta rand m j + c := by
  rw [dealMacKey, dealMacKey]
  split
  · next hlow => exact hrand j hlow
  · next hhigh =>
    have hrow : j - poly.t < poly.k := by
      rw [Poly.t] at hhigh ⊢
      omega
    -- the coefficients of the row add up to 1
    have hone := Interpolation.sum_lagCoeff (htab.injOnKey m hm) (Nat.succ_pos _)
      (poly.evalPointsN (poly.t + (j - poly.t)))
    rw [← sum_congr rfl fun l hl => htab.kByTp1 m hm _ hrow l (mem_range.mp hl),
      sum_range_succ'] at hone
    rw [sum_congr rfl fun l hl => congrArg (_ * ·) (hrand l (mem_range.mp hl))]
    simp only [mul_add, sum_add_distrib, ← sum_mul]
    linear_combination c * hone

theorem Verifier.shareDelta_withKeys (C : BackendConfig F) (x : MacKeys F n k t) (i m : ℕ) :
    shareDelta (C.withKeys x) i m
      = ∑ d ∈ range C.poly.n, dealMacKey C.poly C.tab (x.delta d) (x.rand d) m i := rfl

/-- **All shares of the global key change by `c`.** -/
theorem Verifier.shareDelta_shift {C : BackendConfig F} (htab : C.tab.Ok C.poly) {m i : ℕ}
    (hm : m < C.poly.k) (hi : i < C.poly.n) (x : MacKeys F C.poly.n C.poly.k C.poly.t) (c : F) :
    shareDelta (C.withKeys (x + MacKeys.shift _ _ _ c)) i m
      = shareDelta (C.withKeys x) i m + c := by
  have hdeal : ∀ d ∈ range C.poly.n,
      dealMacKey C.poly C.tab ((x + MacKeys.shift _ _ _ c).delta d)
          ((x + MacKeys.shift _ _ _ c).rand d) m i
        = dealMacKey C.poly C.tab (x.delta d) (x.rand d) m i + if d = 0 then c else 0 := by
    intro d hd
    have hd := mem_range.mp hd
    rw [x.delta_shift c hd]
    exact dealMacKey_shift htab hm hi _ _ fun l hl => x.rand_shift c hd hm hl
  rw [shareDelta_withKeys, shareDelta_withKeys, sum_congr rfl hdeal, sum_add_distrib,
    sum_ite_eq' (range C.poly.n) 0 fun _ => c, if_pos (mem_range.mpr (Poly.n_pos _))]

end Keys

/-! ## Wires -/

/-- What a verifier's share of a wire is made of: a slot of a batch, with the packed share that
arrives as number `batch`, and sums. -/
inductive WireExpr where
  /-- A cell that is not written. -/
  | zero
  /-- A wire of a batch. -/
  | packed (batch : ℕ) (source : ℕ × ℕ) (slot : ℕ)
  /-- A sum. -/
  | add (x y : WireExpr)

namespace WireExpr

variable {F : Type*} [Field F] (C : BackendConfig F)

/-- The share of verifier `i`, with the packed shares `s`. -/
def eval (i : ℕ) (s : ℕ → F) : WireExpr → AuthShare F
  | zero => 0
  | packed batch source slot => Verifier.genShares C i source (s batch) slot
  | add x y => x.eval i s + y.eval i s

/-- The slots exist. -/
def Within (k : ℕ) : WireExpr → Prop
  | zero => True
  | packed _ _ slot => slot < k
  | add x y => x.Within k ∧ y.Within k

/-- What the shares of the verifiers add up to. -/
def value (s : ℕ → ℕ → F) (w : WireExpr) : F := ∑ i ∈ range C.poly.n, (w.eval C i (s i)).share

/-- By how much the MACs exceed the keys. -/
def excess (s : ℕ → ℕ → F) (w : WireExpr) : F :=
  ∑ i ∈ range C.poly.n, ((w.eval C i (s i)).mac - (w.eval C i (s i)).key)

variable {C} {n k t : ℕ}

/-- The shares do not depend on the keys. -/
theorem share_eval_withKeys (x : MacKeys F n k t) (i : ℕ) (s : ℕ → F) (w : WireExpr) :
    (w.eval (C.withKeys x) i s).share = (w.eval C i s).share := by
  induction w with
  | zero => rfl
  | packed batch source slot => rfl
  | add a b iha ihb => simp only [eval, AuthShare.share_add, iha, ihb]

/-- The excess of a wire of a batch. -/
theorem excess_packed (h : C.Right) (s : ℕ → ℕ → F) (batch : ℕ) (source : ℕ × ℕ) {slot : ℕ}
    (hslot : slot < C.poly.k) : (packed batch source slot).excess C s
      = (∑ i ∈ range C.poly.n, C.delta i) * Prover.randAuthVal C source slot
        + ∑ i ∈ range C.poly.n, C.tab.lagrangeTableKByN slot i
          * (s i batch * Verifier.shareDelta C i slot) := by
  have hpre := (Verifier.randAuthVal_shared h source hslot).mac_sum
  rw [excess, ← sub_eq_iff_eq_add'.mpr hpre, ← sum_sub_distrib, ← sum_add_distrib]
  refine sum_congr rfl fun i _ => ?_
  rw [eval, Verifier.genShares, Poly.lagrangeEvalOne2K]
  ring

/-- **If every share of the key changes by `c`**, the MACs of a wire change by `c` times what its
shares add up to. -/
theorem excess_shift (h : ∀ x : MacKeys F C.poly.n C.poly.k C.poly.t, (C.withKeys x).Right)
    (s : ℕ → ℕ → F) (x : MacKeys F C.poly.n C.poly.k C.poly.t) (c : F) (w : WireExpr)
    (hw : w.Within C.poly.k) :
    w.excess (C.withKeys (x + MacKeys.shift _ _ _ c)) s
      = w.excess (C.withKeys x) s + c * w.value C s := by
  induction w with
  | zero => simp [excess, value, eval]
  | packed batch source slot =>
    have hn := Poly.n_pos C.poly
    have htab : C.tab.Ok C.poly := (h x).tab
    have hpre := (Verifier.randAuthVal_shared (h x) source hw).share_sum
    rw [excess_packed (h _) s batch source hw, excess_packed (h x) s batch source hw]
    have hdelta : ∑ i ∈ range C.poly.n, (C.withKeys (x + MacKeys.shift _ _ _ c)).delta i
        = ∑ i ∈ range C.poly.n, (C.withKeys x).delta i + c := x.sum_delta_shift c hn
    have hshare : ∀ i ∈ range C.poly.n, C.tab.lagrangeTableKByN slot i
          * (s i batch * Verifier.shareDelta (C.withKeys (x + MacKeys.shift _ _ _ c)) i slot)
        = C.tab.lagrangeTableKByN slot i
            * (s i batch * Verifier.shareDelta (C.withKeys x) i slot)
          + c * (C.tab.lagrangeTableKByN slot i * s i batch) := fun i hi => by
      rw [Verifier.shareDelta_shift htab hw (mem_range.mp hi)]
      ring
    have hvalue : (packed batch source slot).value C s = Prover.randAuthVal C source slot
        + ∑ i ∈ range C.poly.n, C.tab.lagrangeTableKByN slot i * s i batch := by
      have hpre : ∑ i ∈ range C.poly.n, (Verifier.randAuthVal C i source slot).share
          = Prover.randAuthVal C source slot := hpre
      rw [← hpre, ← sum_add_distrib]
      rfl
    show (∑ i ∈ range C.poly.n, (C.withKeys (x + MacKeys.shift _ _ _ c)).delta i)
        * Prover.randAuthVal C source slot + ∑ i ∈ range C.poly.n, C.tab.lagrangeTableKByN slot i
          * (s i batch * Verifier.shareDelta (C.withKeys (x + MacKeys.shift _ _ _ c)) i slot)
      = (∑ i ∈ range C.poly.n, (C.withKeys x).delta i) * Prover.randAuthVal C source slot
        + ∑ i ∈ range C.poly.n, C.tab.lagrangeTableKByN slot i
          * (s i batch * Verifier.shareDelta (C.withKeys x) i slot) + _
    rw [hdelta, sum_congr rfl hshare, sum_add_distrib, ← mul_sum, hvalue]
    ring
  | add a b iha ihb =>
    have hexcess : ∀ D : BackendConfig F, (add a b).excess D s = a.excess D s + b.excess D s :=
      fun D => by
        rw [excess, excess, excess, ← sum_add_distrib]
        exact sum_congr rfl fun i _ => by
          simp only [eval, AuthShare.mac_add, AuthShare.key_add]
          ring
    have hvalue : (add a b).value C s = a.value C s + b.value C s := sum_add_distrib
    rw [hexcess, hexcess, hvalue, iha hw.1, ihb hw.2]
    ring

end WireExpr

/-! ## A verifier's memory -/

section Tracks

variable {F : Type*} [Field F] (C : BackendConfig F)

/-- The packed shares among the messages. -/
def sharesOf (queue : List (Msg F)) : List F :=
  queue.filterMap fun
    | .share s => some s
    | _ => none

/-- The preprocessed sharings after the rounds of a check. -/
def afterDiffs (lens : List ℕ) (pre : PreAuthSharing C.usable) : PreAuthSharing C.usable :=
  lens.foldl (fun pre len =>
    let nBatch := (len + C.poly.k - 1) / C.poly.k
    ((pre.ensure C.usable_pos nBatch).ensure C.usable_pos nBatch).advance nBatch) pre

/-- What all verifiers have in common, whatever they receive. -/
structure Sym (usable : ℕ) where
  /-- `preAuthSharing`, `preAuthSharingPtr`. -/
  pre : PreAuthSharing usable
  /-- The pending wires. -/
  wires : List PendingWire
  /-- `multGatePtr`. -/
  gates : ℕ
  /-- `batchesDone`. -/
  batches : ℕ
  /-- What the cells are made of. -/
  mem : ℕ → WireExpr

namespace Sym

/-- `verifyAuthTriple`. -/
def verifyAuthTriple (s : Sym C.usable) : Sym C.usable :=
  { s with pre := afterDiffs C (checkLens s.gates) s.pre, gates := 0 }

/-- The check at the end of a batch. -/
def checkIfFull (s : Sym C.usable) : Sym C.usable :=
  if s.gates ≥ multGateBufSz then s.verifyAuthTriple C else s

/-- `shareBatch`. -/
def shareBatch (s : Sym C.usable) : Sym C.usable :=
  let pre := s.pre.ensure C.usable_pos 1
  checkIfFull C
    { pre := pre.advance 1
      wires := []
      gates := s.gates + (s.wires.filter PendingWire.isMult).length
      batches := s.batches + 1
      mem := writeAll (.packed s.batches (pre.source pre.ptr)) s.wires 0 s.mem }

/-- `share`. -/
def share (w : PendingWire) (s : Sym C.usable) : Sym C.usable :=
  let s := { s with wires := s.wires ++ [w] }
  if s.wires.length = C.poly.k then s.shareBatch C else s

/-- `shareFlush`. -/
def shareFlush (s : Sym C.usable) : Sym C.usable :=
  if s.wires.length ≠ 0 then s.shareBatch C else s

/-- `multFlush`. -/
def multFlush (s : Sym C.usable) : Sym C.usable :=
  let s := s.shareFlush C
  if s.gates ≠ 0 then s.verifyAuthTriple C else s

/-- A gate. -/
def step (s : Sym C.usable) : Gate F → Sym C.usable
  | .input out _ => s.share C ⟨out, none⟩
  | .add res lhs rhs => { s with mem := Function.update s.mem res (.add (s.mem lhs) (s.mem rhs)) }
  | .mult res lhs rhs => s.share C ⟨res, some (lhs, rhs)⟩
  | .flush => s.shareFlush C
  | .finalize => s.multFlush C

/-- Before the first gate. -/
def init (usable : ℕ) : Sym usable :=
  { pre := .init usable, wires := [], gates := 0, batches := 0, mem := fun _ => .zero }

/-- Verifier `i` is where it should be, with `queue` left of the messages `all`. -/
structure Tracks (i : ℕ) (all : List (Msg F)) (s : Sym C.usable)
    (v : VerifierState F PendingWire (ℕ → AuthShare F) C.usable) (queue : List (Msg F)) : Prop where
  /-- The preprocessed sharings. -/
  pre : v.pre = s.pre
  /-- The pending wires. -/
  wires : v.wires = s.wires
  /-- The recorded triples. -/
  gates : v.multGate.length = s.gates
  /-- The cells. -/
  mem : v.mem = fun c => (s.mem c).eval C i ((sharesOf all).getD · 0)
  /-- The packed shares that are still to come. -/
  queue : sharesOf queue = (sharesOf all).drop s.batches

end Sym

/-! ### Messages -/

variable {C}

omit [Field F] in
theorem sharesOf_recvExtend {cnt : ℕ} {queue rest : List (Msg F)}
    (h : Msg.recvExtend cnt queue = some rest) : sharesOf rest = sharesOf queue := by
  induction cnt generalizing queue with
  | zero =>
    cases h
    rfl
  | succ cnt ih =>
    match queue, h with
    | .extend :: queue', h =>
      have hrest : sharesOf rest = sharesOf queue' := ih h
      exact hrest

omit [Field F] in
theorem ensurePreAuth_spec {num : ℕ} {pre pre' : PreAuthSharing C.usable}
    {queue rest : List (Msg F)}
    (h : Verifier.ensurePreAuth C num pre queue = some (pre', rest)) :
    pre' = pre.ensure C.usable_pos num ∧ sharesOf rest = sharesOf queue := by
  obtain ⟨queue', hrecv, heq⟩ := Option.map_eq_some_iff.mp h
  cases heq
  exact ⟨rfl, sharesOf_recvExtend hrecv⟩

omit [Field F] in
theorem sharesOf_recvDiff {len : ℕ} {queue rest : List (Msg F)}
    (h : Msg.recvDiff len queue = some rest) : sharesOf rest = sharesOf queue := by
  match queue, h with
  | .diff len' :: queue, h =>
    rw [Msg.recvDiff] at h
    split at h
    · cases h
      rfl
    · cases h

omit [Field F] in
theorem sharesOf_recvComs {cnt : ℕ} {queue rest : List (Msg F)}
    (h : Msg.recvComs cnt queue = some rest) : sharesOf rest = sharesOf queue := by
  match queue, h with
  | .coms cnt' :: queue, h =>
    rw [Msg.recvComs] at h
    split at h
    · cases h
      rfl
    · cases h

omit [Field F] in
theorem recvDiffs_spec {lens : List ℕ} {pre pre' : PreAuthSharing C.usable}
    {queue rest : List (Msg F)} (h : Verifier.recvDiffs C lens pre queue = some (pre', rest)) :
    pre' = afterDiffs C lens pre ∧ sharesOf rest = sharesOf queue := by
  induction lens generalizing pre queue with
  | nil =>
    cases h
    exact ⟨rfl, rfl⟩
  | cons len lens ih =>
    obtain ⟨⟨pre₁, queue₁⟩, hens₁, h⟩ := Option.bind_eq_some_iff.mp h
    obtain ⟨queue₂, hdiff, h⟩ := Option.bind_eq_some_iff.mp h
    obtain ⟨⟨pre₂, queue₃⟩, hens₂, h⟩ := Option.bind_eq_some_iff.mp h
    obtain ⟨rfl, hq₁⟩ := ensurePreAuth_spec hens₁
    obtain ⟨rfl, hq₂⟩ := ensurePreAuth_spec hens₂
    obtain ⟨rfl, hrest⟩ := ih h
    exact ⟨rfl, hrest.trans (hq₂.trans ((sharesOf_recvDiff hdiff).trans hq₁))⟩

/-! ### A run -/

namespace Sym

variable {i : ℕ} {all queue rest : List (Msg F)} {s : Sym C.usable}
  {v v' : VerifierState F PendingWire (ℕ → AuthShare F) C.usable}

theorem Tracks.verifyAuthTriple (h : s.Tracks C i all v queue)
    (hrun : Verifier.verifyAuthTriple C v queue = some (v', rest)) :
    (s.verifyAuthTriple C).Tracks C i all v' rest := by
  obtain ⟨queue', hcoms, hrun⟩ := Option.bind_eq_some_iff.mp hrun
  obtain ⟨⟨pre, queue''⟩, hdiffs, heq⟩ := Option.map_eq_some_iff.mp hrun
  cases heq
  obtain ⟨rfl, hrest⟩ := recvDiffs_spec hdiffs
  refine ⟨?_, h.wires, rfl, h.mem, hrest.trans ((sharesOf_recvComs hcoms).trans h.queue)⟩
  rw [h.gates, h.pre]
  rfl

theorem Tracks.checkIfFull (h : s.Tracks C i all v queue)
    (hrun : Verifier.checkIfFull C v queue = some (v', rest)) :
    (s.checkIfFull C).Tracks C i all v' rest := by
  rw [Verifier.checkIfFull, h.gates] at hrun
  rw [Sym.checkIfFull]
  split at hrun
  · next hfull =>
    rw [if_pos hfull]
    exact h.verifyAuthTriple hrun
  · next hroom =>
    rw [if_neg hroom]
    cases hrun
    exact h

omit [Field F] in
/-- The loop of `shareBatch`. -/
theorem fillWires_spec {shares : ℕ → AuthShare F} {ws : List PendingWire} {slot : ℕ}
    (hrun : Verifier.fillWires C fillCell shares ws slot v = some v') :
    v'.pre = v.pre ∧
      v'.multGate.length = v.multGate.length + (ws.filter PendingWire.isMult).length ∧
      v'.mem = writeAll shares ws slot v.mem := by
  induction ws generalizing slot v with
  | nil =>
    cases hrun
    exact ⟨rfl, rfl, rfl⟩
  | cons w ws ih =>
    rw [Verifier.fillWires, fillCell, Option.bind_some] at hrun
    obtain ⟨v₁, hone, hrun⟩ := Option.bind_eq_some_iff.mp hrun
    obtain ⟨hpre, hgates, hmem⟩ := ih hrun
    cases hw : w.inputs with
    | none =>
      simp only [hw, Option.map_none, Option.some_inj] at hone
      subst hone
      refine ⟨hpre, ?_, hmem⟩
      rw [hgates, List.filter_cons_of_neg (by simp [PendingWire.isMult, hw])]
    | some lr =>
      simp only [hw, Option.map_some, Verifier.mult] at hone
      split at hone
      · cases hone
        refine ⟨hpre, ?_, hmem⟩
        rw [hgates, List.filter_cons_of_pos (by simp [PendingWire.isMult, hw])]
        show (v.multGate ++ [_]).length + _ = _
        rw [List.length_append, List.length_singleton, List.length_cons]
        omega
      · cases hone

/-- Cells that are written are evaluated as they are written. -/
theorem map_writeAll {α β : Type*} (f : α → β) (vals : ℕ → α) (ws : List PendingWire) (slot : ℕ)
    (mem : ℕ → α) : (fun c => f (writeAll vals ws slot mem c))
      = writeAll (fun j => f (vals j)) ws slot fun c => f (mem c) := by
  funext c
  rw [writeAll_apply, writeAll_apply]
  cases lastSlot c ws slot <;> rfl

theorem Tracks.shareBatch (h : s.Tracks C i all v queue)
    (hrun : Verifier.shareBatch C fillCell i v queue = some (v', rest)) :
    (s.shareBatch C).Tracks C i all v' rest := by
  obtain ⟨⟨pre, queue₁⟩, hens, hrun⟩ := Option.bind_eq_some_iff.mp hrun
  obtain ⟨⟨sh, queue₂⟩, hshare, hrun⟩ := Option.bind_eq_some_iff.mp hrun
  obtain ⟨v₁, hfill, hcheck⟩ := Option.bind_eq_some_iff.mp hrun
  obtain ⟨rfl, hq₁⟩ := ensurePreAuth_spec hens
  obtain ⟨hpre, hgates, hmem⟩ := fillWires_spec hfill
  -- the packed share is the next one of the messages
  have hcons : sharesOf queue₁ = sh :: sharesOf queue₂ := by
    match queue₁, hshare with
    | .share _ :: queue₁, hshare =>
      cases hshare
      rfl
  rw [hq₁, h.queue] at hcons
  have hhead : (sharesOf all).getD s.batches 0 = sh := by
    have hget := congrArg (·[0]?) hcons
    simp only [List.getElem?_drop, Nat.add_zero, List.getElem?_cons_zero] at hget
    rw [List.getD_eq_getElem?_getD, hget, Option.getD_some]
  have htail : sharesOf queue₂ = (sharesOf all).drop (s.batches + 1) := by
    rw [← List.drop_drop, hcons, List.drop_one, List.tail_cons]
  refine Tracks.checkIfFull ⟨?_, rfl, ?_, ?_, htail⟩ hcheck
  · rw [hpre, h.pre]
  · rw [hgates, h.gates, h.wires]
  · rw [hmem, h.mem, h.wires, h.pre, map_writeAll fun w : WireExpr => w.eval C i _]
    simp only [WireExpr.eval, hhead]

theorem Tracks.share (h : s.Tracks C i all v queue) (w : PendingWire)
    (hrun : Verifier.share C fillCell i w v queue = some (v', rest)) :
    (s.share C w).Tracks C i all v' rest := by
  have hpush : Tracks C i all { s with wires := s.wires ++ [w] }
      { v with wires := v.wires ++ [w] } queue :=
    ⟨h.pre, congrArg (· ++ [w]) h.wires, h.gates, h.mem, h.queue⟩
  rw [Verifier.share] at hrun
  rw [Sym.share]
  simp only [h.wires] at hrun hpush
  dsimp only
  split at hrun
  · next hfull =>
    rw [if_pos hfull]
    exact hpush.shareBatch hrun
  · next hroom =>
    rw [if_neg hroom]
    cases hrun
    exact hpush

theorem Tracks.shareFlush (h : s.Tracks C i all v queue)
    (hrun : Verifier.shareFlush C fillCell i v queue = some (v', rest)) :
    (s.shareFlush C).Tracks C i all v' rest := by
  rw [Verifier.shareFlush, h.wires] at hrun
  rw [Sym.shareFlush]
  split at hrun
  · next hwires =>
    rw [if_pos hwires]
    exact h.shareBatch hrun
  · next hwires =>
    rw [if_neg hwires]
    cases hrun
    exact h

/-- **One gate.** -/
theorem Tracks.step (h : s.Tracks C i all v queue) {g : Gate F}
    (hrun : Verifier.step C i g v queue = some (v', rest)) :
    (s.step C g).Tracks C i all v' rest := by
  cases g with
  | input out val => exact h.share _ hrun
  | add res lhs rhs =>
    cases hrun
    refine ⟨h.pre, h.wires, h.gates, ?_, h.queue⟩
    funext c
    simp only [Sym.step, h.mem]
    by_cases hc : c = res
    · subst hc
      simp only [Function.update_self, WireExpr.eval]
    · simp only [Function.update_of_ne hc]
  | mult res lhs rhs => exact h.share _ hrun
  | flush => exact h.shareFlush hrun
  | finalize =>
    obtain ⟨⟨v₁, queue₁⟩, hflush, hrun⟩ := Option.bind_eq_some_iff.mp hrun
    have h₁ := h.shareFlush hflush
    rw [h₁.gates] at hrun
    show (s.multFlush C).Tracks C i all v' rest
    rw [Sym.multFlush]
    split at hrun
    · next hgates =>
      rw [if_pos hgates]
      exact h₁.verifyAuthTriple hrun
    · next hgates =>
      rw [if_neg hgates]
      cases hrun
      exact h₁

/-- **A circuit**, whatever the messages are. -/
theorem tracks_run {gates : List (Gate F)}
    (hrun : Lockstep.recvRun (Verifier.step C i) gates (Verifier.start C (fun _ _ => 0) i) all
      = some (v, rest)) : (gates.foldl (Sym.step C) (Sym.init C.usable)).Tracks C i all v rest := by
  have hstep : ∀ (gates : List (Gate F)) {s : Sym C.usable}
      {v₀ : VerifierState F PendingWire (ℕ → AuthShare F) C.usable} {queue : List (Msg F)},
      s.Tracks C i all v₀ queue →
      Lockstep.recvRun (Verifier.step C i) gates v₀ queue = some (v, rest) →
      (gates.foldl (Sym.step C) s).Tracks C i all v rest := by
    intro gates
    induction gates with
    | nil =>
      intro s v₀ queue h hrun
      cases hrun
      exact h
    | cons g gates ih =>
      intro s v₀ queue h hrun
      obtain ⟨⟨v₁, queue₁⟩, hone, hrun⟩ := Option.bind_eq_some_iff.mp hrun
      exact ih (h.step hone) hrun
  exact hstep gates ⟨rfl, rfl, rfl, rfl, rfl⟩ hrun

/-! ### The slots of a circuit -/

omit [Field F] in
/-- Fewer wires than a batch has are pending, and the cells are made of slots that exist. -/
structure Ok (s : Sym C.usable) : Prop where
  /-- The pending wires. -/
  wires_lt : s.wires.length < C.poly.k
  /-- The cells. -/
  mem : ∀ c, (s.mem c).Within C.poly.k

omit [Field F] in
theorem Ok.checkIfFull (h : s.Ok) : (s.checkIfFull C).Ok := by
  rw [Sym.checkIfFull]
  split
  · exact ⟨h.wires_lt, h.mem⟩
  · exact h

omit [Field F] in
theorem Ok.shareBatch (hwires : s.wires.length ≤ C.poly.k)
    (hmem : ∀ c, (s.mem c).Within C.poly.k) : (s.shareBatch C).Ok := by
  refine Ok.checkIfFull ⟨Poly.k_pos _, fun c => ?_⟩
  show (writeAll _ s.wires 0 s.mem c).Within _
  rw [writeAll_apply]
  cases hlast : lastSlot c s.wires 0 with
  | none => exact hmem c
  | some slot =>
    have hlt := lastSlot_lt hlast
    rw [Nat.zero_add] at hlt
    exact hlt.trans_le hwires

omit [Field F] in
theorem Ok.share (h : s.Ok) (w : PendingWire) : (s.share C w).Ok := by
  have hlen : (s.wires ++ [w]).length ≤ C.poly.k := by
    rw [List.length_append, List.length_singleton]
    exact h.wires_lt
  rw [Sym.share]
  dsimp only
  split
  · exact Ok.shareBatch hlen h.mem
  · next hne => exact ⟨lt_of_le_of_ne hlen hne, h.mem⟩

omit [Field F] in
theorem Ok.shareFlush (h : s.Ok) : (s.shareFlush C).Ok := by
  rw [Sym.shareFlush]
  split
  · exact Ok.shareBatch h.wires_lt.le h.mem
  · exact h

omit [Field F] in
theorem Ok.step (h : s.Ok) (g : Gate F) : (s.step C g).Ok := by
  cases g with
  | input out val => exact h.share _
  | add res lhs rhs =>
    refine ⟨h.wires_lt, fun c => ?_⟩
    show (Function.update s.mem res _ c).Within _
    by_cases hc : c = res
    · subst hc
      rw [Function.update_self]
      exact ⟨h.mem lhs, h.mem rhs⟩
    · rw [Function.update_of_ne hc]
      exact h.mem c
  | mult res lhs rhs => exact h.share _
  | flush => exact h.shareFlush
  | finalize =>
    rw [Sym.step, Sym.multFlush]
    split
    · exact ⟨h.shareFlush.wires_lt, h.shareFlush.mem⟩
    · exact h.shareFlush

omit [Field F] in
/-- **Every circuit.** -/
theorem ok_foldl (gates : List (Gate F)) (h : s.Ok) : (gates.foldl (Sym.step C) s).Ok := by
  induction gates generalizing s with
  | nil => exact h
  | cons g gates ih => exact ih (h.step g)

omit [Field F] in
theorem ok_init : (Sym.init C.usable).Ok := ⟨Poly.k_pos _, fun _ => trivial⟩

end Sym

end Tracks

/-! ## Outputs -/

section Outputs

/-- A share, in words. -/
def AuthShare.words (s : AuthShare (ZMod P59)) : AuthShare ℕ where
  mac := s.mac.val
  key := s.key.val
  share := s.share.val

/-- `revealCheck` at verifier `id`, of the cells `out` against the words `expected`. -/
def Verifier.revealCheck {Com Dig Salt : Type} [DecidableEq Com] [DecidableEq Dig]
    (C : BackendConfig (ZMod P59)) (digest : List ℕ → Dig) (hash : List ℕ × Salt → Com)
    (salt : ℕ → Salt) (deal : ℕ → ℕ → ℕ → ℕ) (cnt : ℕ) (out expected : ℕ → ℕ)
    (chi : ℕ → ZMod P59) (mem : ℕ → ℕ → AuthShare (ZMod P59)) (id : ℕ) : Bool :=
  checkPublic C.poly.n digest hash salt deal (fun i => vec cnt fun j => (mem i (out j)).words)
    (fun _ => vec cnt fun j => FP59.mod (expected j)) (vec cnt fun j => (chi j).val)
    (fun i => (C.delta i).val) id

section Accept

variable {Com Dig Salt : Type} [DecidableEq Com] [DecidableEq Dig] {C : BackendConfig (ZMod P59)}
  (digest : List ℕ → Dig) (hash : List ℕ × Salt → Com) (salt : ℕ → Salt)
  {deal : ℕ → ℕ → ℕ → ℕ} {out expected : ℕ → ℕ}

/-- **What the verifiers accept**, whatever their shares are. -/
theorem Verifier.revealCheck_iff (hdeal : ∀ c i j, deal c i j < P59)
    (hexp : ∀ j, expected j < 2 ^ 64) {id : ℕ} (hid : id < C.poly.n) (cnt : ℕ)
    (chi : ℕ → ZMod P59) (mem : ℕ → ℕ → AuthShare (ZMod P59)) :
    revealCheck C digest hash salt deal cnt out expected chi mem id = true
      ↔ ∑ j ∈ range cnt, chi j * (∑ i ∈ range C.poly.n, ((mem i (out j)).mac - (mem i (out j)).key)
          - expected j * ∑ i ∈ range C.poly.n, C.delta i) = 0 := by
  have hlt : ∀ a : ZMod P59, a.val < P59 := fun a => a.val_lt
  have hclaimed : ∀ j, FP59.mod (expected j) < P59 := fun j => FP59.mod_lt (hexp j)
  have hmac : ∀ i j, (mem i (out j)).words.mac < P59 := fun i j => hlt _
  have hkey : ∀ i j, (mem i (out j)).words.key < P59 := fun i j => hlt _
  have hprod : ∀ j < cnt, FP59.Residue (FP59.multMod (FP59.mod (expected j)) (chi j).val)
      ((FP59.mod (expected j) : ℕ) * ((chi j).val : ℕ)) := fun j _ =>
    ⟨FP59.multMod_lt (hclaimed j) (hlt _), FP59.multMod_cast (hclaimed j) (hlt _)⟩
  have hword := fun i => checkPublicShare_spec (hmac i) (hkey i) (fun j => hlt (chi j))
    (residue_value hprod (hlt (C.delta i)))
  have hmask := macCheckZero_iff hash salt 1 (o := fun i _ => checkPublicShare
      (vec cnt fun j => (mem i (out j)).words) (vec cnt fun j => FP59.mod (expected j))
      (vec cnt fun j => (chi j).val) (C.delta i).val) hdeal (fun i _ => (hword i).1) hid
  have hsum : ∑ i ∈ range C.poly.n, (checkPublicShare (vec cnt fun j => (mem i (out j)).words)
        (vec cnt fun j => FP59.mod (expected j)) (vec cnt fun j => (chi j).val) (C.delta i).val :
          ZMod P59)
      = ∑ j ∈ range cnt, chi j * (∑ i ∈ range C.poly.n,
          ((mem i (out j)).mac - (mem i (out j)).key)
            - expected j * ∑ i ∈ range C.poly.n, C.delta i) := by
    rw [sum_congr rfl fun i _ => (hword i).2, sum_sub_distrib, sum_comm, ← mul_sum, sum_mul,
      ← sum_sub_distrib]
    refine sum_congr rfl fun j _ => ?_
    rw [← mul_sum, mul_sub]
    simp only [AuthShare.words, ZMod.natCast_zmod_val, FP59.mod_eq (hexp j), ZMod.natCast_mod]
    ring
  rw [← hsum]
  simp only [revealCheck, checkPublic, vec, List.length_map, BEq.rfl, List.all_eq_true,
    implies_true, Bool.and_eq_true, true_and]
  exact hmask.trans ⟨fun hall => hall 0 Nat.one_pos, fun h _ _ => h⟩

end Accept

section Runs

variable {F : Type*} [Field F]

/-- All verifiers run the circuit, each on its own messages, and hold the cells `mem` then. -/
def Verifier.Ran (C : BackendConfig F) (gates : List (Gate F)) (msgs : ℕ → List (Msg F))
    (mem : ℕ → ℕ → AuthShare F) : Prop :=
  ∀ i < C.poly.n, ∃ v rest, Lockstep.recvRun (step C i) gates (start C (fun _ _ => 0) i) (msgs i)
    = some (v, rest) ∧ v.mem = mem i

/-- The packed shares that the verifiers receive. -/
def packedShares (msgs : ℕ → List (Msg F)) (i batch : ℕ) : F := (sharesOf (msgs i)).getD batch 0

/-- What a cell is made of after a circuit. -/
def madeOf (C : BackendConfig F) (gates : List (Gate F)) (c : ℕ) : WireExpr :=
  (gates.foldl (Sym.step C) (Sym.init C.usable)).mem c

/-- What the packed shares commit the prover to: the value of a cell. -/
def committed (C : BackendConfig F) (gates : List (Gate F)) (msgs : ℕ → List (Msg F)) (c : ℕ) : F :=
  (madeOf C gates c).value C (packedShares msgs)

variable {C : BackendConfig F} {gates : List (Gate F)} {msgs : ℕ → List (Msg F)}
  {mem : ℕ → ℕ → AuthShare F} {n k t : ℕ}

theorem Verifier.Ran.mem_eq (h : Ran C gates msgs mem) {i : ℕ} (hi : i < C.poly.n) (c : ℕ) :
    mem i c = (madeOf C gates c).eval C i (packedShares msgs i) := by
  obtain ⟨v, rest, hrun, hmem⟩ := h i hi
  rw [← hmem, (Sym.tracks_run hrun).mem]
  rfl

omit [Field F] in
theorem madeOf_within (c : ℕ) : (madeOf C gates c).Within C.poly.k :=
  (Sym.ok_foldl gates Sym.ok_init).mem c

theorem committed_withKeys (x : MacKeys F n k t) (c : ℕ) :
    committed (C.withKeys x) gates msgs c = committed C gates msgs c := by
  rw [committed, committed, WireExpr.value, WireExpr.value]
  exact sum_congr rfl fun i _ => WireExpr.share_eval_withKeys x i _ _

/-- **The shares of a cell** add up to what the prover is committed to. -/
theorem Verifier.Ran.sum_share (h : Ran C gates msgs mem) (c : ℕ) :
    ∑ i ∈ range C.poly.n, (mem i c).share = committed C gates msgs c :=
  sum_congr rfl fun i hi => by rw [h.mem_eq (mem_range.mp hi)]

theorem Verifier.Ran.sum_excess (h : Ran C gates msgs mem) (c : ℕ) :
    ∑ i ∈ range C.poly.n, ((mem i c).mac - (mem i c).key)
      = (madeOf C gates c).excess C (packedShares msgs) :=
  sum_congr rfl fun i hi => by rw [h.mem_eq (mem_range.mp hi)]

end Runs

section Sound

variable {C : BackendConfig (ZMod P59)}

/-- The error that `revealCheck` compares with 0. -/
def revealError (C : BackendConfig (ZMod P59)) (gates : List (Gate (ZMod P59)))
    (msgs : ℕ → List (Msg (ZMod P59))) (cnt : ℕ) (out expected : ℕ → ℕ) (chi : ℕ → ZMod P59) :
    ZMod P59 :=
  ∑ j ∈ range cnt, chi j * ((madeOf C gates (out j)).excess C (packedShares msgs)
    - expected j * ∑ i ∈ range C.poly.n, C.delta i)

/-- **What the verifiers accept** after a circuit. -/
theorem Verifier.Ran.revealCheck_iff {gates : List (Gate (ZMod P59))}
    {msgs : ℕ → List (Msg (ZMod P59))} {mem : ℕ → ℕ → AuthShare (ZMod P59)}
    (h : Ran C gates msgs mem) {Com Dig Salt : Type} [DecidableEq Com] [DecidableEq Dig]
    (digest : List ℕ → Dig) (hash : List ℕ × Salt → Com) (salt : ℕ → Salt) {deal : ℕ → ℕ → ℕ → ℕ}
    {out expected : ℕ → ℕ} (hdeal : ∀ c i j, deal c i j < P59) (hexp : ∀ j, expected j < 2 ^ 64)
    {id : ℕ} (hid : id < C.poly.n) (cnt : ℕ) (chi : ℕ → ZMod P59) :
    revealCheck C digest hash salt deal cnt out expected chi mem id = true
      ↔ revealError C gates msgs cnt out expected chi = 0 := by
  rw [Verifier.revealCheck_iff digest hash salt hdeal hexp hid, revealError]
  simp only [h.sum_excess]

/-- **Under other keys** the error changes by the combination of the differences. -/
theorem revealError_shift
    (h : ∀ x : MacKeys (ZMod P59) C.poly.n C.poly.k C.poly.t, (C.withKeys x).Right)
    (gates : List (Gate (ZMod P59)))
    (msgs : ℕ → List (Msg (ZMod P59))) (cnt : ℕ) (out expected : ℕ → ℕ) (chi : ℕ → ZMod P59)
    (x : MacKeys (ZMod P59) C.poly.n C.poly.k C.poly.t) (c : ZMod P59) :
    revealError (C.withKeys (x + MacKeys.shift _ _ _ c)) gates msgs cnt out expected chi
      = revealError (C.withKeys x) gates msgs cnt out expected chi
        + c * ∑ j ∈ range cnt, chi j * (committed C gates msgs (out j) - expected j) := by
  rw [revealError, revealError, mul_sum, ← sum_add_distrib]
  refine sum_congr rfl fun j _ => ?_
  have hexcess : (madeOf C gates (out j)).excess (C.withKeys (x + MacKeys.shift _ _ _ c))
        (packedShares msgs)
      = (madeOf C gates (out j)).excess (C.withKeys x) (packedShares msgs)
        + c * committed C gates msgs (out j) :=
    WireExpr.excess_shift h _ x c _ (madeOf_within _)
  have hdelta : ∑ i ∈ range C.poly.n, (C.withKeys (x + MacKeys.shift _ _ _ c)).delta i
      = ∑ i ∈ range C.poly.n, (C.withKeys x).delta i + c :=
    x.sum_delta_shift c (Poly.n_pos _)
  show chi j * ((madeOf C gates (out j)).excess (C.withKeys (x + MacKeys.shift _ _ _ c))
        (packedShares msgs) - expected j
          * ∑ i ∈ range C.poly.n, (C.withKeys (x + MacKeys.shift _ _ _ c)).delta i)
    = chi j * ((madeOf C gates (out j)).excess (C.withKeys x) (packedShares msgs) - expected j
          * ∑ i ∈ range C.poly.n, (C.withKeys x).delta i)
      + c * (chi j * (committed C gates msgs (out j) - expected j))
  rw [hexcess, hdelta]
  ring

/-- Some verifier accepts the words `expected` for the cells `out`, after a circuit. -/
def Verifier.AcceptsOutputs {Com Dig Salt : Type} [DecidableEq Com] [DecidableEq Dig]
    (C : BackendConfig (ZMod P59)) (gates : List (Gate (ZMod P59)))
    (msgs : ℕ → List (Msg (ZMod P59))) (digest : List ℕ → Dig) (hash : List ℕ × Salt → Com)
    (salt : ℕ → Salt) (deal : ℕ → ℕ → ℕ → ℕ) (cnt : ℕ) (out expected : ℕ → ℕ)
    (chi : ℕ → ZMod P59) : Prop :=
  ∃ mem, Ran C gates msgs mem ∧
    ∃ id < C.poly.n, revealCheck C digest hash salt deal cnt out expected chi mem id = true

open Classical in
/-- **A wrong output is not accepted.**  Whatever a prover sends, its packed shares commit it to a
value for every cell, whatever the verifiers' keys are; and if the public values that the verifiers
compare cells with are others, then for at most 2 in `p` of the keys, the coins they are dealt with
and the coefficients of the comparison some verifier accepts. -/
theorem outputs_sound {logK logN : ℕ} (hlt : logK < logN) (hle : logN ≤ 26)
    (hpoly : Poly.init logK logN = some C.poly) (htab : C.poly.initLagrangeTable = some C.tab)
    (gates : List (Gate (ZMod P59))) (msgs : ℕ → List (Msg (ZMod P59)))
    {Com Dig Salt : Type} [DecidableEq Com] [DecidableEq Dig] (digest : List ℕ → Dig)
    (hash : List ℕ × Salt → Com) (salt : ℕ → Salt) {deal : ℕ → ℕ → ℕ → ℕ}
    (hdeal : ∀ c i j, deal c i j < P59) (cnt : ℕ) (out : ℕ → ℕ) {expected : ℕ → ℕ}
    (hexp : ∀ j, expected j < 2 ^ 64) :
    (∀ (x : MacKeys (ZMod P59) C.poly.n C.poly.k C.poly.t) (mem : ℕ → ℕ → AuthShare (ZMod P59)),
      Verifier.Ran (C.withKeys x) gates msgs mem →
        ∀ c, ∑ i ∈ range C.poly.n, (mem i c).share = committed C gates msgs c) ∧
    ((∃ j < cnt, (expected j : ZMod P59) ≠ committed C gates msgs (out j)) →
      P59 * #{p : (Fin cnt → ZMod P59) × MacKeys (ZMod P59) C.poly.n C.poly.k C.poly.t |
          Verifier.AcceptsOutputs (C.withKeys p.2) gates msgs digest hash salt deal cnt out expected
            (streamOf p.1)}
        ≤ 2 * Fintype.card
          ((Fin cnt → ZMod P59) × MacKeys (ZMod P59) C.poly.n C.poly.k C.poly.t)) := by
  refine ⟨fun x mem hran c => (hran.sum_share c).trans (committed_withKeys x c),
    fun ⟨j, hj, hwrong⟩ => ?_⟩
  have hR : ∀ x : MacKeys (ZMod P59) C.poly.n C.poly.k C.poly.t, (C.withKeys x).Right := fun x =>
    BackendConfig.right_of_init hlt hle hpoly htab fun _ _ _ _ _ _ _ => rfl
  obtain ⟨diff, hdiff⟩ : ∃ diff : ℕ → ZMod P59,
      diff = fun j => committed C gates msgs (out j) - expected j := ⟨_, rfl⟩
  have hne : diff j ≠ 0 := by
    rw [hdiff]
    exact sub_ne_zero.mpr hwrong.symm
  have hcard := ZMod.card P59
  -- coefficients that do not hide the difference leave one key of each line
  have hkeys : ∀ chi : Fin cnt → ZMod P59, ¬∑ i, chi i * diff i = 0 →
      #{x : MacKeys (ZMod P59) C.poly.n C.poly.k C.poly.t |
        Verifier.AcceptsOutputs (C.withKeys x) gates msgs digest hash salt deal cnt out expected
          (streamOf chi)}
        ≤ Fintype.card (MacKeys (ZMod P59) C.poly.n C.poly.k C.poly.t) / P59 := by
    intro chi hchi
    have hzero : ∀ x : MacKeys (ZMod P59) C.poly.n C.poly.k C.poly.t,
        Verifier.AcceptsOutputs (C.withKeys x) gates msgs digest hash salt deal cnt out expected
          (streamOf chi) →
        revealError (C.withKeys x) gates msgs cnt out expected (streamOf chi) = 0 :=
      fun x ⟨_, hran, _, hid, haccept⟩ =>
        (hran.revealCheck_iff digest hash salt hdeal hexp hid cnt _).mp haccept
    have hline := PublicCoin.card_mul_le_of_shift
      (MacKeys.shift (F := ZMod P59) C.poly.n C.poly.k C.poly.t)
      (A := {x | Verifier.AcceptsOutputs (C.withKeys x) gates msgs digest hash salt deal cnt out
        expected (streamOf chi)}) fun x hx c hxc => by
      have hshift := revealError_shift hR gates msgs cnt out expected (streamOf chi) x c
      rw [hzero x (mem_filter.mp hx).2, hzero _ (mem_filter.mp hxc).2, zero_add] at hshift
      refine (mul_eq_zero.mp hshift.symm).resolve_right fun hsum => hchi ?_
      rw [← hsum, hdiff, ← Fin.sum_univ_eq_sum_range fun j => streamOf chi j * _]
      refine sum_congr rfl fun i _ => ?_
      simp only [streamOf, dif_pos i.isLt]
    rw [hcard] at hline
    exact (Nat.le_div_iff_mul_le P59_pos).mpr hline
  have hbad : P59 * #{chi : Fin cnt → ZMod P59 | ∑ i, chi i * diff i = 0} ≤ P59 ^ cnt := by
    have hle := PublicCoin.card_combinations_le Function.injective_id hj hne
    simp only [hcard, id] at hle
    calc P59 * #{chi : Fin cnt → ZMod P59 | ∑ i, chi i * diff i = 0}
        ≤ P59 * P59 ^ (cnt - 1) := Nat.mul_le_mul_left _ hle
      _ = P59 ^ cnt := by rw [← pow_succ', Nat.sub_add_cancel (Nat.one_le_of_lt hj)]
  have hcoeffs : Fintype.card (Fin cnt → ZMod P59) = P59 ^ cnt := by
    rw [Fintype.card_fun, hcard, Fintype.card_fin]
  calc _ ≤ P59 * (#{chi : Fin cnt → ZMod P59 | ∑ i, chi i * diff i = 0}
            * Fintype.card (MacKeys (ZMod P59) C.poly.n C.poly.k C.poly.t)
          + Fintype.card (Fin cnt → ZMod P59)
            * (Fintype.card (MacKeys (ZMod P59) C.poly.n C.poly.k C.poly.t) / P59)) :=
        Nat.mul_le_mul_left _ (PublicCoin.card_pairs_le _ hkeys)
    _ = P59 * #{chi : Fin cnt → ZMod P59 | ∑ i, chi i * diff i = 0}
            * Fintype.card (MacKeys (ZMod P59) C.poly.n C.poly.k C.poly.t)
          + P59 ^ cnt
            * (P59 * (Fintype.card (MacKeys (ZMod P59) C.poly.n C.poly.k C.poly.t) / P59)) := by
        rw [hcoeffs]
        ring
    _ ≤ P59 ^ cnt * Fintype.card (MacKeys (ZMod P59) C.poly.n C.poly.k C.poly.t)
          + P59 ^ cnt * Fintype.card (MacKeys (ZMod P59) C.poly.n C.poly.k C.poly.t) :=
        Nat.add_le_add (Nat.mul_le_mul_right _ hbad)
          (Nat.mul_le_mul_left _ (Nat.mul_div_le _ _))
    _ = 2 * Fintype.card
          ((Fin cnt → ZMod P59) × MacKeys (ZMod P59) C.poly.n C.poly.k C.poly.t) := by
        rw [Fintype.card_prod (Fin cnt → ZMod P59), hcoeffs]
        ring

open Classical in
/-- Two verifiers to whom the prover shares 5, and who expect 6. -/
theorem outputs_sound_two : ∃ C : BackendConfig (ZMod P59), Poly.init 0 1 = some C.poly ∧
    ∃ msgs, committed C [.input 0 5] msgs 0 = 5 ∧
      P59 * #{p : (Fin 1 → ZMod P59) × MacKeys (ZMod P59) C.poly.n C.poly.k C.poly.t |
          Verifier.AcceptsOutputs (C.withKeys p.2) [.input 0 5] msgs (fun l => l) (fun m => m)
            (fun _ => ()) (fun _ _ _ => 0) 1 (fun _ => 0) (fun _ => 6) (streamOf p.1)}
        ≤ 2 * Fintype.card
          ((Fin 1 → ZMod P59) × MacKeys (ZMod P59) C.poly.n C.poly.k C.poly.t) := by
  obtain ⟨poly, tab, hpoly, htab⟩ := Poly.init_tables_ok (show 0 < 1 by decide) (by decide)
  obtain ⟨-, hlogK, -⟩ := Poly.init_eq_some hpoly
  let C := constBackend poly tab
  have hk : (constBackend poly tab).poly.k = 1 := by
    show poly.k = 1
    rw [Poly.k, hlogK, pow_zero]
  have hR := BackendConfig.right_of_init (by decide : 0 < 1) (by decide) hpoly htab
    (constBackend_vole poly tab)
  -- what an honest prover sends
  obtain ⟨p, msgs, v, hsend, hrecv, -, hshared⟩ := run_shared hR [.input 0 5] (fun _ => 0)
    (fun _ _ => 0) (by simp [Gate.Legal, Gate.Ok])
  have hran : Verifier.Ran C [.input 0 5] (fun i => msgs.map (· i)) fun i => (v i).mem :=
    fun i _ => ⟨v i, [], by simpa using hrecv i [], rfl⟩
  have hval : p.2 0 = 5 := by
    cases hsend
    rfl
  have hfive : committed C [.input 0 5] (fun i => msgs.map (· i)) 0 = 5 := by
    rw [← hran.sum_share, (hshared 0 (by decide) (by simp [Gate.pending, hk])).share_sum, hval]
  have hwrong : ((6 : ℕ) : ZMod P59) ≠ committed C [.input 0 5] (fun i => msgs.map (· i)) 0 := by
    rw [hfive]
    decide +kernel
  exact ⟨C, hpoly, _, hfive, (outputs_sound (by decide) (by decide) hpoly htab [.input 0 5] _
    (fun l => l) (fun m => m) (fun _ => ()) (fun _ _ _ => P59_pos) 1 (fun _ => 0)
    fun _ => (by norm_num : 6 < 2 ^ 64)).2 ⟨0, Nat.one_pos, hwrong⟩⟩

end Sound

end Outputs

end VoleZk.Mvzk
