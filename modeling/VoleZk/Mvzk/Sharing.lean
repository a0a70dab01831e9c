import VoleZk.Mvzk.CheckAgree
import VoleZk.Mvzk.Circuit

/-!
# Every wire is shared

The VOLE correlations give the verifiers shares of the secrets that the prover computes from them.
A packed share of differences to such secrets makes them shares of the wires: its product with the
degree-`t` sharing of the global key is still determined by the shares of all `n` parties.

## What is here

* `BackendConfig.Right`, what the correlations and the conversions promise;
* `Verifier.randAuthVal_shared`, `Verifier.shareDelta_eq_eval`, `batchShares_shared`,
  `genAddSharesFromDiff_shared` — **the sharings**;
* `WiresShared`, the invariant, and `circuit_shared` — **the wires of every circuit**, up to
  `2 ^ 26` parties;
* `circuit_not_shared` — `2 ^ 30` parties and four secrets.
-/

set_option autoImplicit false

open Finset Polynomial Interpolation

namespace VoleZk.Mvzk

section Sharings

variable {F : Type*} [Field F] {C : BackendConfig F}

/-- `M^i_j = K^j_i + u^i * Delta_j`. -/
def BackendConfig.Vole (C : BackendConfig F) : Prop :=
  ∀ e l, ∀ i < C.poly.n, ∀ j < C.poly.n, i ≠ j →
    C.macs e i j l = C.keys e j i l + C.secrets e i l * C.delta j

/-- What the correlations and the conversions promise. -/
structure BackendConfig.Right (C : BackendConfig F) : Prop where
  /-- The correlations. -/
  vole : C.Vole
  /-- There are fewer secrets than parties. -/
  k_lt : C.poly.k < C.poly.n
  /-- The tables. -/
  tab : C.tab.Ok C.poly
  /-- The transform to the secrets. -/
  n2k : ∀ input, ∀ m < C.poly.k, C.poly.nttEvalN2K input m = C.poly.lagrangeEvalN2K C.tab input m
  /-- The transform to the shares. -/
  k2n : ∀ f : F[X], f.degree < C.poly.k → ∀ input,
    (∀ i < C.poly.k, input i = f.eval (C.poly.evalPointsK i)) →
      ∀ y < C.poly.n, C.poly.nttEvalK2N input y = f.eval (C.poly.evalPointsN y)

/-! ## Preprocessed sharings -/

namespace Verifier

/-- The MAC of a packed share: what belongs to the global key, and the keys of the others. -/
theorem mac_eq (hvole : C.Vole) (e l : ℕ) {i : ℕ} (hi : i < C.poly.n) :
    C.secrets e i l * C.delta i + ∑ j ∈ (range C.poly.n).erase i, C.macs e i j l
      = C.secrets e i l * ∑ j ∈ range C.poly.n, C.delta j
        + ∑ j ∈ range C.poly.n, if i = j then 0 else C.keys e j i l := by
  have hmem := mem_range.mpr hi
  have hmacs : ∑ j ∈ (range C.poly.n).erase i, C.macs e i j l
      = ∑ j ∈ (range C.poly.n).erase i,
        ((if i = j then 0 else C.keys e j i l) + C.secrets e i l * C.delta j) := by
    refine sum_congr rfl fun j hj => ?_
    obtain ⟨hne, hj⟩ := mem_erase.mp hj
    rw [if_neg hne.symm, hvole e l i hi j (mem_range.mp hj) hne.symm]
  rw [hmacs, sum_add_distrib, ← mul_sum, ← add_sum_erase _ _ hmem, ← add_sum_erase _ _ hmem,
    if_pos rfl, zero_add, mul_add]
  ring

/-- **The shares of a preprocessed sharing.** -/
theorem randAuthVal_shared (h : C.Right) (source : ℕ × ℕ) {m : ℕ} (hm : m < C.poly.k) :
    Shared C.poly.n C.delta (fun i => randAuthVal C i source m)
      (Prover.randAuthVal C source m) where
  share_sum := (h.n2k _ m hm).symm
  mac_sum := by
    obtain ⟨e, l⟩ := source
    have hkeys : ∑ i ∈ range C.poly.n, (randAuthVal C i (e, l) m).key
        = ∑ i ∈ range C.poly.n, C.tab.lagrangeTableKByN m i
          * ∑ j ∈ range C.poly.n, if i = j then 0 else C.keys e j i l := by
      simp only [randAuthVal, h.n2k _ m hm, Poly.lagrangeEvalN2K, mul_sum]
      exact sum_comm
    rw [hkeys, Prover.randAuthVal, h.n2k _ m hm, Poly.lagrangeEvalN2K, mul_sum, ← sum_add_distrib]
    refine sum_congr rfl fun i hi => ?_
    rw [randAuthVal, Poly.lagrangeEvalOne2K, mac_eq h.vole e l (mem_range.mp hi)]
    ring

/-! ## The key -/

end Verifier

/-- The polynomial that hides the global key at a slot. -/
noncomputable def deltaPoly (C : BackendConfig F) (m : ℕ) : F[X] :=
  ∑ d ∈ range C.poly.n, keyPoly C.poly (C.delta d) (C.rand d) m

theorem degree_deltaPoly_lt (h : C.Right) {m : ℕ} (hm : m < C.poly.k) :
    (deltaPoly C m).degree < (C.poly.t + 1 : ℕ) := by
  refine (degree_sum_le _ _).trans_lt ((Finset.sup_lt_iff (WithBot.bot_lt_coe _)).mpr fun d _ => ?_)
  exact degree_keyPoly_lt h.tab hm _ _

theorem eval_deltaPoly (h : C.Right) {m : ℕ} (hm : m < C.poly.k) :
    (deltaPoly C m).eval (C.poly.evalPointsK m) = ∑ d ∈ range C.poly.n, C.delta d := by
  rw [deltaPoly, eval_finsetSum]
  exact sum_congr rfl fun d _ => eval_keyPoly h.tab hm _ _

/-- **The shares of the global key.** -/
theorem Verifier.shareDelta_eq_eval (h : C.Right) {m i : ℕ} (hm : m < C.poly.k)
    (hi : i < C.poly.n) :
    shareDelta C i m = (deltaPoly C m).eval (C.poly.evalPointsN i) := by
  rw [deltaPoly, eval_finsetSum]
  exact sum_congr rfl fun d _ => dealMacKey_eq_eval h.tab hm _ _ hi

/-! ## Packed shares -/

/-- The additive shares of the values of a polynomial. -/
theorem sum_lagrangeEvalOne2K_eval (h : C.Right) {f : F[X]} (hdeg : f.degree < C.poly.n) {m : ℕ}
    (hm : m < C.poly.k) :
    ∑ i ∈ range C.poly.n, Poly.lagrangeEvalOne2K C.tab (f.eval (C.poly.evalPointsN i)) i m
      = f.eval (C.poly.evalPointsK m) :=
  Poly.lagrangeEvalN2K_eval h.tab hdeg hm

/-- **The shares of the wires of a batch.** -/
theorem batchShares_shared {W : Type*} (h : C.Right) (p : ProverState F W C.usable) {m : ℕ}
    (hm : m < C.poly.k) :
    Shared C.poly.n C.delta (fun i => batchShares C p i m) (p.wiresVal.getD m 0) := by
  let pre := p.pre.ensure C.usable_pos 1
  let source := pre.source pre.ptr
  let diff (i : ℕ) : F := p.wiresVal.getD i 0 - Prover.randAuthVal C source i
  let f : F[X] := interp C.poly.evalPointsK C.poly.k diff
  have hdeg : f.degree < C.poly.k := degree_interp_lt h.tab.injOnK diff
  have hdiff : ∀ i < C.poly.k, diff i = f.eval (C.poly.evalPointsK i) := fun i hi =>
    (eval_interp_node h.tab.injOnK diff hi).symm
  have hpacked : ∀ i < C.poly.n, Prover.packedShares C p i = f.eval (C.poly.evalPointsN i) :=
    fun i hi => h.k2n f hdeg diff hdiff i hi
  have hpre := Verifier.randAuthVal_shared h source hm
  have hval : f.eval (C.poly.evalPointsK m) + Prover.randAuthVal C source m
      = p.wiresVal.getD m 0 := by
    rw [← hdiff m hm]
    exact sub_add_cancel _ _
  have hlt : f.degree < C.poly.n := hdeg.trans (Nat.cast_lt.mpr h.k_lt)
  have hprod : (f * deltaPoly C m).degree < C.poly.n := by
    have hmul := degree_mul_lt (Poly.k_pos C.poly) (Nat.succ_pos C.poly.t) hdeg
      (degree_deltaPoly_lt h hm)
    have hsize : C.poly.k + (C.poly.t + 1) - 1 = C.poly.n := by
      have := h.k_lt
      rw [Poly.t]
      omega
    rwa [hsize] at hmul
  constructor
  · rw [← hval, ← hpre.share_sum, ← sum_lagrangeEvalOne2K_eval h hlt hm, add_comm,
      ← sum_add_distrib]
    exact sum_congr rfl fun i hi => by
      rw [← hpacked i (mem_range.mp hi)]
      rfl
  · have hmac : ∑ i ∈ range C.poly.n, (batchShares C p i m).mac
        = ∑ i ∈ range C.poly.n, (Verifier.randAuthVal C i source m).mac
          + (f * deltaPoly C m).eval (C.poly.evalPointsK m) := by
      rw [← sum_lagrangeEvalOne2K_eval h hprod hm, ← sum_add_distrib]
      exact sum_congr rfl fun i hi => by
        rw [eval_mul, ← hpacked i (mem_range.mp hi),
          ← Verifier.shareDelta_eq_eval h hm (mem_range.mp hi)]
        rfl
    rw [hmac, hpre.mac_sum, eval_mul, eval_deltaPoly h hm, ← hval]
    have hkey : ∑ i ∈ range C.poly.n, (batchShares C p i m).key
        = ∑ i ∈ range C.poly.n, (Verifier.randAuthVal C i source m).key := rfl
    rw [hkey]
    ring

/-! ## Differences -/

/-- The secrets of the prover, by refill, from the correlations of each packed sharing. -/
def Prover.preAuthSharing (C : BackendConfig F) (source : ℕ → ℕ → ℕ × ℕ) (r i : ℕ) : F :=
  randAuthVal C (source r (i / C.poly.k)) (i % C.poly.k)

/-- The shares of verifier `idParty`. -/
def Verifier.preAuthSharing (C : BackendConfig F) (idParty : ℕ) (source : ℕ → ℕ → ℕ × ℕ)
    (r i : ℕ) : AuthShare F :=
  randAuthVal C idParty (source r (i / C.poly.k)) (i % C.poly.k)

/-- **The shares of values whose differences are broadcast.** -/
theorem genAddSharesFromDiff_shared (h : C.Right) (source : ℕ → ℕ → ℕ × ℕ) (vals : ℕ → F)
    (len : ℕ) (p : PreAuth) (i : ℕ) :
    Shared C.poly.n C.delta (fun idParty =>
      (Verifier.genAddSharesFromDiff C.poly.k idParty (C.delta idParty)
        (Verifier.preAuthSharing C idParty source)
        (Prover.genAddSharesDiff C.poly.k (Prover.preAuthSharing C source) vals len p).1
        len p).1 i) (vals i) :=
  shared_of_diff (Poly.n_pos C.poly)
    (Verifier.randAuthVal_shared h _ (Nat.mod_lt _ (Poly.k_pos C.poly))) (vals i)

end Sharings

/-! ## Pending wires -/

section Pending

variable {α : Type*}

/-- The slot of the last wire that is stored in cell `c`. -/
def lastSlot (c : ℕ) : List PendingWire → ℕ → Option ℕ
  | [], _ => none
  | w :: ws, slot => (lastSlot c ws (slot + 1)).or (if w.out = c then some slot else none)

theorem lastSlot_eq_none {c : ℕ} {ws : List PendingWire} {slot : ℕ} :
    lastSlot c ws slot = none ↔ c ∉ ws.map PendingWire.out := by
  induction ws generalizing slot with
  | nil => exact ⟨fun _ => List.not_mem_nil, fun _ => rfl⟩
  | cons w ws ih =>
    rw [lastSlot, Option.or_eq_none_iff, ih, List.map_cons, List.mem_cons, not_or, and_comm]
    refine and_congr_left fun _ => ?_
    by_cases hw : w.out = c
    · simp [hw]
    · simp [hw, Ne.symm hw]

theorem lastSlot_lt {c : ℕ} {ws : List PendingWire} {slot j : ℕ}
    (h : lastSlot c ws slot = some j) : j < slot + ws.length := by
  induction ws generalizing slot with
  | nil => cases h
  | cons w ws ih =>
    rw [lastSlot] at h
    rw [List.length_cons, ← Nat.add_assoc, Nat.add_right_comm]
    cases hlast : lastSlot c ws (slot + 1) with
    | some j' =>
      rw [hlast, Option.some_or, Option.some_inj] at h
      subst h
      exact ih hlast
    | none =>
      rw [hlast, Option.none_or] at h
      by_cases hw : w.out = c
      · rw [if_pos hw, Option.some_inj] at h
        omega
      · rw [if_neg hw] at h
        cases h

/-- A cell after a batch. -/
theorem writeAll_apply (vals : ℕ → α) (ws : List PendingWire) (slot : ℕ) (mem : ℕ → α) (c : ℕ) :
    writeAll vals ws slot mem c = ((lastSlot c ws slot).map vals).getD (mem c) := by
  induction ws generalizing slot mem with
  | nil => rfl
  | cons w ws ih =>
    rw [writeAll, ih, lastSlot]
    cases lastSlot c ws (slot + 1) with
    | some j => rfl
    | none =>
      by_cases hw : w.out = c
      · subst hw
        rw [if_pos rfl]
        exact Function.update_self _ _ _
      · rw [if_neg hw]
        exact Function.update_of_ne (Ne.symm hw) _ _

/-- One more wire. -/
theorem writeAll_concat (vals : ℕ → α) (ws : List PendingWire) (w : PendingWire) (slot : ℕ)
    (mem : ℕ → α) :
    writeAll vals (ws ++ [w]) slot mem
      = Function.update (writeAll vals ws slot mem) w.out (vals (slot + ws.length)) := by
  induction ws generalizing slot mem with
  | nil => rfl
  | cons w' ws ih =>
    rw [List.cons_append, writeAll, ih, writeAll, List.length_cons, Nat.add_right_comm,
      Nat.add_assoc]

theorem writeAll_congr {vals vals' : ℕ → α} {ws : List PendingWire} {slot : ℕ} (mem : ℕ → α)
    (h : ∀ j < slot + ws.length, vals j = vals' j) :
    writeAll vals ws slot mem = writeAll vals' ws slot mem := by
  funext c
  rw [writeAll_apply, writeAll_apply]
  cases hlast : lastSlot c ws slot with
  | none => rfl
  | some j => exact h j (lastSlot_lt hlast)

end Pending

/-! ## The invariant -/

/-- When a gate may be issued: an addition reads cells that are written and not pending, and does
not write a pending one. -/
def Gate.Ok {F : Type*} (cells : Finset ℕ) (ws : List PendingWire) : Gate F → Prop
  | .add res lhs rhs => (lhs ∈ cells ∧ rhs ∈ cells) ∧
    ∀ c ∈ [res, lhs, rhs], c ∉ ws.map PendingWire.out
  | _ => True

/-- A circuit whose gates may be issued. -/
def Gate.Legal {F : Type*} (k : ℕ) : List (Gate F) → Finset ℕ → List PendingWire → Prop
  | [], _, _ => True
  | g :: gates, cells, ws => g.Ok cells ws ∧ Legal k gates (g.known cells) (g.pending k ws)

variable {F : Type*} [Field F]

/-- **The written cells are shared**, but for the pending ones, which the prover has already. -/
structure WiresShared (C : BackendConfig F) (cells : Finset ℕ) (pm : ℕ → F)
    (ws : List PendingWire) (vals : List F) (vm : ℕ → ℕ → AuthShare F) : Prop where
  /-- The cells. -/
  shared : ∀ c ∈ cells, c ∉ ws.map PendingWire.out →
    Shared C.poly.n C.delta (fun i => vm i c) (pm c)
  /-- The pending wires. -/
  pendingVal : writeAll (fun slot => vals.getD slot 0) ws 0 pm = pm

variable {C : BackendConfig F}

theorem WiresShared.pendingVal_eq {cells : Finset ℕ} {pm : ℕ → F} {ws : List PendingWire}
    {vals : List F} {vm : ℕ → ℕ → AuthShare F} (h : WiresShared C cells pm ws vals vm) {c j : ℕ}
    (hlast : lastSlot c ws 0 = some j) : vals.getD j 0 = pm c := by
  have hval := congrFun h.pendingVal c
  rwa [writeAll_apply, hlast, Option.map_some, Option.getD_some] at hval

theorem wiresShared_invariant (h : C.Right) : CellInvariant C Gate.Ok (WiresShared C) where
  batch cells pm p ws vm hlen hle hdata := by
    refine ⟨fun c hc _ => ?_, rfl⟩
    simp only [writeAll_apply]
    cases hlast : lastSlot c ws 0 with
    | none => exact hdata.shared c hc (lastSlot_eq_none.mp hlast)
    | some j =>
      rw [← hdata.pendingVal_eq hlast]
      exact batchShares_shared h p (((lastSlot_lt hlast).trans_eq (Nat.zero_add _)).trans_le hle)
  push cells pm ws vals vm w val hlen hdata := by
    refine ⟨fun c hc hout => ?_, ?_⟩
    · rw [List.map_append, List.mem_append, not_or] at hout
      have hne : c ≠ w.out := fun heq => hout.2 (List.mem_singleton.mpr heq)
      rw [Function.update_of_ne hne]
      exact hdata.shared c (Finset.mem_of_mem_insert_of_ne hc hne) hout.1
    · have hold : writeAll (fun slot => (vals ++ [val]).getD slot 0) ws 0
          (Function.update pm w.out val)
          = writeAll (fun slot => vals.getD slot 0) ws 0 (Function.update pm w.out val) :=
        writeAll_congr _ fun j hj => by
          rw [Nat.zero_add, ← hlen] at hj
          exact List.getD_append _ _ _ _ hj
      rw [writeAll_concat, hold, Nat.zero_add, ← hlen, List.getD_append_right _ _ _ _ le_rfl,
        Nat.sub_self]
      funext c
      by_cases hc : c = w.out
      · subst hc
        rw [Function.update_self, Function.update_self]
        rfl
      · rw [Function.update_of_ne hc, writeAll_apply, Function.update_of_ne hc]
        cases hlast : lastSlot c ws 0 with
        | none => rfl
        | some j => exact hdata.pendingVal_eq hlast
  add cells pm ws vals vm res lhs rhs hok hdata := by
    obtain ⟨⟨hlhs, hrhs⟩, hout⟩ := hok
    have hres := hout res List.mem_cons_self
    refine ⟨fun c hc hnot => ?_, ?_⟩
    · by_cases heq : c = res
      · subst heq
        simp only [Function.update_self]
        exact (hdata.shared lhs hlhs (hout lhs (by simp))).add
          (hdata.shared rhs hrhs (hout rhs (by simp)))
      · simp only [Function.update_of_ne heq]
        exact hdata.shared c (Finset.mem_of_mem_insert_of_ne hc heq) hnot
    · funext c
      by_cases heq : c = res
      · subst heq
        rw [writeAll_apply, lastSlot_eq_none.mpr hres]
        rfl
      · rw [writeAll_apply, Function.update_of_ne heq]
        cases hlast : lastSlot c ws 0 with
        | none => rfl
        | some j => exact hdata.pendingVal_eq hlast

/-! ## Circuits -/

/-- **A run**, from correlations and conversions that are right. -/
theorem run_shared (h : C.Right) (gates : List (Gate F)) (pm : ℕ → F) (vm : ℕ → ℕ → AuthShare F)
    (hlegal : Gate.Legal C.poly.k gates ∅ []) :
    ∃ p msgs, ∃ v : ℕ → VerifierState F PendingWire (ℕ → AuthShare F) C.usable,
      Lockstep.sendRun (Prover.step C) gates (Prover.start C pm) = some (p, msgs) ∧
      (∀ i rest, Lockstep.recvRun (Verifier.step C i) gates (Verifier.start C vm i)
        (msgs.map (· i) ++ rest) = some (v i, rest)) ∧
      (∀ i, (v i).wires = gates.foldl (Gate.pending C.poly.k) []) ∧
      ∀ c ∈ gates.foldl Gate.known ∅,
        c ∉ (gates.foldl (Gate.pending C.poly.k) []).map PendingWire.out →
          Shared C.poly.n C.delta (fun i => (v i).mem c) (p.2 c) := by
  obtain ⟨p, msgs, v, hsend, hrecv, cells, ws, -, hcells, hws, htog⟩ :=
    Lockstep.run_in_step (Prover.step C) (Verifier.step C)
      (fun ops s v => ∃ cells ws, Gate.Legal C.poly.k ops cells ws ∧
        ops.foldl Gate.known cells = gates.foldl Gate.known ∅ ∧
        ops.foldl (Gate.pending C.poly.k) ws = gates.foldl (Gate.pending C.poly.k) [] ∧
        Together C PendingWire.isMult (WiresShared C cells s.2) s.1 v ws)
      (fun g ops s v hrel => by
        obtain ⟨cells, ws, ⟨hok, hrest⟩, hcells, hws, htog⟩ := hrel
        obtain ⟨s', msgs, v', hs, hv, htog'⟩ :=
          step_together (wiresShared_invariant h) cells s.2 hok htog
        exact ⟨s', msgs, v', hs, hv, _, _, hrest, hcells, hws, htog'⟩)
      gates (s := Prover.start C pm) (r := Verifier.start C vm)
      ⟨∅, [], hlegal, rfl, rfl, start_together pm ⟨fun c hc => absurd hc (notMem_empty c), rfl⟩⟩
  refine ⟨p, msgs, v, hsend, hrecv, fun i => (htog.wires i).trans hws, fun c hc hout => ?_⟩
  rw [← hcells] at hc
  rw [← hws] at hout
  exact htog.data.shared c hc hout

/-- Up to `2 ^ 26` parties the conversions are right. -/
theorem BackendConfig.right_of_init {logK logN : ℕ} (hlt : logK < logN) (hle : logN ≤ 26)
    {C : BackendConfig (ZMod P59)} (hpoly : Poly.init logK logN = some C.poly)
    (htab : C.poly.initLagrangeTable = some C.tab) (hvole : C.Vole) : C.Right := by
  obtain ⟨-, hlogK, hlogN, -, -, hok⟩ := Poly.init_eq_some hpoly
  obtain ⟨hnegK, hnegN, hroot⟩ := Poly.roots_right hpoly hlt hle
  have hlt' : C.poly.logK < C.poly.logN := by rwa [hlogK, hlogN]
  have htabOk := Poly.initLagrangeTable_eq_some htab
  exact
    { vole := hvole
      k_lt := Poly.k_lt_n hlt'
      tab := htabOk
      n2k := fun input m hm =>
        Poly.nttEvalN2K_eq_lagrangeEvalN2K htabOk hok hnegN hlt' hroot input hm
      k2n := fun f hdeg input hinput y hy => Poly.nttEvalK2N_eq hok hnegK hnegN hdeg hinput hy }

/-- **Every wire is shared**, with up to `2 ^ 26` parties: the preprocessed sharings, the global
key, what the verifiers make of a packed share and of differences that are broadcast, and so, after
every circuit, every cell that is written and not pending. -/
theorem circuit_shared {logK logN : ℕ} (hlt : logK < logN) (hle : logN ≤ 26)
    (C : BackendConfig (ZMod P59)) (hpoly : Poly.init logK logN = some C.poly)
    (htab : C.poly.initLagrangeTable = some C.tab) (hvole : C.Vole) :
    (∀ source, ∀ m < C.poly.k,
      Shared C.poly.n C.delta (fun i => Verifier.randAuthVal C i source m)
        (Prover.randAuthVal C source m)) ∧
    (∀ m < C.poly.k, ∃ f : (ZMod P59)[X], f.degree < (C.poly.t + 1 : ℕ) ∧
      (∀ i < C.poly.n, Verifier.shareDelta C i m = f.eval (C.poly.evalPointsN i)) ∧
      f.eval (C.poly.evalPointsK m) = ∑ d ∈ range C.poly.n, C.delta d) ∧
    (∀ p : ProverState (ZMod P59) PendingWire C.usable, ∀ m < C.poly.k,
      Shared C.poly.n C.delta (fun i => batchShares C p i m) (p.wiresVal.getD m 0)) ∧
    (∀ source vals len p i,
      Shared C.poly.n C.delta (fun idParty =>
        (Verifier.genAddSharesFromDiff C.poly.k idParty (C.delta idParty)
          (Verifier.preAuthSharing C idParty source)
          (Prover.genAddSharesDiff C.poly.k (Prover.preAuthSharing C source) vals len p).1
          len p).1 i) (vals i)) ∧
    ∀ gates pm vm, Gate.Legal C.poly.k gates ∅ [] →
      ∃ p msgs, ∃ v : ℕ → VerifierState (ZMod P59) PendingWire (ℕ → AuthShare (ZMod P59)) C.usable,
        Lockstep.sendRun (Prover.step C) gates (Prover.start C pm) = some (p, msgs) ∧
        (∀ i rest, Lockstep.recvRun (Verifier.step C i) gates (Verifier.start C vm i)
          (msgs.map (· i) ++ rest) = some (v i, rest)) ∧
        (∀ i, (v i).wires = gates.foldl (Gate.pending C.poly.k) []) ∧
        ∀ c ∈ gates.foldl Gate.known ∅,
          c ∉ (gates.foldl (Gate.pending C.poly.k) []).map PendingWire.out →
            Shared C.poly.n C.delta (fun i => (v i).mem c) (p.2 c) := by
  have h := BackendConfig.right_of_init hlt hle hpoly htab hvole
  exact ⟨fun source m hm => Verifier.randAuthVal_shared h source hm,
    fun m hm => ⟨deltaPoly C m, degree_deltaPoly_lt h hm,
      fun i hi => Verifier.shareDelta_eq_eval h hm hi, eval_deltaPoly h hm⟩,
    fun p m hm => batchShares_shared h p hm, genAddSharesFromDiff_shared h, run_shared h⟩

/-- Correlations that are the same for all verifiers. -/
def constBackend {F : Type*} [Field F] (poly : Poly F) (tab : LagrangeTables F) :
    BackendConfig F where
  poly := poly
  tab := tab
  usable := 3
  usable_pos := Nat.succ_pos 2
  delta _ := 1
  secrets _ _ _ := 1
  macs _ _ _ _ := 1
  keys _ _ _ _ := 0
  rand _ _ _ := 1

theorem constBackend_vole {F : Type*} [Field F] (poly : Poly F) (tab : LagrangeTables F) :
    (constBackend poly tab).Vole := fun _ _ _ _ _ _ _ => by simp [constBackend]

theorem circuit_shared_two : ∃ C : BackendConfig (ZMod P59), Poly.init 0 1 = some C.poly ∧
    ∃ p msgs, ∃ v : ℕ → VerifierState (ZMod P59) PendingWire (ℕ → AuthShare (ZMod P59)) C.usable,
      Lockstep.sendRun (Prover.step C) [.input 0 5, .input 1 7, .add 2 0 1, .mult 3 0 2, .flush]
        (Prover.start C fun _ => 0) = some (p, msgs) ∧
      Shared C.poly.n C.delta (fun i => (v i).mem 3) (p.2 3) := by
  obtain ⟨poly, tab, hpoly, htab⟩ := Poly.init_tables_ok (show 0 < 1 by decide) (by decide)
  obtain ⟨-, hlogK, -⟩ := Poly.init_eq_some hpoly
  let C := constBackend poly tab
  have hk : C.poly.k = 1 := by
    show poly.k = 1
    rw [Poly.k, hlogK, pow_zero]
  obtain ⟨-, -, -, -, hrun⟩ := circuit_shared (by decide) (by decide) C hpoly htab
    (constBackend_vole poly tab)
  obtain ⟨p, msgs, v, hsend, -, -, hshared⟩ :=
    hrun [.input 0 5, .input 1 7, .add 2 0 1, .mult 3 0 2, .flush] 0 (fun _ _ => 0)
      (by simp [hk, Gate.Legal, Gate.Ok, Gate.known, Gate.pending])
  refine ⟨C, hpoly, p, msgs, v, hsend, hshared 3 (by decide) List.not_mem_nil⟩

/-! ## Where the conversions are wrong -/

/-- The values of `X` as correlations, and a key that is 0. -/
def turningBackend (poly : Poly (ZMod P59)) (tab : LagrangeTables (ZMod P59)) :
    BackendConfig (ZMod P59) where
  poly := poly
  tab := tab
  usable := 1
  usable_pos := Nat.one_pos
  delta _ := 0
  secrets _ i _ := halfTurn poly.unityRoot2N (2 ^ 29) i
  macs _ _ _ _ := 0
  keys _ _ _ _ := 0
  rand _ _ _ := 0

/-- Inputs that are the preprocessed secrets. -/
def turningInput (poly : Poly (ZMod P59)) (m : ℕ) : ZMod P59 :=
  poly.nttEvalN2K (halfTurn poly.unityRoot2N (2 ^ 29)) m

section Wide

variable {poly : Poly (ZMod P59)} {tab : LagrangeTables (ZMod P59)}

/-- The differences are 0, so that the shares are those of the preprocessed sharing. -/
theorem sum_share_turning {W : Type*}
    (p : ProverState (ZMod P59) W (turningBackend poly tab).usable)
    (hvals : ∀ m < poly.k, p.wiresVal.getD m 0 = turningInput poly m) (m : ℕ) :
    ∑ i ∈ range poly.n, (batchShares (turningBackend poly tab) p i m).share
      = poly.lagrangeEvalN2K tab (halfTurn poly.unityRoot2N (2 ^ 29)) m := by
  have hpacked : Prover.packedShares (turningBackend poly tab) p = fun _ => 0 :=
    Poly.nttEvalK2N_eq_zero fun m hm => sub_eq_zero.mpr (hvals m hm)
  refine sum_congr rfl fun i _ => ?_
  rw [batchShares, hpacked]
  show tab.lagrangeTableKByN m i * halfTurn poly.unityRoot2N (2 ^ 29) i
    + tab.lagrangeTableKByN m i * 0 = _
  rw [mul_zero, add_zero]

theorem Prover.share_of_lt {F W : Type*} [Field F] (C : BackendConfig F)
    {p : ProverState F W C.usable} (h : p.wiresVal.length + 1 < C.poly.k) (val : F) :
    share C val p = ({ p with wiresVal := p.wiresVal ++ [val] }, []) := by
  rw [share, if_neg]
  rw [List.length_append, List.length_singleton]
  exact h.ne

theorem Verifier.share_of_lt {F W M : Type*} [Field F] (C : BackendConfig F)
    (fill : W → AuthShare F → M → Option (M × Option (Triple (AuthShare F)))) (i : ℕ)
    {v : VerifierState F W M C.usable} (h : v.wires.length + 1 < C.poly.k) (w : W)
    (queue : List (Msg F)) :
    share C fill i w v queue = some ({ v with wires := v.wires ++ [w] }, queue) := by
  rw [share, if_neg]
  rw [List.length_append, List.length_singleton]
  exact h.ne

/-- The wires of the inputs. -/
def turningWires : List PendingWire := [⟨0, none⟩, ⟨1, none⟩, ⟨2, none⟩, ⟨3, none⟩]

/-- The values of the inputs. -/
def turningVals (poly : Poly (ZMod P59)) : List (ZMod P59) := (List.range 4).map (turningInput poly)

/-- The circuit of four inputs. -/
def turningGates (poly : Poly (ZMod P59)) : List (Gate (ZMod P59)) :=
  (List.range 4).map fun m => .input m (turningInput poly m)

theorem turning_fills (hk : poly.k = 4) :
    Fills (turningBackend poly tab) (fun _ => fillCell) PendingWire.isMult fun ws vals mem =>
      (ws = turningWires ∧ vals = turningVals poly) ∨
      (ws = [] ∧ ∑ i ∈ range poly.n, (mem i 3).share
        = poly.lagrangeEvalN2K tab (halfTurn poly.unityRoot2N (2 ^ 29)) 3) where
  isSome _ w s mem r hr := by
    cases hr
    exact Option.isSome_map
  batch p ws mem _ _ hdata := by
    choose gates hgates using fun i =>
      fillAll_fillCell (batchShares (turningBackend poly tab) p i) ws 0 (mem i)
    refine ⟨fun i => (_, gates i), hgates, Or.inr ⟨rfl, ?_⟩⟩
    rcases hdata with ⟨rfl, hvals⟩ | ⟨rfl, hsum⟩
    · refine Eq.trans ?_ (sum_share_turning p (fun m hm => ?_) 3)
      · rfl
      · rw [hvals, turningVals, List.getD_eq_getElem?_getD, List.getElem?_map,
          List.getElem?_range (hk ▸ hm)]
        rfl
    · exact hsum

end Wide

/-- With `2 ^ 30` parties and four secrets there are correlations and inputs whose last wire is not
shared. -/
theorem circuit_not_shared : ∃ C : BackendConfig (ZMod P59), Poly.init 2 30 = some C.poly ∧
    C.poly.initLagrangeTable = some C.tab ∧ C.Vole ∧
    ∃ gates, Gate.Legal C.poly.k gates ∅ [] ∧
      ∃ p msgs, ∃ v : ℕ → VerifierState (ZMod P59) PendingWire (ℕ → AuthShare (ZMod P59)) C.usable,
        Lockstep.sendRun (Prover.step C) gates (Prover.start C fun _ => 0) = some (p, msgs) ∧
        (∀ i rest, Lockstep.recvRun (Verifier.step C i) gates (Verifier.start C (fun _ _ => 0) i)
          (msgs.map (· i) ++ rest) = some (v i, rest)) ∧
        3 ∈ gates.foldl Gate.known ∅ ∧ (∀ i, (v i).wires = []) ∧
        ∑ i ∈ range C.poly.n, ((v i).mem 3).share ≠ p.2 3 := by
  obtain ⟨poly, tab, hpoly, htab⟩ := Poly.init_tables_wide
  obtain ⟨-, hlogK, -⟩ := Poly.init_eq_some hpoly
  have hk : poly.k = 4 := by
    rw [Poly.k, hlogK]
    decide
  have htabOk := Poly.initLagrangeTable_eq_some htab
  let C := turningBackend poly tab
  -- the parties after `m` inputs
  let p (m : ℕ) : ProverState (ZMod P59) PendingWire C.usable :=
    { Prover.init C.usable with wiresVal := (List.range m).map (turningInput poly) }
  let v (m : ℕ) : VerifierState (ZMod P59) PendingWire (ℕ → AuthShare (ZMod P59)) C.usable :=
    { Verifier.init C.usable (fun _ => 0) with wires := (List.range m).map fun c => ⟨c, none⟩ }
  have hpush : InStep C PendingWire.isMult
      { p 3 with wiresVal := (p 3).wiresVal ++ [turningInput poly 3] }
      (fun _ => { v 3 with wires := (v 3).wires ++ [⟨3, none⟩] })
      (turningWires.take 3 ++ [⟨3, none⟩]) :=
    ⟨fun _ => rfl, fun _ => rfl, rfl, fun _ => rfl, fun _ => rfl, fun _ => rfl⟩
  obtain ⟨v', hrecv, htog⟩ := Verifier.share_together (turning_fills hk) hpush
    (fun _ => (by decide : 0 < multGateBufSz)) (show 3 < poly.k by rw [hk]; decide)
    (Or.inl ⟨rfl, rfl⟩)
  have hfull : (turningWires.take 3).length + 1 = (turningBackend poly tab).poly.k := hk.symm
  rw [if_pos hfull] at htog
  have hsum : ∑ i ∈ range poly.n, ((v' i).mem 3).share
      = poly.lagrangeEvalN2K tab (halfTurn poly.unityRoot2N (2 ^ 29)) 3 := by
    rcases htog.data with ⟨hws, -⟩ | ⟨-, hsum⟩
    · cases hws
    · exact hsum
  have hp : ∀ m < 3, Prover.share C (turningInput poly m) (p m) = (p (m + 1), []) := fun m hm => by
    have hlen : (p m).wiresVal.length = m := by simp [p]
    rw [Prover.share_of_lt C (by rw [hlen, show C.poly.k = 4 from hk]; omega)]
    simp [p, List.range_succ]
  have hv : ∀ m < 3, ∀ i queue, Verifier.share C fillCell i ⟨m, none⟩ (v m) queue
      = some (v (m + 1), queue) := fun m hm i queue => by
    have hlen : (v m).wires.length = m := by simp [v]
    rw [Verifier.share_of_lt C _ _ (by rw [hlen, show C.poly.k = 4 from hk]; omega)]
    simp [v, List.range_succ]
  have hsend : Lockstep.sendRun (Prover.step C) (turningGates poly) (Prover.start C fun _ => 0)
      = some (((Prover.share C (turningInput poly 3) (p 3)).1,
          Function.update (Function.update (Function.update (Function.update (fun _ => 0) 0
            (turningInput poly 0)) 1 (turningInput poly 1)) 2 (turningInput poly 2)) 3
            (turningInput poly 3)), (Prover.share C (turningInput poly 3) (p 3)).2) := by
    show Lockstep.sendRun (Prover.step C) [.input 0 _, .input 1 _, .input 2 _, .input 3 _] _ = _
    simp only [Lockstep.sendRun, Prover.step, Prover.start, Option.bind_some, Option.map_some]
    rw [show Prover.init C.usable = p 0 from rfl, hp 0 (by decide), hp 1 (by decide),
      hp 2 (by decide)]
    simp only [List.nil_append, List.append_nil]
  have hrecvs : ∀ i rest, Lockstep.recvRun (Verifier.step C i) (turningGates poly)
      (Verifier.start C (fun _ _ => 0) i)
      ((Prover.share C (turningInput poly 3) (p 3)).2.map (· i) ++ rest) = some (v' i, rest) := by
    intro i rest
    show Lockstep.recvRun (Verifier.step C i) [.input 0 _, .input 1 _, .input 2 _, .input 3 _] _ _
      = _
    simp only [Lockstep.recvRun, Verifier.step, Verifier.start]
    rw [show Verifier.init C.usable (fun _ => 0) = v 0 from rfl, hv 0 (by decide),
      Option.bind_some, hv 1 (by decide), Option.bind_some, hv 2 (by decide), Option.bind_some]
    exact (congrArg (Option.bind · _) (hrecv i rest)).trans rfl
  refine ⟨C, hpoly, htab, fun _ _ _ _ _ _ _ => ?_, turningGates poly,
    ⟨trivial, trivial, trivial, trivial, trivial⟩, _, _, v', hsend, hrecvs, ?_,
    htog.wires, ?_⟩
  · exact (zero_add _).symm.trans (congrArg (0 + ·) (mul_zero _).symm)
  · exact Finset.mem_insert_self 3 _
  · exact fun heq => nttEvalN2K_ne_wide hpoly htabOk (heq.symm.trans hsum)

end VoleZk.Mvzk
