import VoleZk.Arith.FpExec

/-!
# Completeness of the arithmetic engine

Whatever program the two parties run, every label keeps its MAC relation, and the checks pass.

## What is here

* `auth_correct` — a correlation, corrected to a chosen value;
* `auth_addGate` and its siblings — **one lemma per gate**;
* `Slots` — the invariant of the buffers between two checks;
* `checkManage_eq_some` — **the batch check of honest products accepts**;
* `FpSession.Inv`, `FpSession.step_rel` — one operation, by both parties and in plain;
* `FpSession.run_complete` — **a whole program**.
-/

set_option autoImplicit false

namespace VoleZk

/-- The two halves of `l` are a label of value `v`. -/
def Label.Of (delta : ℕ) (l : Label) (v : ℕ) : Prop := Auth delta l.prover l.verifier v

/-! ## Gates -/

section Gates

variable {C : FpConfig} {a b : Label} {x y c : ℕ}

/-- A correlation of value `u`, corrected to the value `w` by the word `u - w`. -/
theorem auth_correct (hC : C.Valid) {M K : AuthVal} {u w : ℕ} (h : Auth C.delta M K u)
    (hw : w < PR) :
    Auth C.delta ⟨w, M.mac⟩
      ⟨0, C.F.addMod K.mac (C.F.multMod (C.F.addMod M.val (PR - w)) C.delta)⟩ w := by
  have hF := hC.canonical
  have hu : M.val < PR := h.val_eq ▸ h.val_lt
  have hsub : PR - w ≤ PR := Nat.sub_le _ _
  have hlam : C.F.addMod M.val (PR - w) < PR := hF.addMod_lt hu.le hsub (by omega)
  have hprod := hF.multMod_lt hlam hC.delta_lt
  have hk := h.key_lt
  refine Auth.of_cast rfl hw rfl h.mac_lt (hF.addMod_lt h.key_lt.le hprod.le (by omega)) ?_
  rw [hF.addMod_cast hk.le hprod.le (by omega), hF.multMod_cast hlam hC.delta_lt,
    hF.addMod_cast hu.le hsub (by omega), Nat.cast_sub hw.le, h.mac_cast, h.val_eq]
  simp only [CharP.cast_eq_zero]
  ring

theorem auth_pubLabel (hC : C.Valid) (hx : x < PR) : (C.pubLabel x).Of C.delta x := by
  have hF := hC.canonical
  have hprod := hF.multMod_lt hC.delta_lt hx
  have hpub := hC.pubMac_lt
  have hsub : PR - C.F.multMod C.delta x ≤ PR := Nat.sub_le _ _
  refine Auth.of_cast rfl hx rfl hC.pubMac_lt (hF.addMod_lt hsub hpub.le (by omega)) ?_
  show (C.pubMac : ZMod PR)
    = (C.F.addMod (PR - C.F.multMod C.delta x) C.pubMac : ℕ) + x * C.delta
  rw [hF.addMod_cast hsub hpub.le (by omega), Nat.cast_sub hprod.le,
    hF.multMod_cast hC.delta_lt hx]
  simp only [CharP.cast_eq_zero]
  ring

theorem auth_addGate (hC : C.Valid) (ha : a.Of C.delta x) (hb : b.Of C.delta y) :
    (C.addGate a b).Of C.delta ((x + y) % PR) := by
  have hF := hC.canonical
  have hx := ha.val_lt
  have hy := hb.val_lt
  have hMa := ha.mac_lt
  have hMb := hb.mac_lt
  have hKa := ha.key_lt
  have hKb := hb.key_lt
  refine Auth.of_cast ?_ (Nat.mod_lt _ PR_pos) rfl (hF.mod128_lt (by omega))
    (hF.addMod_lt hKa.le hKb.le (by omega)) ?_
  · show C.F.mod128 (a.prover.val + b.prover.val) = (x + y) % PR
    rw [ha.val_eq, hb.val_eq, hF.mod128_eq _ (by omega)]
  · show (C.F.mod128 (a.prover.mac + b.prover.mac) : ZMod PR)
      = (C.F.addMod a.verifier.mac b.verifier.mac : ℕ) + ((x + y) % PR : ℕ) * C.delta
    rw [hF.mod128_cast (by omega), hF.addMod_cast hKa.le hKb.le (by omega), ZMod.natCast_mod]
    push_cast
    rw [ha.mac_cast, hb.mac_cast]
    ring

theorem auth_subGate (hC : C.Valid) (ha : a.Of C.delta x) (hb : b.Of C.delta y) :
    (C.subGate a b).Of C.delta ((x + (PR - y)) % PR) := by
  have hF := hC.canonical
  have hx := ha.val_lt
  have hy := hb.val_lt
  have hMa := ha.mac_lt
  have hMb := hb.mac_lt
  have hKa := ha.key_lt
  have hKb := hb.key_lt
  have hsub : PR - b.verifier.mac ≤ PR := Nat.sub_le _ _
  refine Auth.of_cast ?_ (Nat.mod_lt _ PR_pos) rfl (hF.mod128_lt (by omega))
    (hF.addMod_lt hKa.le hsub (by omega)) ?_
  · show C.F.mod128 (a.prover.val + PR - b.prover.val) = (x + (PR - y)) % PR
    rw [ha.val_eq, hb.val_eq, hF.mod128_eq _ (by omega), Nat.add_sub_assoc hy.le]
  · show (C.F.mod128 (a.prover.mac + PR - b.prover.mac) : ZMod PR)
      = (C.F.addMod a.verifier.mac (PR - b.verifier.mac) : ℕ) + ((x + (PR - y)) % PR : ℕ) * C.delta
    rw [hF.mod128_cast (by omega), hF.addMod_cast hKa.le hsub (by omega), ZMod.natCast_mod,
      Nat.add_sub_assoc hMb.le]
    push_cast [Nat.cast_sub hMb.le, Nat.cast_sub hKb.le, Nat.cast_sub hy.le]
    rw [ha.mac_cast, hb.mac_cast]
    simp only [CharP.cast_eq_zero]
    ring

theorem auth_negGate (hC : C.Valid) (ha : a.Of C.delta x) :
    (C.negGate a).Of C.delta ((PR - x) % PR) := by
  have hF := hC.canonical
  have hx := ha.val_lt
  have hMa := ha.mac_lt
  have hKa := ha.key_lt
  have hkey : (Ver.negGate a.verifier).mac < PR ∧
      ((Ver.negGate a.verifier).mac : ZMod PR) = -a.verifier.mac := by
    by_cases h0 : a.verifier.mac = 0
    · simp only [Ver.negGate, h0, if_true]
      exact ⟨PR_pos, by simp⟩
    · simp only [Ver.negGate, if_neg h0]
      refine ⟨by omega, ?_⟩
      rw [Nat.cast_sub hKa.le, CharP.cast_eq_zero, zero_sub]
  refine Auth.of_cast ?_ (Nat.mod_lt _ PR_pos) rfl (hF.mod128_lt (by omega)) hkey.1 ?_
  · show C.F.mod128 (PR - a.prover.val) = (PR - x) % PR
    rw [ha.val_eq, hF.mod128_eq _ (by omega)]
  · show (C.F.mod128 (PR - a.prover.mac) : ZMod PR)
      = (Ver.negGate a.verifier).mac + ((PR - x) % PR : ℕ) * C.delta
    rw [hF.mod128_cast (by omega), hkey.2, ZMod.natCast_mod, Nat.cast_sub hMa.le,
      Nat.cast_sub hx.le, ha.mac_cast]
    simp only [CharP.cast_eq_zero]
    ring

theorem auth_mulConstGate (hC : C.Valid) (ha : a.Of C.delta x) (hc : c < PR) :
    (C.mulConstGate a c).Of C.delta (x * c % PR) := by
  have hF := hC.canonical
  have hval : a.prover.val < PR := ha.val_eq ▸ ha.val_lt
  have hlanes := hF.multModBlock_eq (a.prover.val, a.prover.mac) c hval ha.mac_lt hc
  have hMac : (C.mulConstGate a c).prover.mac = a.prover.mac * c % PR :=
    congrArg Prod.snd hlanes
  refine Auth.of_cast ?_ (Nat.mod_lt _ PR_pos) rfl ?_ (hF.multMod_lt ha.key_lt hc) ?_
  · show (C.F.multModBlock (a.prover.val, a.prover.mac) c).1 = x * c % PR
    rw [hlanes, ha.val_eq]
  · rw [hMac]
    exact Nat.mod_lt _ PR_pos
  · show ((C.mulConstGate a c).prover.mac : ZMod PR)
      = (C.F.multMod a.verifier.mac c : ℕ) + (x * c % PR : ℕ) * C.delta
    rw [hMac, hF.multMod_cast ha.key_lt hc, ZMod.natCast_mod, ZMod.natCast_mod]
    push_cast
    rw [ha.mac_cast]
    ring

theorem auth_foldl_addGate (hC : C.Valid) {as : List Label} {vs : List ℕ}
    (h : List.Forall₂ (Label.Of C.delta) as vs) (ha : a.Of C.delta (x % PR)) :
    (as.foldl C.addGate a).Of C.delta ((x + vs.sum) % PR) := by
  induction h generalizing a x with
  | nil => simpa using ha
  | @cons b y as vs hb _ ih =>
    have hab := auth_addGate hC ha hb
    rw [Nat.mod_add_mod] at hab
    have := ih hab
    rwa [Nat.add_assoc, ← List.sum_cons] at this

/-- `IntFpVec::sum` is a label of the sum. -/
theorem auth_sum (hC : C.Valid) {as : List Label} {vs : List ℕ}
    (h : List.Forall₂ (Label.Of C.delta) as vs) : (C.sum as).Of C.delta (vs.sum % PR) := by
  cases h with
  | nil => exact auth_pubLabel hC PR_pos
  | @cons a x as vs ha h =>
    rw [List.sum_cons]
    refine auth_foldl_addGate hC h ?_
    rwa [Nat.mod_eq_of_lt ha.val_lt]

end Gates

namespace FpOSTriple

variable {C : FpConfig} {p p' v v' : FpOSTriple} {c : ℕ}

/-! ## The buffers between two checks -/

/-- The buffers of the two parties when the batch has `c` products: the slots below `c` hold
products, those from `c` on unused correlations. -/
structure Slots (delta : ℕ) (p v : FpOSTriple) (c : ℕ) : Prop where
  /-- A used slot holds two factors and their product. -/
  done : ∀ i < c, ∃ a b, Auth delta (p.leftBuf i) (v.leftBuf i) a ∧
    Auth delta (p.rightBuf i) (v.rightBuf i) b ∧
    Auth delta (p.outBuf i) (v.outBuf i) (a * b % PR)
  /-- An unused slot holds a correlation. -/
  fresh : ∀ i, c ≤ i → ∃ u, Auth delta (p.outBuf i) (v.outBuf i) u

/-- Two states of an engine that differ in the buffers at most. -/
structure SameCounters (p p' : FpOSTriple) : Prop where
  /-- The same correlations are drawn. -/
  drawn : p'.drawn = p.drawn
  /-- The same checks are made. -/
  checks : p'.checks = p.checks
  /-- The batch counter is the same. -/
  checkCnt : p'.checkCnt = p.checkCnt
  /-- The same words are hashed. -/
  hashed : p'.hashed = p.hashed

theorem SameCounters.refl (p : FpOSTriple) : SameCounters p p := ⟨rfl, rfl, rfl, rfl⟩

theorem SameCounters.trans {q : FpOSTriple} (h : SameCounters p q) (h' : SameCounters q p') :
    SameCounters p p' :=
  ⟨h'.drawn.trans h.drawn, h'.checks.trans h.checks, h'.checkCnt.trans h.checkCnt,
    h'.hashed.trans h.hashed⟩

theorem mulSend_same (F : FpOps) (p : FpOSTriple) (i : ℕ) (Ma Mb : AuthVal) :
    SameCounters p (mulSend F p i Ma Mb).1 := ⟨rfl, rfl, rfl, rfl⟩

theorem mulRecv_same (F : FpOps) (delta : ℕ) (v : FpOSTriple) (i : ℕ) (Ka Kb : AuthVal) (s : ℕ) :
    SameCounters v (mulRecv F delta v i Ka Kb s).1 := ⟨rfl, rfl, rfl, rfl⟩

/-- **One product**: the next slot is used, and its label is the product. -/
theorem Slots.mul (hC : C.Valid) (h : Slots C.delta p v c) {a b : Label} {x y : ℕ}
    (ha : a.Of C.delta x) (hb : b.Of C.delta y) :
    Slots C.delta (mulSend C.F p c a.prover b.prover).1
        (mulRecv C.F C.delta v c a.verifier b.verifier
          (mulSend C.F p c a.prover b.prover).2.2).1 (c + 1) ∧
      Label.Of C.delta ⟨(mulSend C.F p c a.prover b.prover).2.1,
        (mulRecv C.F C.delta v c a.verifier b.verifier
          (mulSend C.F p c a.prover b.prover).2.2).2⟩ (x * y % PR) := by
  obtain ⟨u, hu⟩ := h.fresh c le_rfl
  have hd : C.F.multMod a.prover.val b.prover.val = x * y % PR := by
    rw [ha.val_eq, hb.val_eq, hC.canonical.multMod_eq _ _ ha.val_lt hb.val_lt]
  have hout := auth_correct hC hu (w := x * y % PR) (Nat.mod_lt _ PR_pos)
  rw [← hd] at hout
  refine ⟨⟨fun i hi => ?_, fun i hi => ?_⟩, hd ▸ hout⟩
  · by_cases hic : i = c
    · subst hic
      refine ⟨x, y, ?_, ?_, ?_⟩
      · simpa [mulSend, mulRecv] using show Auth _ _ _ _ from ha
      · simpa [mulSend, mulRecv] using show Auth _ _ _ _ from hb
      · rw [← hd]
        simpa [mulSend, mulRecv] using hout
    · simpa [mulSend, mulRecv, Function.update_of_ne hic] using h.done i (by omega)
  · have hic : i ≠ c := by omega
    simpa [mulSend, mulRecv, Function.update_of_ne hic] using h.fresh i (by omega)

/-- **A block of products.** -/
theorem Slots.mulBlock (hC : C.Valid) {ab : List (Label × Label)} {xy : List (ℕ × ℕ)}
    (hab : List.Forall₂ (fun l x => l.1.Of C.delta x.1 ∧ l.2.Of C.delta x.2) ab xy)
    (h : Slots C.delta p v c) :
    let P := mulBlockSend C.F p c (ab.map fun x => (x.1.prover, x.2.prover))
    let V := mulBlockRecv C.F C.delta v c (ab.map fun x => (x.1.verifier, x.2.verifier)) P.2.2
    Slots C.delta P.1 V.1 (c + ab.length) ∧ SameCounters p P.1 ∧ SameCounters v V.1 ∧
      List.Forall₂ (Label.Of C.delta) (List.zipWith Label.mk P.2.1 V.2)
        (xy.map fun x => x.1 * x.2 % PR) := by
  induction hab generalizing p v c with
  | nil => exact ⟨h, SameCounters.refl p, SameCounters.refl v, List.Forall₂.nil⟩
  | @cons l x ab xy hl hab ih =>
    obtain ⟨hslots, hout⟩ := h.mul hC hl.1 hl.2
    obtain ⟨hslots', hp, hv, houts⟩ := ih hslots
    refine ⟨?_, (mulSend_same _ _ _ _ _).trans hp, (mulRecv_same _ _ _ _ _ _ _).trans hv,
      List.Forall₂.cons hout houts⟩
    rw [List.length_cons, ← Nat.add_assoc, Nat.add_right_comm]
    exact hslots'

/-- A new batch. -/
theorem Slots.fillVole (hC : C.Valid) (hdrawn : p.drawn = v.drawn) :
    Slots C.delta (fillVole C C.volePrv p) (fillVole C C.voleVer v) 0 where
  done i hi := absurd hi (Nat.not_lt_zero i)
  fresh i _ := by
    show ∃ u, Auth C.delta (C.volePrv (p.drawn + i)) (C.voleVer (v.drawn + i)) u
    rw [hdrawn]
    exact hC.vole _

/-! ## The batch check -/

/-- The sums of the two parties over the same slots: `U = W + V * Δ`. -/
structure Balance (delta : ℕ) (UV : ℕ × ℕ) (W : ℕ) : Prop where
  /-- The constant sum of the prover is a residue. -/
  U_lt : UV.1 < PR
  /-- The linear sum of the prover is a residue. -/
  V_lt : UV.2 < PR
  /-- The sum of the verifier is a residue. -/
  W_lt : W < PR
  /-- The two sides agree at the key. -/
  eq : (UV.1 : ZMod PR) = W + UV.2 * delta

theorem Balance.zero (delta : ℕ) : Balance delta (0, 0) 0 :=
  ⟨PR_pos, PR_pos, PR_pos, by simp⟩

theorem Balance.add (hC : C.Valid) {UV uv : ℕ × ℕ} {W w : ℕ} (h : Balance C.delta UV W)
    (h' : Balance C.delta uv w) :
    Balance C.delta (C.F.addMod UV.1 uv.1, C.F.addMod UV.2 uv.2) (C.F.addMod W w) := by
  have hF := hC.canonical
  have hU := h.U_lt
  have hV := h.V_lt
  have hW := h.W_lt
  have hu := h'.U_lt
  have hv := h'.V_lt
  have hw := h'.W_lt
  refine ⟨hF.addMod_lt hU.le hu.le (by omega), hF.addMod_lt hV.le hv.le (by omega),
    hF.addMod_lt hW.le hw.le (by omega), ?_⟩
  rw [hF.addMod_cast hU.le hu.le (by omega), hF.addMod_cast hV.le hv.le (by omega),
    hF.addMod_cast hW.le hw.le (by omega), h.eq, h'.eq]
  ring

/-- The comparison of the verifier. -/
theorem Balance.accept (hC : C.Valid) {UV : ℕ × ℕ} {W : ℕ} (h : Balance C.delta UV W) :
    UV.1 = C.F.addMod (C.F.multMod UV.2 C.delta) W := by
  have hF := hC.canonical
  have hprod := hF.multMod_lt h.V_lt hC.delta_lt
  have hW := h.W_lt
  refine eq_of_cast_eq h.U_lt (hF.addMod_lt hprod.le hW.le (by omega)) ?_
  rw [hF.addMod_cast hprod.le hW.le (by omega), hF.multMod_cast h.V_lt hC.delta_lt, h.eq]
  ring

/-- The terms of one slot, with its coefficient. -/
theorem balance_slot (hC : C.Valid) {Ma Mb Mc Ka Kb Kc : AuthVal} {a b x : ℕ}
    (ha : Auth C.delta Ma Ka a) (hb : Auth C.delta Mb Kb b)
    (hc : Auth C.delta Mc Kc (a * b % PR)) (hx : x < PR) :
    Balance C.delta
      (C.F.multMod (C.F.multMod Ma.mac Mb.mac) x,
        C.F.multMod (C.F.addMod (C.F.addMod (C.F.multMod Ma.val Mb.mac)
          (C.F.multMod Mb.val Ma.mac)) (PR - Mc.mac)) x)
      (C.F.multMod (C.F.addMod (C.F.multMod Ka.mac Kb.mac) (C.F.multMod Kc.mac C.delta)) x) := by
  have hF := hC.canonical
  have hMa := ha.mac_lt
  have hMb := hb.mac_lt
  have hMc := hc.mac_lt
  have hΔ := hC.delta_lt
  have hA0 := hF.multMod_lt hMa hMb
  have hva : Ma.val < PR := ha.val_eq ▸ ha.val_lt
  have hvb : Mb.val < PR := hb.val_eq ▸ hb.val_lt
  have h1 := hF.multMod_lt hva hMb
  have h2 := hF.multMod_lt hvb hMa
  have h3 := hF.addMod_lt h1.le h2.le (by omega)
  have hsub : PR - Mc.mac ≤ PR := Nat.sub_le _ _
  have hA1 := hF.addMod_lt h3.le hsub (by omega)
  have hk1 := hF.multMod_lt ha.key_lt hb.key_lt
  have hk2 := hF.multMod_lt hc.key_lt hΔ
  have hB := hF.addMod_lt hk1.le hk2.le (by omega)
  refine ⟨hF.multMod_lt hA0 hx, hF.multMod_lt hA1 hx, hF.multMod_lt hB hx, ?_⟩
  rw [hF.multMod_cast hA0 hx, hF.multMod_cast hA1 hx, hF.multMod_cast hB hx,
    hF.multMod_cast hMa hMb, hF.addMod_cast h3.le hsub (by omega),
    hF.addMod_cast h1.le h2.le (by omega), hF.multMod_cast hva hMb, hF.multMod_cast hvb hMa,
    hF.addMod_cast hk1.le hk2.le (by omega), hF.multMod_cast ha.key_lt hb.key_lt,
    hF.multMod_cast hc.key_lt hΔ, Nat.cast_sub hMc.le, hc.mac_cast, ha.mac_cast, hb.mac_cast,
    ha.val_eq, hb.val_eq, ZMod.natCast_mod, Nat.cast_mul]
  simp only [CharP.cast_eq_zero]
  ring

/-- **One worker.**  The induction is on the number of slots of its slice. -/
theorem balance_check (hC : C.Valid) (h : Slots C.delta p v c) {chi : ℕ → ℕ}
    (hchi : ∀ k, chi k < PR) (start : ℕ) {taskN : ℕ} (hle : start + taskN ≤ c) :
    Balance C.delta (checkSend C.F p chi start taskN)
      (checkRecv C.F C.delta v chi start taskN) := by
  induction taskN with
  | zero => exact Balance.zero C.delta
  | succ n ih =>
    obtain ⟨a, b, ha, hb, hc⟩ := h.done (start + n) (by omega)
    have hslot := balance_slot hC ha hb hc (hchi n)
    have hsum := (ih (by omega)).add hC hslot
    rw [checkSend, checkRecv, List.range_succ, List.foldl_append, List.foldl_append]
    exact hsum

theorem chi_lt (hC : C.Valid) (check thrIdx k : ℕ) : chi C check thrIdx k < PR := by
  rw [chi, prgCoeffGenZk, hC.canonical.mod_eq _ (hC.prg_lt _ _)]
  exact Nat.mod_lt _ PR_pos

/-- A slice lies within the batch. -/
theorem slices_le {n : ℕ} {t : ℕ × ℕ × ℕ} (ht : t ∈ slices C n) : t.2.1 + t.2.2 ≤ n := by
  have hmul : n / C.threads * C.threads ≤ n := Nat.div_mul_le_self n C.threads
  rw [slices] at ht
  split at ht
  · rw [List.mem_singleton] at ht
    simp [ht]
  · rename_i hthreads
    rw [List.mem_append, List.mem_map, List.mem_singleton] at ht
    rcases ht with ⟨i, hi, rfl⟩ | rfl
    · rw [List.mem_range] at hi
      calc i * (n / C.threads) + n / C.threads = (i + 1) * (n / C.threads) := by ring
        _ ≤ C.threads * (n / C.threads) := Nat.mul_le_mul_right _ (by omega)
        _ ≤ n := by rwa [Nat.mul_comm]
    · have hlast : (C.threads - 1) * (n / C.threads) ≤ n :=
        (Nat.mul_le_mul_right _ (Nat.sub_le _ _)).trans (by rwa [Nat.mul_comm])
      exact (Nat.add_sub_cancel' hlast).le

/-- **All workers.** -/
theorem balance_slices (hC : C.Valid) (h : Slots C.delta p v c) (check : ℕ)
    {ts : List (ℕ × ℕ × ℕ)} (hts : ∀ t ∈ ts, t.2.1 + t.2.2 ≤ c) {UV : ℕ × ℕ} {W : ℕ}
    (hUV : Balance C.delta UV W) :
    Balance C.delta
      ((ts.map fun (t, start, taskN) => checkSend C.F p (chi C check t) start taskN).foldl
        (fun (U, V) (u, v) => (C.F.addMod U u, C.F.addMod V v)) UV)
      ((ts.map fun (t, start, taskN) => checkRecv C.F C.delta v (chi C check t) start taskN).foldl
        (fun W w => C.F.addMod W w) W) := by
  induction ts generalizing UV W with
  | nil => exact hUV
  | cons t ts ih =>
    rw [List.forall_mem_cons] at hts
    have hslice := balance_check hC h (chi_lt hC check t.1) t.2.1 hts.1
    exact ih hts.2 (hUV.add hC hslice)

/-- **The batch check of honest products accepts.** -/
theorem checkManage_eq_some (hC : C.Valid) (h : Slots C.delta p v p.checkCnt)
    (hcnt : p.checkCnt = v.checkCnt) (hdrawn : p.drawn = v.drawn) (hchecks : p.checks = v.checks) :
    checkManageRecv C v (checkManageSend C p).2
      = some { v with drawn := v.drawn + 1, checks := v.checks + 1 } := by
  obtain ⟨u, hope⟩ := hC.vole p.drawn
  have hsum := balance_slices hC h p.checks (fun t ht => slices_le (C := C) ht)
    (Balance.zero C.delta)
  have hmask : Balance C.delta ((C.volePrv p.drawn).mac, (C.volePrv p.drawn).val)
      (C.voleVer p.drawn).mac :=
    ⟨hope.mac_lt, hope.val_eq ▸ hope.val_lt, hope.key_lt, by rw [hope.mac_cast, hope.val_eq]⟩
  have htotal := hsum.add hC hmask
  rw [checkManageRecv, ← hcnt, ← hdrawn, ← hchecks]
  exact if_pos (htotal.accept hC)

end FpOSTriple

/-- A MAC equals its key only for the value 0, or under the key 0. -/
theorem Auth.mac_eq_key_iff {Δ v : ℕ} {M K : AuthVal} (h : Auth Δ M K v) (hΔ : Δ < PR) :
    M.mac = K.mac ↔ v = 0 ∨ Δ = 0 := by
  have hcast : M.mac = K.mac ↔ (v : ZMod PR) * Δ = 0 := by
    constructor
    · intro heq
      have := h.mac_cast
      rw [heq] at this
      exact left_eq_add.mp this
    · intro h0
      refine eq_of_cast_eq h.mac_lt h.key_lt ?_
      rw [h.mac_cast, h0, add_zero]
  have hzero : ∀ {x : ℕ}, x < PR → ((x : ZMod PR) = 0 ↔ x = 0) := fun hx =>
    ⟨fun h0 => eq_of_cast_eq hx PR_pos (by rw [h0, Nat.cast_zero]), fun h0 => by
      rw [h0, Nat.cast_zero]⟩
  rw [hcast, mul_eq_zero, hzero h.val_lt, hzero hΔ]

namespace FpSession

open FpOSTriple

variable {C : FpConfig} {s : FpSession} {p : FpPlain}

/-! ## The two parties and the plain program -/

/-- The invariant of a run: the engines are in step, the buffers hold the products of the batch,
every wire is a label of its value, and what has been hashed agrees unless a wire other than 0
was given to `reveal_zero`. -/
structure Inv (C : FpConfig) (s : FpSession) (p : FpPlain) : Prop where
  /-- The parties have drawn the same correlations. -/
  drawn : s.prover.drawn = s.verifier.drawn
  /-- The parties have made the same checks. -/
  checks : s.prover.checks = s.verifier.checks
  /-- The parties are at the same place in the batch. -/
  cnt : s.prover.checkCnt = s.verifier.checkCnt
  /-- The batch is not over full. -/
  cnt_le : s.prover.checkCnt ≤ C.checkSz
  /-- The buffers. -/
  slots : Slots C.delta s.prover s.verifier s.prover.checkCnt
  /-- **Every wire is a label of its value.** -/
  wires : List.Forall₂ (Label.Of C.delta) s.wires p.vals
  /-- The prover's reveals. -/
  outPrv : s.outPrv = p.outs
  /-- The verifier's reveals. -/
  outVer : s.outVer = p.outs
  /-- The parties have hashed the same number of words. -/
  hashed_length : s.prover.hashed.length = s.verifier.hashed.length
  /-- The words agree if the wires given to `reveal_zero` are 0. -/
  hashed : s.prover.hashed = s.verifier.hashed ↔ ∀ z ∈ p.zeros, z = 0 ∨ C.delta = 0

theorem Inv.init (hC : C.Valid) : Inv C (init C) FpPlain.init where
  drawn := rfl
  checks := rfl
  cnt := rfl
  cnt_le := Nat.zero_le _
  slots := Slots.fillVole hC rfl
  wires := List.Forall₂.nil
  outPrv := rfl
  outVer := rfl
  hashed_length := rfl
  hashed := ⟨fun _ _ hz => (nomatch hz), fun _ => rfl⟩

theorem Inv.push (h : Inv C s p) {ls : List Label} {vs : List ℕ}
    (hls : List.Forall₂ (Label.Of C.delta) ls vs) : Inv C (s.push ls) (p.push vs) :=
  { h with wires := List.rel_append h.wires hls }

/-! ### Looking wires up -/

theorem Inv.labels (h : Inv C s p) (is : List ℕ) :
    Option.Rel (List.Forall₂ (Label.Of C.delta)) (s.labels is) (p.values is) :=
  Runs.mapM_getElem?_rel h.wires is

/-! ### Inputs -/

theorem auth_authenticatedValInput (hC : C.Valid) (e e' : FpOSTriple) (he : e.drawn = e'.drawn)
    {w : List ℕ} (hw : ∀ x ∈ w, x < PR) :
    let P := authenticatedValInputSend C.F C.volePrv e w
    let V := authenticatedValInputRecv C.F C.voleVer C.delta e' P.2.2
    List.Forall₂ (Label.Of C.delta) (List.zipWith Label.mk P.2.1 V.2) w := by
  simp only [authenticatedValInputSend, authenticatedValInputRecv, drawVole,
    List.forall₂_iff_get]
  refine ⟨by simp, fun i _ hi => ?_⟩
  obtain ⟨u, hu⟩ := hC.vole (e'.drawn + i)
  have := auth_correct hC hu (hw _ (List.get_mem w ⟨i, hi⟩))
  simpa [Label.Of, he] using show Auth _ _ _ _ from this

theorem Inv.feed (hC : C.Valid) (h : Inv C s p) {w : List ℕ} (hw : ∀ x ∈ w, x < PR) :
    ∃ s', step C s (.feed w) = some s' ∧ Inv C s' (p.push w) := by
  have hout := auth_authenticatedValInput hC s.prover s.verifier h.drawn hw
  refine ⟨_, rfl, { h with drawn := ?_, slots := ⟨h.slots.done, h.slots.fresh⟩, wires := ?_ }⟩
  · show s.prover.drawn + w.length = s.verifier.drawn + (List.zipWith _ _ _).length
    simp [h.drawn]
  · exact List.rel_append h.wires hout

/-! ### Multiplication -/

theorem Inv.checkManage (hC : C.Valid) (h : Inv C s p) :
    FpSession.checkManage C s = some { s with
      prover := { s.prover with drawn := s.prover.drawn + 1, checks := s.prover.checks + 1 }
      verifier :=
        { s.verifier with drawn := s.verifier.drawn + 1, checks := s.verifier.checks + 1 } } := by
  have hv := checkManage_eq_some hC h.slots h.cnt h.drawn h.checks
  show (checkManageRecv C s.verifier (checkManageSend C s.prover).2).map _ = _
  rw [hv, Option.map_some]

/-- A multiplication finds room in the batch. -/
theorem Inv.ready (hC : C.Valid) (h : Inv C s p) :
    ∃ s', FpSession.ready C s = some s' ∧ Inv C s' p ∧ s'.prover.checkCnt < C.checkSz := by
  have hcnt := h.cnt
  have hle := h.cnt_le
  rw [FpSession.ready]
  by_cases hfull : s.prover.checkCnt = C.checkSz
  · rw [if_pos ⟨hfull, hcnt ▸ hfull⟩, h.checkManage hC, Option.map_some]
    have hdrawn : s.prover.drawn + 1 = s.verifier.drawn + 1 := by rw [h.drawn]
    refine ⟨_, rfl, { h with
      drawn := ?_, checks := ?_, cnt := rfl, cnt_le := Nat.zero_le _,
      slots := Slots.fillVole hC hdrawn }, hC.checkSz_pos⟩
    · simp only [fillVole]
      rw [h.drawn]
    · simp only [fillVole]
      rw [h.checks]
  · rw [if_neg fun hboth => hfull hboth.1, if_neg (by omega)]
    exact ⟨s, rfl, h, by omega⟩

theorem Inv.mulSlot (hC : C.Valid) (h : Inv C s p) (hlt : s.prover.checkCnt < C.checkSz)
    {a b : Label} {x y : ℕ} (ha : a.Of C.delta x) (hb : b.Of C.delta y) :
    Inv C (FpSession.mulSlot C s a b).1 p ∧
      (FpSession.mulSlot C s a b).2.Of C.delta (x * y % PR) := by
  obtain ⟨hslots, hout⟩ := h.slots.mul hC ha hb
  rw [FpSession.mulSlot, ← h.cnt]
  exact ⟨{ h with
    cnt := congrArg (· + 1) h.cnt, cnt_le := hlt, slots := ⟨hslots.done, hslots.fresh⟩ }, hout⟩

theorem Inv.mulGate (hC : C.Valid) (h : Inv C s p) {a b : Label} {x y : ℕ}
    (ha : a.Of C.delta x) (hb : b.Of C.delta y) :
    ∃ s' c, FpSession.mulGate C s a b = some (s', c) ∧ Inv C s' p ∧
      c.Of C.delta (x * y % PR) := by
  obtain ⟨s', hready, h', hlt⟩ := h.ready hC
  obtain ⟨hs, hout⟩ := h'.mulSlot hC hlt ha hb
  exact ⟨_, _, by rw [FpSession.mulGate, hready, Option.map_some], hs, hout⟩

theorem Inv.mulBlock (hC : C.Valid) (h : Inv C s p) {ab : List (Label × Label)}
    {xy : List (ℕ × ℕ)}
    (hab : List.Forall₂ (fun l x => l.1.Of C.delta x.1 ∧ l.2.Of C.delta x.2) ab xy)
    (hle : s.prover.checkCnt + ab.length ≤ C.checkSz) :
    Inv C (FpSession.mulBlock C s ab).1 p ∧
      List.Forall₂ (Label.Of C.delta) (FpSession.mulBlock C s ab).2
        (xy.map fun x => x.1 * x.2 % PR) := by
  obtain ⟨hslots, hp, hv, hout⟩ := h.slots.mulBlock hC hab
  have hcnt := h.cnt
  rw [FpSession.mulBlock, ← hcnt]
  refine ⟨{ h with
    drawn := ?_, checks := ?_, cnt := ?_, cnt_le := ?_, slots := ?_, hashed_length := ?_,
    hashed := ?_ }, hout⟩
  · exact hp.drawn.trans (h.drawn.trans hv.drawn.symm)
  · exact hp.checks.trans (h.checks.trans hv.checks.symm)
  · exact congrArg (· + ab.length) (hp.checkCnt.trans (hcnt.trans hv.checkCnt.symm))
  · exact (congrArg (· + ab.length) hp.checkCnt).trans_le hle
  · have hc := congrArg (· + ab.length) hp.checkCnt
    exact ⟨fun i hi => hslots.done i (hi.trans_eq hc), fun i hi => hslots.fresh i (hc.ge.trans hi)⟩
  · exact (congrArg List.length hp.hashed).trans
      (h.hashed_length.trans (congrArg List.length hv.hashed.symm))
  · exact (by rw [hp.hashed, hv.hashed] : _ ↔ _).trans h.hashed

/-- One turn of the vectorized `mul_gate`. -/
theorem mulVec_of_ready {s s' : FpSession} {ab : List (Label × Label)} (hnil : ab ≠ [])
    (hready : FpSession.ready C s = some s') (h : Inv C s' p)
    (hroom : 0 < C.checkSz - s'.prover.checkCnt) :
    FpSession.mulVec C s ab =
      (FpSession.mulVec C
          (FpSession.mulBlock C s' (ab.take (min (C.checkSz - s'.prover.checkCnt) ab.length))).1
          (ab.drop (min (C.checkSz - s'.prover.checkCnt) ab.length))).map fun x =>
        (x.1, (FpSession.mulBlock C s'
          (ab.take (min (C.checkSz - s'.prover.checkCnt) ab.length))).2 ++ x.2) := by
  have hpos : 0 < ab.length := List.length_pos_of_ne_nil hnil
  have htake : min (C.checkSz - s'.prover.checkCnt) ab.length ≠ 0 := by omega
  have hboth : ¬ (min (C.checkSz - s'.prover.checkCnt) ab.length = 0 ∨
      min (C.checkSz - s'.prover.checkCnt) ab.length
        ≠ min (C.checkSz - s'.verifier.checkCnt) ab.length) := by simp [← h.cnt, htake]
  rw [FpSession.mulVec, dif_neg hnil, hready, Option.bind_some]
  exact dif_neg hboth

/-- **Products crossing any number of checks.** -/
theorem Inv.mulVec (hC : C.Valid) {s : FpSession} (h : Inv C s p) {ab : List (Label × Label)}
    {xy : List (ℕ × ℕ)}
    (hab : List.Forall₂ (fun l x => l.1.Of C.delta x.1 ∧ l.2.Of C.delta x.2) ab xy) :
    ∃ s' cs, FpSession.mulVec C s ab = some (s', cs) ∧ Inv C s' p ∧
      List.Forall₂ (Label.Of C.delta) cs (xy.map fun x => x.1 * x.2 % PR) := by
  have hnil : ∀ s, FpSession.mulVec C s [] = some (s, []) := fun s => by
    rw [FpSession.mulVec, dif_pos rfl]
  have hready : ∀ s, Inv C s p → ∃ s', FpSession.ready C s = some s' ∧ Inv C s' p ∧
      0 < C.checkSz - s'.prover.checkCnt := fun s hs => by
    obtain ⟨s', hs', h', hlt⟩ := hs.ready hC
    exact ⟨s', hs', h', Nat.sub_pos_of_lt hlt⟩
  refine Chunks.exists_loop hnil hready
    (fun _ _ _ hne hr h' hroom => mulVec_of_ready hne hr h' hroom)
    (fun s ab xy hs hab hle => ?_) h hab
  have hcnt := hs.cnt_le
  exact hs.mulBlock hC hab (by omega)

/-! ### Outputs -/

/-- What the two parties append to their hashes, and what the plain program records. -/
theorem Inv.hash (h : Inv C s p) {ms ks zs : List ℕ} (hlen : ms.length = ks.length)
    (heq : ms = ks ↔ ∀ z ∈ zs, z = 0 ∨ C.delta = 0) :
    Inv C { s with
        prover := { s.prover with hashed := s.prover.hashed ++ ms }
        verifier := { s.verifier with hashed := s.verifier.hashed ++ ks } }
      { p with zeros := p.zeros ++ zs } :=
  { h with
    slots := ⟨h.slots.done, h.slots.fresh⟩
    hashed_length := by
      show (s.prover.hashed ++ ms).length = (s.verifier.hashed ++ ks).length
      rw [List.length_append, List.length_append, h.hashed_length, hlen]
    hashed := by
      show s.prover.hashed ++ ms = s.verifier.hashed ++ ks ↔ ∀ z ∈ p.zeros ++ zs, z = 0 ∨ _
      rw [List.forall_mem_append, ← h.hashed, ← heq]
      refine ⟨fun happ => List.append_inj happ h.hashed_length, fun hboth => ?_⟩
      rw [hboth.1, hboth.2] }

/-- Revealed wires: the values are the plain ones, and both parties hash the same MACs. -/
theorem Inv.reveal (hC : C.Valid) (h : Inv C s p) {ls : List Label} {vs : List ℕ}
    (hls : List.Forall₂ (Label.Of C.delta) ls vs) :
    Inv C (FpSession.reveal C s ls).1 p ∧ (FpSession.reveal C s ls).2 = vs := by
  have hvals : (ls.map Label.prover).map AuthVal.val = vs := by
    induction hls with
    | nil => rfl
    | cons hl _ ih => rw [List.map_cons, List.map_cons, ih, hl.val_eq]
  have hmacs : (ls.map Label.prover).map AuthVal.mac
      = List.zipWith (fun v out => C.F.addMod (C.F.multMod v C.delta) out.mac)
          vs (ls.map Label.verifier) := by
    clear hvals
    induction hls with
    | nil => rfl
    | cons hl _ ih =>
      have hprod := hC.canonical.multMod_lt hl.val_lt hC.delta_lt
      have hk := hl.key_lt
      have hmac := hl.mac_eq
      rw [List.map_cons, List.map_cons, ih, List.map_cons, List.zipWith_cons_cons,
        hC.canonical.addMod_eq _ _ hprod.le hk.le (by omega),
        hC.canonical.multMod_eq _ _ hl.val_lt hC.delta_lt, Nat.mod_add_mod, Nat.add_comm, ← hmac]
  have hsent : (FpSession.reveal C s ls).2 = vs := hvals
  have hnone : _ ↔ ∀ z ∈ ([] : List ℕ), z = 0 ∨ C.delta = 0 :=
    ⟨fun _ z hz => (nomatch hz), fun _ => hmacs⟩
  have hhash := h.hash (congrArg List.length hmacs) hnone
  rw [List.append_nil] at hhash
  refine ⟨?_, hsent⟩
  simp only [FpSession.reveal, revealSend, revealRecv, hvals]
  exact hhash

/-- Wires given to `reveal_zero`. -/
theorem Inv.revealZero (hC : C.Valid) (h : Inv C s p) {ls : List Label} {vs : List ℕ}
    (hls : List.Forall₂ (Label.Of C.delta) ls vs) :
    Inv C { s with
        prover := revealCheckZero s.prover (ls.map Label.prover)
        verifier := revealCheckZero s.verifier (ls.map Label.verifier) }
      { p with zeros := p.zeros ++ vs } := by
  refine h.hash (by simp) ?_
  induction hls with
  | nil => exact ⟨fun _ z hz => (nomatch hz), fun _ => rfl⟩
  | cons hl _ ih =>
    rw [List.forall_mem_cons, ← ih, ← hl.mac_eq_key_iff hC.delta_lt]
    exact List.cons_eq_cons

/-! ### Whole programs -/

/-- A gate on two wires. -/
theorem Inv.gate₂ (h : Inv C s p) (i j : ℕ) {gate : Label → Label → Label} {f : ℕ → ℕ → ℕ}
    (hgate : ∀ {a b x y}, Label.Of C.delta a x → Label.Of C.delta b y →
      Label.Of C.delta (gate a b) (f x y)) :
    Option.Rel (Inv C)
      ((s.labels [i, j]).bind fun | [a, b] => some (s.push [gate a b]) | _ => none)
      ((p.values [i, j]).bind fun | [x, y] => some (p.push [f x y]) | _ => none) := by
  refine Runs.rel_bind (h.labels [i, j]) fun ls vs hls => ?_
  rcases hls with _ | ⟨ha, _ | ⟨hb, _ | _⟩⟩
  · exact Option.Rel.none
  · exact Option.Rel.none
  · exact Option.Rel.some (h.push (List.Forall₂.cons (hgate ha hb) List.Forall₂.nil))
  · exact Option.Rel.none

/-- A gate on one wire. -/
theorem Inv.gate₁ (h : Inv C s p) (i : ℕ) {gate : Label → Label} {f : ℕ → ℕ}
    (hgate : ∀ {a x}, Label.Of C.delta a x → Label.Of C.delta (gate a) (f x)) :
    Option.Rel (Inv C)
      ((s.labels [i]).bind fun | [a] => some (s.push [gate a]) | _ => none)
      ((p.values [i]).bind fun | [x] => some (p.push [f x]) | _ => none) := by
  refine Runs.rel_bind (h.labels [i]) fun ls vs hls => ?_
  rcases hls with _ | ⟨ha, _ | _⟩
  · exact Option.Rel.none
  · exact Option.Rel.some (h.push (List.Forall₂.cons (hgate ha) List.Forall₂.nil))
  · exact Option.Rel.none

/-- **One operation**: the two parties fail exactly when the plain program does, and keep the
invariant otherwise. -/
theorem step_rel (hC : C.Valid) (op : FpOp) (hop : op.Canonical) (h : Inv C s p) :
    Option.Rel (Inv C) (step C s op) (p.step op) := by
  cases op with
  | feed w =>
    obtain ⟨s', hs', h'⟩ := h.feed hC hop
    rw [hs']
    exact Option.Rel.some h'
  | pub a =>
    exact Option.Rel.some (h.push (List.Forall₂.cons (auth_pubLabel hC hop) List.Forall₂.nil))
  | add i j => exact h.gate₂ i j (auth_addGate hC)
  | sub i j => exact h.gate₂ i j (auth_subGate hC)
  | negate i => exact h.gate₁ i (auth_negGate hC)
  | mul i j =>
    refine Runs.rel_bind (h.labels [i, j]) fun ls vs hls => ?_
    rcases hls with _ | ⟨ha, _ | ⟨hb, _ | _⟩⟩
    · exact Option.Rel.none
    · exact Option.Rel.none
    · obtain ⟨s', c, hs', h', hc⟩ := h.mulGate hC ha hb
      show Option.Rel (Inv C) ((FpSession.mulGate C s _ _).map _) _
      rw [hs']
      exact Option.Rel.some (h'.push (List.Forall₂.cons hc List.Forall₂.nil))
    · exact Option.Rel.none
  | mulVec ij =>
    refine Runs.rel_bind (h.labels _) fun as xs has => ?_
    refine Runs.rel_bind (h.labels _) fun bs ys hbs => ?_
    obtain ⟨s', cs, hs', h', hcs⟩ := h.mulVec hC (Runs.zip_rel has hbs)
    rw [hs']
    exact Option.Rel.some (h'.push hcs)
  | addConst i c => exact h.gate₁ i fun ha => auth_addGate hC ha (auth_pubLabel hC hop)
  | subConst i c => exact h.gate₁ i fun ha => auth_subGate hC ha (auth_pubLabel hC hop)
  | mulConst i c => exact h.gate₁ i fun ha => auth_mulConstGate hC ha hop
  | sum is =>
    exact Runs.rel_map (h.labels is) fun ls vs hls =>
      h.push (List.Forall₂.cons (auth_sum hC hls) List.Forall₂.nil)
  | reveal is =>
    refine Runs.rel_map (h.labels is) fun ls vs hls => ?_
    obtain ⟨h', hout⟩ := h.reveal hC hls
    refine { h' with
      slots := ⟨h'.slots.done, h'.slots.fresh⟩, outPrv := ?_, outVer := ?_ }
    · show _ ++ [(FpSession.reveal C s ls).2] = p.outs ++ [vs]
      rw [hout]
      exact congrArg (· ++ [vs]) h'.outPrv
    · show _ ++ [(FpSession.reveal C s ls).2] = p.outs ++ [vs]
      rw [hout]
      exact congrArg (· ++ [vs]) h'.outVer
  | revealCheck is expected =>
    refine Runs.rel_bind (h.labels is) fun ls vs hls => ?_
    obtain ⟨h', hout⟩ := h.reveal hC hls
    show Option.Rel (Inv C) (if expected = (FpSession.reveal C s ls).2 then _ else none) _
    rw [hout]
    by_cases hexp : expected = vs
    · rw [if_pos hexp, if_pos hexp]
      exact Option.Rel.some h'
    · rw [if_neg hexp, if_neg hexp]
      exact Option.Rel.none
  | revealZero is =>
    exact Runs.rel_map (h.labels is) fun ls vs hls => h.revealZero hC hls

/-- The destructor passes, and hashes nothing. -/
theorem Inv.finish (hC : C.Valid) (h : Inv C s p) :
    ∃ s', FpSession.finish C s = some s' ∧ s'.prover.hashed = s.prover.hashed ∧
      s'.verifier.hashed = s.verifier.hashed := by
  have hcnt := h.cnt
  rw [FpSession.finish]
  by_cases hzero : s.prover.checkCnt ≠ 0
  · rw [if_pos ⟨hzero, hcnt ▸ hzero⟩, h.checkManage hC]
    exact ⟨_, rfl, rfl, rfl⟩
  · rw [if_neg fun hboth => hzero hboth.1, if_neg (by omega)]
    exact ⟨s, rfl, rfl, rfl⟩

theorem Inv.flush (h : Inv C s p) :
    s.prover.hashed = s.verifier.hashed ↔ (∀ z ∈ p.zeros, z = 0) ∨ C.delta = 0 := by
  rw [h.hashed]
  by_cases hΔ : C.delta = 0
  · simp [hΔ]
  · simp [hΔ]

/-- **A whole program**, run by both parties.  They raise an error exactly when the plain program
fails: when a wire does not exist, or `reveal_check` is given another value than the wire's.
Otherwise every batch check accepts, the last one included, every wire is a label of its value,
and every reveal returns the values of its wires.  The parties have then hashed the same words,
and the digests agree, exactly if the wires given to `reveal_zero` are 0 or the key is. -/
theorem run_complete (hC : C.Valid) {ops : List FpOp} (hops : ∀ op ∈ ops, op.Canonical) :
    match Runs.run FpPlain.step FpPlain.init ops with
    | none => Runs.run (step C) (FpSession.init C) ops = none
    | some p => ∃ s s', Runs.run (step C) (FpSession.init C) ops = some s ∧
        FpSession.finish C s = some s' ∧ List.Forall₂ (Label.Of C.delta) s.wires p.vals ∧
        s.outPrv = p.outs ∧ s.outVer = p.outs ∧
        (s'.prover.hashed = s'.verifier.hashed ↔ (∀ z ∈ p.zeros, z = 0) ∨ C.delta = 0) ∧
        ((∀ z ∈ p.zeros, z = 0) → ∀ (D : Type) [DecidableEq D] (digest : List ℕ → D),
          flushAccepts digest s' = true) := by
  have hrun : Option.Rel (Inv C) (Runs.run (step C) (FpSession.init C) ops)
      (Runs.run FpPlain.step FpPlain.init ops) :=
    Runs.run_rel (fun s p op hop h => step_rel hC op hop h) hops (Inv.init hC)
  generalize Runs.run FpPlain.step FpPlain.init ops = out at hrun ⊢
  generalize Runs.run (step C) (FpSession.init C) ops = res at hrun ⊢
  cases hrun with
  | none => rfl
  | @some s p h =>
    obtain ⟨s', hfinish, hp, hv⟩ := h.finish hC
    have hflush : s'.prover.hashed = s'.verifier.hashed
        ↔ (∀ z ∈ p.zeros, z = 0) ∨ C.delta = 0 := by rw [hp, hv, h.flush]
    refine ⟨s, s', rfl, hfinish, h.wires, h.outPrv, h.outVer, hflush, fun hz D _ digest => ?_⟩
    rw [flushAccepts, beq_iff_eq, hflush.mpr (Or.inl hz)]

/-- Two parties with the key 5, batches of 2 products and 2 workers. -/
def small : FpConfig where
  F := FpOps.residues
  delta := 5
  pubMac := 7
  volePrv _ := ⟨3, 19⟩
  voleVer _ := ⟨0, 4⟩
  checkSz := 2
  threads := 2
  shareSeed i j := i + j
  prg key j := (key.1 + key.2 + j) % 2 ^ 64

theorem small_valid : small.Valid where
  canonical := FpOps.residues_canonical
  delta_lt := by decide
  pubMac_lt := by decide
  vole _ := by
    have : Auth 5 ⟨3, 19⟩ ⟨0, 4⟩ 3 := ⟨rfl, by decide, rfl, by decide, by decide, by decide⟩
    exact ⟨3, this⟩
  checkSz_pos := by decide
  prg_lt key j := Nat.mod_lt _ (by decide)

/-- Three products, in two batches. -/
theorem run_complete_products :
    ∃ s s', Runs.run (step small) (FpSession.init small)
        [.feed [3, 4], .mul 0 1, .mulVec [(2, 2), (2, 0)], .reveal [2, 3, 4]] = some s ∧
      FpSession.finish small s = some s' ∧ s.outVer = [[12, 144, 36]] ∧
      s'.prover.hashed = s'.verifier.hashed := by
  have hops : ∀ op ∈ ([.feed [3, 4], .mul 0 1, .mulVec [(2, 2), (2, 0)], .reveal [2, 3, 4]] :
      List FpOp), op.Canonical := by
    simp [FpOp.Canonical, PR]
  obtain ⟨s, s', hrun, hfinish, -, -, hout, hhashed, -⟩ := run_complete small_valid hops
  exact ⟨s, s', hrun, hfinish, hout, hhashed.mpr (Or.inl fun z hz => (nomatch hz))⟩

/-- `reveal_zero` of the public constant 1: both parties go on, and the verifier rejects the
digest. -/
theorem revealZero_one : ∃ s, Runs.run (step small) (FpSession.init small)
      [.pub 1, .revealZero [0]] = some s ∧ FpSession.finish small s = some s ∧
    s.prover.hashed ≠ s.verifier.hashed ∧ flushAccepts id s = false :=
  ⟨_, rfl, rfl, by decide, by decide⟩

end FpSession

end VoleZk
