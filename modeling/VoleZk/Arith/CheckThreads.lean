import VoleZk.Arith.FpComplete

/-!
# The batch check with different numbers of workers

Each worker of the batch check folds its slice of the products with coefficients from a seed of its
own.  The slices depend on the number of workers, so that two parties with different numbers give a
product different coefficients, and the sums of the two sides do not belong together.

## What is here

* `FpOSTriple.coeff`, the coefficient a product is given, and `sum_slices` — **the slices make up
  the whole batch**;
* `FpOSTriple.accept_iff` — what the comparison of the verifier says about right products;
* `FpOSTriple.accept_all_iff` — **right products are accepted exactly when both parties give every
  product the same coefficient.**
-/

set_option autoImplicit false

open Finset

namespace VoleZk

namespace FpOSTriple

variable {C : FpConfig} {p v : FpOSTriple} {n : ℕ}

/-! ## Coefficients -/

/-- The party with `threads` workers. -/
def withThreads (C : FpConfig) (threads : ℕ) : FpConfig := { C with threads }

/-- The coefficient of product `i` of `n`, in check number `check`. -/
def coeff (C : FpConfig) (check n i : ℕ) : ℕ :=
  if C.threads ≤ 1 then chi C check 0 i
  else
    let taskBase := n / C.threads
    if i < (C.threads - 1) * taskBase then chi C check (i / taskBase) (i % taskBase)
    else chi C check (C.threads - 1) (i - (C.threads - 1) * taskBase)

/-- The equal slices of the first `w` workers. -/
theorem sum_equal_slices {K : Type*} [Semiring K] (f : ℕ → K) (c : ℕ → ℕ → K) {base : ℕ} (w : ℕ) :
    (((List.range w).map fun t => (t, t * base, base)).map fun (t, start, taskN) =>
        ∑ k ∈ range taskN, f (start + k) * c t k).sum
      = ∑ i ∈ range (w * base), f i * c (i / base) (i % base) := by
  induction w with
  | zero => rw [Nat.zero_mul, sum_range_zero]; rfl
  | succ w ih =>
    rw [List.range_succ, List.map_append, List.map_append, List.sum_append, ih, Nat.succ_mul,
      sum_range_add]
    simp only [List.map_cons, List.map_nil, List.sum_cons, List.sum_nil, add_zero]
    congr 1
    refine sum_congr rfl fun k hk => ?_
    have hk' := mem_range.mp hk
    rw [mul_comm w base, Nat.mul_add_div (by omega), Nat.mul_add_mod, Nat.div_eq_of_lt hk',
      Nat.mod_eq_of_lt hk', Nat.add_zero]

/-- **The slices make up the whole batch.** -/
theorem sum_slices {K : Type*} [Semiring K] (f : ℕ → K) (check : ℕ) :
    ((slices C n).map fun (t, start, taskN) =>
        ∑ k ∈ range taskN, f (start + k) * (chi C check t k : K)).sum
      = ∑ i ∈ range n, f i * (coeff C check n i : K) := by
  rw [slices]
  split
  · rename_i hone
    simp only [coeff, if_pos hone, List.map_cons, List.map_nil, List.sum_cons, List.sum_nil,
      add_zero, Nat.zero_add]
  · rename_i hmany
    have hle : (C.threads - 1) * (n / C.threads) ≤ n :=
      (Nat.mul_le_mul_right _ (Nat.sub_le _ _)).trans (Nat.mul_div_le n C.threads)
    rw [List.map_append, List.sum_append, sum_equal_slices f fun t k => (chi C check t k : K)]
    simp only [List.map_cons, List.map_nil, List.sum_cons, List.sum_nil, add_zero]
    have hsplit := sum_range_add (fun i => f i * (coeff C check n i : K))
      ((C.threads - 1) * (n / C.threads)) (n - (C.threads - 1) * (n / C.threads))
    rw [Nat.add_sub_of_le hle] at hsplit
    rw [hsplit]
    congr 1
    · refine sum_congr rfl fun i hi => ?_
      rw [coeff, if_neg hmany, if_pos (mem_range.mp hi)]
    · refine sum_congr rfl fun k _ => ?_
      rw [coeff, if_neg hmany, if_neg (by omega), Nat.add_sub_cancel_left]

/-! ## The sums of the verifier -/

/-- What the verifier folds for slot `i`. -/
def term (delta : ℕ) (v : FpOSTriple) (i : ℕ) : ZMod PR :=
  (v.leftBuf i).mac * (v.rightBuf i).mac + (v.outBuf i).mac * delta

/-- The slots below `n` hold residues. -/
structure Reduced (e : FpOSTriple) (n : ℕ) : Prop where
  /-- The first factors. -/
  left : ∀ i < n, (e.leftBuf i).val < PR ∧ (e.leftBuf i).mac < PR
  /-- The second factors. -/
  right : ∀ i < n, (e.rightBuf i).val < PR ∧ (e.rightBuf i).mac < PR
  /-- The MACs or keys of the outputs. -/
  out : ∀ i < n, (e.outBuf i).mac < PR

theorem Slots.reduced {delta : ℕ} (h : Slots delta p v n) : v.Reduced n where
  left i hi := by
    obtain ⟨_, _, ha, -, -⟩ := h.done i hi
    exact ⟨ha.key_val ▸ PR_pos, ha.key_lt⟩
  right i hi := by
    obtain ⟨_, _, -, hb, -⟩ := h.done i hi
    exact ⟨hb.key_val ▸ PR_pos, hb.key_lt⟩
  out i hi := by
    obtain ⟨_, _, -, -, hc⟩ := h.done i hi
    exact hc.key_lt

/-- One worker. -/
theorem checkRecv_cast (hC : C.Valid) (h : v.Reduced n) {chi : ℕ → ℕ}
    (hchi : ∀ k, chi k < PR) (start : ℕ) {taskN : ℕ} (hle : start + taskN ≤ n) :
    checkRecv C.F C.delta v chi start taskN < PR ∧
      (checkRecv C.F C.delta v chi start taskN : ZMod PR)
        = ∑ k ∈ range taskN, term C.delta v (start + k) * chi k := by
  have hF := hC.canonical
  induction taskN with
  | zero => exact ⟨PR_pos, Nat.cast_zero⟩
  | succ m ih =>
    obtain ⟨hW, hcast⟩ := ih (by omega)
    have ha := (h.left (start + m) (by omega)).2
    have hb := (h.right (start + m) (by omega)).2
    have hc := h.out (start + m) (by omega)
    have hprod := hF.multMod_lt ha hb
    have hout := hF.multMod_lt hc hC.delta_lt
    have hB := hF.addMod_lt hprod.le hout.le (by omega)
    have hx := hF.multMod_lt hB (hchi m)
    rw [sum_range_succ, ← hcast, checkRecv, List.range_succ, List.foldl_append]
    show C.F.addMod (checkRecv C.F C.delta v chi start m) _ < PR ∧
      (C.F.addMod (checkRecv C.F C.delta v chi start m) _ : ZMod PR) = _
    refine ⟨hF.addMod_lt hW.le hx.le (by omega), ?_⟩
    rw [hF.addMod_cast hW.le hx.le (by omega), hF.multMod_cast hB (hchi m),
      hF.addMod_cast hprod.le hout.le (by omega), hF.multMod_cast ha hb,
      hF.multMod_cast hc hC.delta_lt, term]

/-- The sums of the workers, added up. -/
theorem foldl_addMod_cast (hC : C.Valid) {ws : List ℕ} (hws : ∀ w ∈ ws, w < PR) {W : ℕ}
    (hW : W < PR) : ws.foldl (fun W w => C.F.addMod W w) W < PR ∧
      ((ws.foldl (fun W w => C.F.addMod W w) W : ℕ) : ZMod PR)
        = W + (ws.map fun w : ℕ => (w : ZMod PR)).sum := by
  have hF := hC.canonical
  induction ws generalizing W with
  | nil => simpa using hW
  | cons w ws ih =>
    rw [List.forall_mem_cons] at hws
    have hw := hws.1
    obtain ⟨hlt, hcast⟩ := ih hws.2 (hF.addMod_lt hW.le hw.le (by omega))
    refine ⟨hlt, ?_⟩
    rw [List.foldl_cons, hcast, hF.addMod_cast hW.le hw.le (by omega), List.map_cons,
      List.sum_cons, add_assoc]

/-- **All workers of the verifier.** -/
theorem recv_slices_cast (hC : C.Valid) (h : v.Reduced n) (check : ℕ) :
    let W := ((slices C n).map fun (t, start, taskN) =>
      checkRecv C.F C.delta v (chi C check t) start taskN).foldl (fun W w => C.F.addMod W w) 0
    W < PR ∧ (W : ZMod PR) = ∑ i ∈ range n, term C.delta v i * coeff C check n i := by
  have hws : ∀ w ∈ (slices C n).map fun (t, start, taskN) =>
      checkRecv C.F C.delta v (chi C check t) start taskN, w < PR := by
    intro w hw
    obtain ⟨t, ht, rfl⟩ := List.mem_map.mp hw
    exact (checkRecv_cast hC h (chi_lt hC check t.1) t.2.1 (slices_le ht)).1
  obtain ⟨hlt, hcast⟩ := foldl_addMod_cast hC hws PR_pos
  refine ⟨hlt, hcast.trans ?_⟩
  rw [← sum_slices, List.map_map, Nat.cast_zero, zero_add]
  exact congrArg List.sum (List.map_congr_left fun t ht =>
    (checkRecv_cast hC h (chi_lt hC check t.1) t.2.1 (slices_le ht)).2)

/-! ## Two parties with workers of their own -/

theorem valid_withThreads (hC : C.Valid) (threads : ℕ) : (withThreads C threads).Valid :=
  ⟨hC.canonical, hC.delta_lt, hC.pubMac_lt, hC.vole, hC.checkSz_pos, hC.prg_lt⟩

theorem coeff_lt (hC : C.Valid) (check i : ℕ) : coeff C check n i < PR := by
  rw [coeff]
  split
  · exact chi_lt hC _ _ _
  · dsimp only
    split
    · exact chi_lt hC _ _ _
    · exact chi_lt hC _ _ _

/-- **The comparison of the verifier**, on right products: the prover has `tA` workers, the verifier
`tB`. -/
theorem accept_iff (hC : C.Valid) {tA tB : ℕ} (h : Slots C.delta p v p.checkCnt)
    (hcnt : p.checkCnt = v.checkCnt) (hdrawn : p.drawn = v.drawn) (hchecks : p.checks = v.checks) :
    (checkManageRecv (withThreads C tB) v (checkManageSend (withThreads C tA) p).2).isSome = true ↔
      ∑ i ∈ range p.checkCnt, term C.delta v i * coeff (withThreads C tA) p.checks p.checkCnt i
        = ∑ i ∈ range p.checkCnt,
            term C.delta v i * coeff (withThreads C tB) p.checks p.checkCnt i := by
  have hF := hC.canonical
  have hA := valid_withThreads hC tA
  have hB := valid_withThreads hC tB
  obtain ⟨u, hope⟩ := hC.vole p.drawn
  obtain ⟨UV, hUV⟩ : ∃ UV, UV = ((slices (withThreads C tA) p.checkCnt).map
      fun (t, start, taskN) =>
        checkSend C.F p (chi (withThreads C tA) p.checks t) start taskN).foldl
        (fun UV uv => (C.F.addMod UV.1 uv.1, C.F.addMod UV.2 uv.2)) (0, 0) := ⟨_, rfl⟩
  obtain ⟨WA, hWA⟩ : ∃ WA, WA = ((slices (withThreads C tA) p.checkCnt).map
      fun (t, start, taskN) =>
        checkRecv C.F C.delta v (chi (withThreads C tA) p.checks t) start taskN).foldl
          (fun W w => C.F.addMod W w) 0 := ⟨_, rfl⟩
  obtain ⟨WB, hWB⟩ : ∃ WB, WB = ((slices (withThreads C tB) p.checkCnt).map
      fun (t, start, taskN) =>
        checkRecv C.F C.delta v (chi (withThreads C tB) p.checks t) start taskN).foldl
          (fun W w => C.F.addMod W w) 0 := ⟨_, rfl⟩
  -- the sums of the prover are balanced by those that the verifier would have with `tA` workers
  have hsumA : Balance C.delta UV WA := by
    rw [hUV, hWA]
    exact balance_slices hA h p.checks (fun t ht => slices_le ht) (Balance.zero C.delta)
  have hcastA : (WA : ZMod PR) = ∑ i ∈ range p.checkCnt,
      term C.delta v i * coeff (withThreads C tA) p.checks p.checkCnt i :=
    hWA ▸ (recv_slices_cast hA h.reduced p.checks).2
  obtain ⟨hltB, hcastB⟩ : WB < PR ∧ (WB : ZMod PR) = ∑ i ∈ range p.checkCnt,
      term C.delta v i * coeff (withThreads C tB) p.checks p.checkCnt i :=
    hWB ▸ recv_slices_cast hB h.reduced p.checks
  have hmask : Balance C.delta ((C.volePrv p.drawn).mac, (C.volePrv p.drawn).val)
      (C.voleVer p.drawn).mac :=
    ⟨hope.mac_lt, hope.val_eq ▸ hope.val_lt, hope.key_lt, by rw [hope.mac_cast, hope.val_eq]⟩
  have htotal := hsumA.add hC hmask
  have hkey := hope.key_lt
  have hWlt := hF.addMod_lt hltB.le hkey.le (by omega)
  have hprod : C.F.multMod (C.F.addMod UV.2 (C.volePrv p.drawn).val) C.delta < PR :=
    hF.multMod_lt htotal.V_lt hC.delta_lt
  have hWA_lt := hsumA.W_lt
  have hcompare : (checkManageRecv (withThreads C tB) v
      (checkManageSend (withThreads C tA) p).2).isSome = true ↔
        C.F.addMod UV.1 (C.volePrv p.drawn).mac
          = C.F.addMod (C.F.multMod (C.F.addMod UV.2 (C.volePrv p.drawn).val) C.delta)
              (C.F.addMod WB (C.voleVer p.drawn).mac) := by
    rw [checkManageRecv, ← hcnt, ← hdrawn, ← hchecks, hUV, hWB]
    exact Option.isSome_ite
  rw [hcompare, ← hcastA, ← hcastB]
  have hbalance := htotal.eq
  rw [hF.addMod_cast hWA_lt.le hkey.le (by omega)] at hbalance
  constructor
  · intro heq
    have hcast := congrArg (Nat.cast : ℕ → ZMod PR) heq
    rw [hF.addMod_cast hprod.le hWlt.le (by omega), hF.addMod_cast hltB.le hkey.le (by omega),
      hF.multMod_cast htotal.V_lt hC.delta_lt] at hcast
    linear_combination hcast - hbalance
  · intro heq
    refine eq_of_cast_eq htotal.U_lt (hF.addMod_lt hprod.le hWlt.le (by omega)) ?_
    rw [hF.addMod_cast hprod.le hWlt.le (by omega), hF.addMod_cast hltB.le hkey.le (by omega),
      hF.multMod_cast htotal.V_lt hC.delta_lt]
    linear_combination hbalance + heq

/-- An engine whose buffers hold zeros, but for MACs of 1 in slot `i` of both factors.  The values
are 0, so that both parties can hold it. -/
def oneFactor (cnt drawn check i : ℕ) : FpOSTriple where
  drawn := drawn
  checks := check
  checkCnt := cnt
  outBuf _ := ⟨0, 0⟩
  leftBuf := Function.update (fun _ => ⟨0, 0⟩) i ⟨0, 1⟩
  rightBuf := Function.update (fun _ => ⟨0, 0⟩) i ⟨0, 1⟩
  hashed := []

/-- A label of value 0: the MAC is the key. -/
theorem auth_of_zero (delta : ℕ) {k : ℕ} (hk : k < PR) : Auth delta ⟨0, k⟩ ⟨0, k⟩ 0 :=
  ⟨rfl, PR_pos, rfl, hk, hk, by rw [Nat.zero_mul, Nat.add_zero, Nat.mod_eq_of_lt hk]⟩

theorem slots_oneFactor (delta cnt drawn check i : ℕ) :
    Slots delta (oneFactor cnt drawn check i) (oneFactor cnt drawn check i) cnt where
  done j _ := by
    have hfactor : Auth delta (Function.update (fun _ => (⟨0, 0⟩ : AuthVal)) i ⟨0, 1⟩ j)
        (Function.update (fun _ => (⟨0, 0⟩ : AuthVal)) i ⟨0, 1⟩ j) 0 := by
      rcases eq_or_ne j i with rfl | hne
      · rw [Function.update_self]
        exact auth_of_zero delta PR_prime.one_lt
      · rw [Function.update_of_ne hne]
        exact auth_of_zero delta PR_pos
    exact ⟨0, 0, hfactor, hfactor, auth_of_zero delta PR_pos⟩
  fresh _ _ := ⟨0, auth_of_zero delta PR_pos⟩

theorem term_oneFactor (delta cnt drawn check i j : ℕ) :
    term delta (oneFactor cnt drawn check i) j = if j = i then 1 else 0 := by
  rw [term]
  split
  · rename_i hji
    simp only [oneFactor, hji, Function.update_self]
    norm_num
  · rename_i hji
    simp only [oneFactor, Function.update_of_ne hji]
    norm_num

/-- **Right products are accepted exactly when both parties give every product the same
coefficient.**  The prover has `tA` workers, the verifier `tB`. -/
theorem accept_all_iff (hC : C.Valid) (tA tB cnt drawn check : ℕ) :
    (∀ p v : FpOSTriple, p.checkCnt = cnt → v.checkCnt = cnt → p.drawn = drawn → v.drawn = drawn →
      p.checks = check → v.checks = check → Slots C.delta p v cnt →
      (checkManageRecv (withThreads C tB) v
        (checkManageSend (withThreads C tA) p).2).isSome = true) ↔
    ∀ i < cnt, coeff (withThreads C tA) check cnt i = coeff (withThreads C tB) check cnt i := by
  constructor
  · intro haccept i hi
    have hslots := slots_oneFactor C.delta cnt drawn check i
    have hone : ∑ j ∈ range cnt, term C.delta (oneFactor cnt drawn check i) j
          * (coeff (withThreads C tA) check cnt j : ZMod PR)
        = ∑ j ∈ range cnt, term C.delta (oneFactor cnt drawn check i) j
          * (coeff (withThreads C tB) check cnt j : ZMod PR) :=
      (accept_iff hC hslots rfl rfl rfl).mp (haccept _ _ rfl rfl rfl rfl rfl rfl hslots)
    simp only [term_oneFactor, ite_mul, one_mul, zero_mul] at hone
    rw [sum_ite_eq_of_mem' _ _ _ (mem_range.mpr hi),
      sum_ite_eq_of_mem' _ _ _ (mem_range.mpr hi)] at hone
    exact eq_of_cast_eq (coeff_lt (valid_withThreads hC tA) _ _)
      (coeff_lt (valid_withThreads hC tB) _ _) hone
  · rintro hcoeff p v rfl hcnt rfl hdrawn rfl hchecks hslots
    refine (accept_iff hC hslots hcnt.symm hdrawn.symm hchecks.symm).mpr (sum_congr rfl ?_)
    intro i hi
    rw [hcoeff i (mem_range.mp hi)]

/-- Two parties with three workers each accept five right products. -/
theorem accept_all_five : (checkManageRecv (withThreads FpSession.small 3) (oneFactor 5 0 0 2)
    (checkManageSend (withThreads FpSession.small 3) (oneFactor 5 0 0 2)).2).isSome = true :=
  (accept_all_iff FpSession.small_valid 3 3 5 0 0).mpr (fun _ _ => rfl) _ _ rfl rfl rfl rfl rfl rfl
    (slots_oneFactor _ _ _ _ _)

/-- The seeds that the zero block is expanded to, and the first word of each. -/
def zeroSeed : FpConfig :=
  { FpSession.small with
    shareSeed := fun _ t =>
      if t = 0 then 4263935709876578662 else if t = 1 then 17325099178452873543 else 0
    prg := fun key j =>
      if key = (9591527384977347954, 0) ∧ j = 0 then 12125774350616326159
      else if key = (10257058447863450971, 0) ∧ j = 0 then 14182437434973242432
      else 0 }

/-- One right product, a prover with one worker and a verifier with two: the verifier rejects. -/
theorem one_product_rejected : zeroSeed.Valid ∧
    Slots zeroSeed.delta (oneFactor 1 0 0 0) (oneFactor 1 0 0 0) 1 ∧
    checkManageRecv (withThreads zeroSeed 2) (oneFactor 1 0 0 0)
      (checkManageSend (withThreads zeroSeed 1) (oneFactor 1 0 0 0)).2 = none := by
  refine ⟨⟨FpOps.residues_canonical, by decide, by decide, FpSession.small_valid.vole, by decide,
    fun key j => ?_⟩, slots_oneFactor _ _ _ _ _, by decide⟩
  simp only [zeroSeed]
  split
  · decide
  · split <;> decide

end FpOSTriple

end VoleZk
