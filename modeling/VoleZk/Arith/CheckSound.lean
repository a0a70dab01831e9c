import VoleZk.Arith.CheckThreads
import VoleZk.Lib.KeyCheck

/-!
# What the check of a batch of products catches

The prover may correct the output of a product to any residue.  The verifier's keys are determined
by the prover's labels, the values behind them and `Δ`: `FpConfig.withKey` and `FpOSTriple.keyAt`
are the two parties' state as a function of the key.

Here keys are MACs less multiples of `Δ`, both parties write `PR - x` for `-x`, and the words a
prover sends need not be residues.  A residue of the check is one of `ZMod PR`, and the comparison
one of degree 2 there.

## What is here

* `keyOf`, `FpConfig.withKey`, `FpOSTriple.keyAt` — keys as a function of `Δ`;
* `FpOSTriple.checkSend_cast`, `FpOSTriple.send_slices_cast` — the sums of the prover;
* `FpOSTriple.mul_check_sound` — **what an honest prover and any other prover can get through**.
-/

set_option autoImplicit false

open Finset KeyCheck

namespace VoleZk

/-! ## Keys -/

/-- The key of a value with a MAC. -/
def keyOf (delta v mac : ℕ) : ℕ := (mac + (PR - v * delta % PR)) % PR

theorem keyOf_lt (delta v mac : ℕ) : keyOf delta v mac < PR := Nat.mod_lt _ PR_pos

theorem keyOf_cast (delta v mac : ℕ) :
    (keyOf delta v mac : ZMod PR) = Share.key (delta : ZMod PR) ⟨v, mac⟩ := by
  have hle : v * delta % PR ≤ PR := (Nat.mod_lt _ PR_pos).le
  rw [keyOf, ZMod.natCast_mod, Nat.cast_add, Nat.cast_sub hle, ZMod.natCast_mod, Nat.cast_mul,
    ZMod.natCast_self, Share.key]
  ring

/-- Value, MAC and key make up a label. -/
theorem auth_keyOf {v mac : ℕ} (delta : ℕ) (hv : v < PR) (hmac : mac < PR) :
    Auth delta ⟨v, mac⟩ ⟨0, keyOf delta v mac⟩ v := by
  refine .of_cast rfl hv rfl hmac (keyOf_lt _ _ _) ?_
  rw [keyOf_cast, Share.key]
  ring

/-- There is no other key. -/
theorem Auth.key_eq {delta v : ℕ} {M K : AuthVal} (h : Auth delta M K v) :
    K = ⟨0, keyOf delta v M.mac⟩ := by
  have hmac : K.mac = keyOf delta v M.mac := by
    refine eq_of_cast_eq h.key_lt (keyOf_lt _ _ _) ?_
    rw [keyOf_cast, Share.key, h.mac_cast]
    ring
  rw [← hmac, ← h.key_val]

/-- The parties' set-up under the key `delta`: the prover's correlations stay as they are. -/
def FpConfig.withKey (C : FpConfig) (delta : ℕ) : FpConfig :=
  { C with
    delta := delta
    voleVer := fun i => ⟨0, keyOf delta (C.volePrv i).val (C.volePrv i).mac⟩ }

theorem FpConfig.Valid.volePrv_lt {C : FpConfig} (hC : C.Valid) (i : ℕ) :
    (C.volePrv i).val < PR ∧ (C.volePrv i).mac < PR := by
  obtain ⟨u, hu⟩ := hC.vole i
  exact ⟨hu.val_eq ▸ hu.val_lt, hu.mac_lt⟩

theorem FpConfig.Valid.withKey {C : FpConfig} (hC : C.Valid) {delta : ℕ} (hdelta : delta < PR) :
    (C.withKey delta).Valid where
  canonical := hC.canonical
  delta_lt := hdelta
  pubMac_lt := hC.pubMac_lt
  vole i := ⟨_, auth_keyOf delta (hC.volePrv_lt i).1 (hC.volePrv_lt i).2⟩
  checkSz_pos := hC.checkSz_pos
  prg_lt := hC.prg_lt

namespace FpOSTriple

variable {C : FpConfig} {p : FpOSTriple} {n : ℕ} {c : ℕ → ℕ}

/-- The verifier's engine under the key `delta`, for the prover's engine `p`: the factors carry the
prover's values, and the output of product `i` carries `c i`. -/
def keyAt (delta : ℕ) (c : ℕ → ℕ) (p : FpOSTriple) : FpOSTriple :=
  { p with
    leftBuf := fun i => ⟨0, keyOf delta (p.leftBuf i).val (p.leftBuf i).mac⟩
    rightBuf := fun i => ⟨0, keyOf delta (p.rightBuf i).val (p.rightBuf i).mac⟩
    outBuf := fun i => ⟨0, keyOf delta (c i) (p.outBuf i).mac⟩ }

theorem reduced_keyAt (delta : ℕ) (c : ℕ → ℕ) (p : FpOSTriple) (n : ℕ) :
    (p.keyAt delta c).Reduced n where
  left _ _ := ⟨PR_pos, keyOf_lt _ _ _⟩
  right _ _ := ⟨PR_pos, keyOf_lt _ _ _⟩
  out _ _ := keyOf_lt _ _ _

/-- A product of a prover that corrects the output to `w`. -/
def mulSendAny (F : FpOps) (e : FpOSTriple) (i : ℕ) (Ma Mb : AuthVal) (w : ℕ) :
    FpOSTriple × AuthVal × ℕ :=
  let mac := e.outBuf i
  let s := F.addMod mac.val (PR - w)
  let omac : AuthVal := ⟨w, mac.mac⟩
  ({ e with
      leftBuf := Function.update e.leftBuf i Ma
      rightBuf := Function.update e.rightBuf i Mb
      outBuf := Function.update e.outBuf i omac }, omac, s)

/-- The honest prover corrects to the product. -/
theorem mulSend_eq (F : FpOps) (e : FpOSTriple) (i : ℕ) (Ma Mb : AuthVal) :
    mulSend F e i Ma Mb = mulSendAny F e i Ma Mb (F.multMod Ma.val Mb.val) := rfl

/-- **The verifier follows any correction**: its engine stays the one under the key.  Slot `i` holds
an unused correlation, of the prover's value. -/
theorem mulRecv_keyAt (hC : C.Valid) {delta : ℕ} (hdelta : delta < PR) {i : ℕ}
    (hci : c i = (p.outBuf i).val) (hval : (p.outBuf i).val < PR) (hmac : (p.outBuf i).mac < PR)
    (Ma Mb : AuthVal) {w : ℕ} (hw : w < PR) :
    mulRecv C.F delta (p.keyAt delta c) i ⟨0, keyOf delta Ma.val Ma.mac⟩
        ⟨0, keyOf delta Mb.val Mb.mac⟩ (mulSendAny C.F p i Ma Mb w).2.2
      = ((mulSendAny C.F p i Ma Mb w).1.keyAt delta (Function.update c i w),
        ⟨0, keyOf delta w (p.outBuf i).mac⟩) := by
  have hcorrect := (auth_correct (hC.withKey hdelta) (auth_keyOf delta hval hmac) hw).key_eq
  have hkey : (⟨0, C.F.addMod (keyOf delta (c i) (p.outBuf i).mac)
      (C.F.multMod (C.F.addMod (p.outBuf i).val (PR - w)) delta)⟩ : AuthVal)
        = ⟨0, keyOf delta w (p.outBuf i).mac⟩ := by
    rw [hci]
    exact hcorrect
  refine Prod.ext ?_ hkey
  have hslot : ∀ {f g : ℕ → AuthVal} {x : AuthVal}, x = g i → (∀ j ≠ i, f j = g j) →
      Function.update f i x = g := fun hx hne => Function.update_eq_iff.mpr ⟨hx, hne⟩
  show FpOSTriple.mk _ _ _ _ _ _ _ = FpOSTriple.mk _ _ _ _ _ _ _
  congr 1
  · refine hslot ?_ fun j hj => ?_
    · refine hkey.trans ?_
      simp only [mulSendAny, Function.update_self]
    · simp only [mulSendAny, keyAt, Function.update_of_ne hj]
  · refine hslot ?_ fun j hj => ?_
    · simp only [mulSendAny, Function.update_self]
    · simp only [mulSendAny, keyAt, Function.update_of_ne hj]
  · refine hslot ?_ fun j hj => ?_
    · simp only [mulSendAny, Function.update_self]
    · simp only [mulSendAny, keyAt, Function.update_of_ne hj]

/-! ## The sums of the prover -/

/-- The coefficients of product `i`. -/
def mulTerm (c : ℕ → ℕ) (p : FpOSTriple) (i : ℕ) : Term (ZMod PR) :=
  .gate ⟨(p.leftBuf i).val, (p.leftBuf i).mac⟩ ⟨(p.rightBuf i).val, (p.rightBuf i).mac⟩
    ⟨c i, (p.outBuf i).mac⟩

/-- The coefficients of a batch. -/
def batchTerm (C : FpConfig) (c : ℕ → ℕ) (p : FpOSTriple) (n : ℕ) : Term (ZMod PR) :=
  .sum n (fun i => (coeff C p.checks n i : ZMod PR)) (mulTerm c p)

/-- A pair of residues with the given classes. -/
def PairCast (uv : ℕ × ℕ) (U V : ZMod PR) : Prop :=
  (uv.1 < PR ∧ (uv.1 : ZMod PR) = U) ∧ uv.2 < PR ∧ (uv.2 : ZMod PR) = V

theorem PairCast.add (hC : C.Valid) {uv uv' : ℕ × ℕ} {U V U' V' : ZMod PR} (h : PairCast uv U V)
    (h' : PairCast uv' U' V') :
    PairCast (C.F.addMod uv.1 uv'.1, C.F.addMod uv.2 uv'.2) (U + U') (V + V') := by
  have hF := hC.canonical
  obtain ⟨⟨hu, rfl⟩, hv, rfl⟩ := h
  obtain ⟨⟨hu', rfl⟩, hv', rfl⟩ := h'
  exact ⟨⟨hF.addMod_lt hu.le hu'.le (by omega), hF.addMod_cast hu.le hu'.le (by omega)⟩,
    hF.addMod_lt hv.le hv'.le (by omega), hF.addMod_cast hv.le hv'.le (by omega)⟩

/-- One slot, with its coefficient. -/
theorem pairCast_slot (hC : C.Valid) {a b out : AuthVal} (ha : a.val < PR ∧ a.mac < PR)
    (hb : b.val < PR ∧ b.mac < PR) (hc : out.mac < PR) {x : ℕ} (hx : x < PR) :
    PairCast (C.F.multMod (C.F.multMod a.mac b.mac) x,
        C.F.multMod (C.F.addMod (C.F.addMod (C.F.multMod a.val b.mac) (C.F.multMod b.val a.mac))
          (PR - out.mac)) x)
      (a.mac * b.mac * x) ((a.val * b.mac + b.val * a.mac - out.mac) * x) := by
  have hF := hC.canonical
  have hA0 := hF.multMod_lt ha.2 hb.2
  have h1 := hF.multMod_lt ha.1 hb.2
  have h2 := hF.multMod_lt hb.1 ha.2
  have h3 := hF.addMod_lt h1.le h2.le (by omega)
  have hsub : PR - out.mac ≤ PR := Nat.sub_le _ _
  have hA1 := hF.addMod_lt h3.le hsub (by omega)
  refine ⟨⟨hF.multMod_lt hA0 hx, ?_⟩, hF.multMod_lt hA1 hx, ?_⟩
  · rw [hF.multMod_cast hA0 hx, hF.multMod_cast ha.2 hb.2]
  · rw [hF.multMod_cast hA1 hx, hF.addMod_cast h3.le hsub (by omega),
      hF.addMod_cast h1.le h2.le (by omega), hF.multMod_cast ha.1 hb.2, hF.multMod_cast hb.1 ha.2,
      Nat.cast_sub hc.le, ZMod.natCast_self, zero_sub, ← sub_eq_add_neg]

/-- One worker. -/
theorem checkSend_cast (hC : C.Valid) (h : p.Reduced n) {chi : ℕ → ℕ} (hchi : ∀ k, chi k < PR)
    (start : ℕ) {taskN : ℕ} (hle : start + taskN ≤ n) :
    PairCast (checkSend C.F p chi start taskN)
      (∑ k ∈ range taskN, (mulTerm c p (start + k)).const * chi k)
      (∑ k ∈ range taskN, (mulTerm c p (start + k)).lin * chi k) := by
  induction taskN with
  | zero => exact ⟨⟨PR_pos, Nat.cast_zero⟩, PR_pos, Nat.cast_zero⟩
  | succ m ih =>
    have hi : start + m < n := by omega
    rw [checkSend, List.range_succ, List.foldl_append, sum_range_succ, sum_range_succ]
    exact (ih (by omega)).add hC
      (pairCast_slot hC (h.left _ hi) (h.right _ hi) (h.out _ hi) (hchi m))

/-- **All workers of the prover.** -/
theorem send_slices_cast (hC : C.Valid) (h : p.Reduced n) (check : ℕ) :
    PairCast (((slices C n).map fun (t, start, taskN) =>
        checkSend C.F p (chi C check t) start taskN).foldl
          (fun (U, V) (u, v) => (C.F.addMod U u, C.F.addMod V v)) (0, 0))
      (∑ i ∈ range n, (mulTerm c p i).const * coeff C check n i)
      (∑ i ∈ range n, (mulTerm c p i).lin * coeff C check n i) := by
  -- the workers that are done, and what their slices add up to
  have hfold : ∀ (ts : List (ℕ × ℕ × ℕ)) (uv : ℕ × ℕ) (U V : ZMod PR),
      (∀ t ∈ ts, t.2.1 + t.2.2 ≤ n) → PairCast uv U V →
      PairCast ((ts.map fun (t, start, taskN) =>
          checkSend C.F p (chi C check t) start taskN).foldl
            (fun (U, V) (u, v) => (C.F.addMod U u, C.F.addMod V v)) uv)
        (U + (ts.map fun (t, start, taskN) =>
          ∑ k ∈ range taskN, (mulTerm c p (start + k)).const * (chi C check t k : ZMod PR)).sum)
        (V + (ts.map fun (t, start, taskN) =>
          ∑ k ∈ range taskN, (mulTerm c p (start + k)).lin * (chi C check t k : ZMod PR)).sum) := by
    intro ts
    induction ts with
    | nil =>
      intro uv U V _ huv
      simpa using huv
    | cons t ts ih =>
      intro uv U V hts huv
      rw [List.forall_mem_cons] at hts
      have hslice := checkSend_cast (c := c) hC h (chi_lt hC check t.1) t.2.1 hts.1
      rw [List.map_cons, List.map_cons, List.map_cons, List.sum_cons, List.sum_cons, ← add_assoc,
        ← add_assoc]
      exact ih _ _ _ hts.2 (huv.add hC hslice)
  have hall := hfold (slices C n) (0, 0) 0 0 (fun t ht => slices_le ht)
    ⟨⟨PR_pos, Nat.cast_zero⟩, PR_pos, Nat.cast_zero⟩
  rw [sum_slices (fun i => (mulTerm c p i).const), sum_slices (fun i => (mulTerm c p i).lin),
    zero_add, zero_add] at hall
  exact hall

/-- **The two words of an honest prover.** -/
theorem checkManageSend_cast (hC : C.Valid) (h : p.Reduced p.checkCnt) :
    PairCast (checkManageSend C p).2
      ((batchTerm C c p p.checkCnt).const + (C.volePrv p.drawn).mac)
      ((batchTerm C c p p.checkCnt).lin + (C.volePrv p.drawn).val) := by
  obtain ⟨hval, hmac⟩ := hC.volePrv_lt p.drawn
  have hsum := send_slices_cast (c := c) hC h p.checks
  simp only [mul_comm _ (coeff C p.checks p.checkCnt _ : ZMod PR)] at hsum
  have hmask : PairCast ((C.volePrv p.drawn).mac, (C.volePrv p.drawn).val)
      ((C.volePrv p.drawn).mac : ZMod PR) ((C.volePrv p.drawn).val : ZMod PR) :=
    ⟨⟨hmac, rfl⟩, hval, rfl⟩
  exact hsum.add hC hmask

/-! ## The comparison -/

theorem term_keyAt (delta : ℕ) (i : ℕ) :
    term delta (p.keyAt delta c) i = (mulTerm c p i).atKey (delta : ZMod PR) := by
  rw [term, keyAt, keyOf_cast, keyOf_cast, keyOf_cast, mulTerm, Term.gate_atKey]

/-- The mask of a check. -/
def maskShare (C : FpConfig) (d : ℕ) : Share (ZMod PR) := ⟨(C.volePrv d).val, (C.volePrv d).mac⟩

/-- **The comparison of the verifier**, on any words: the one of the ring, and the first word is a
residue. -/
theorem compare_iff (hC : C.Valid) {delta : ℕ} (hdelta : delta < PR) {A : ℕ × ℕ}
    (hmul : C.F.multMod A.2 delta = A.2 * delta % PR) :
    (checkManageRecv (C.withKey delta) (p.keyAt delta c) A).isSome ↔
      A.1 < PR ∧ Accepts (batchTerm C c p p.checkCnt) (maskShare C p.drawn) (delta : ZMod PR)
        ((A.1 : ZMod PR), (A.2 : ZMod PR)) := by
  have hF := hC.canonical
  obtain ⟨W, hW⟩ : ∃ W, W = ((slices (C.withKey delta) (p.keyAt delta c).checkCnt).map
      fun (t, start, taskN) => checkRecv (C.withKey delta).F (C.withKey delta).delta
        (p.keyAt delta c) (chi (C.withKey delta) p.checks t) start taskN).foldl
          (fun W w => (C.withKey delta).F.addMod W w) 0 := ⟨_, rfl⟩
  obtain ⟨hWlt, hWcast⟩ := recv_slices_cast (hC.withKey hdelta)
    (reduced_keyAt delta c p p.checkCnt) p.checks
  have hcompare : (checkManageRecv (C.withKey delta) (p.keyAt delta c) A).isSome ↔
      A.1 = C.F.addMod (C.F.multMod A.2 delta) (C.F.addMod W
        (keyOf delta (C.volePrv p.drawn).val (C.volePrv p.drawn).mac)) := by
    rw [checkManageRecv, hW]
    exact Option.isSome_ite
  have hlt : W < PR := hW ▸ hWlt
  have hcast : (W : ZMod PR) = (batchTerm C c p p.checkCnt).atKey (delta : ZMod PR) := by
    rw [hW, batchTerm, Term.sum_atKey]
    refine hWcast.trans (sum_congr rfl fun i _ => ?_)
    rw [mul_comm]
    exact congrArg _ (term_keyAt delta i)
  have hkey := keyOf_lt delta (C.volePrv p.drawn).val (C.volePrv p.drawn).mac
  have hsum := hF.addMod_lt hlt.le hkey.le (by omega)
  have hprod : C.F.multMod A.2 delta < PR := hmul ▸ Nat.mod_lt _ PR_pos
  have hright : (C.F.addMod (C.F.multMod A.2 delta) (C.F.addMod W
      (keyOf delta (C.volePrv p.drawn).val (C.volePrv p.drawn).mac)) : ZMod PR)
        = (batchTerm C c p p.checkCnt).atKey (delta : ZMod PR)
          + (maskShare C p.drawn).key (delta : ZMod PR) + A.2 * delta := by
    rw [hF.addMod_cast hprod.le hsum.le (by omega), hF.addMod_cast hlt.le hkey.le (by omega), hmul,
      ZMod.natCast_mod, Nat.cast_mul, keyOf_cast, hcast, maskShare]
    ring
  rw [hcompare, Accepts, ← hright]
  constructor
  · intro heq
    rw [heq]
    exact ⟨hF.addMod_lt hprod.le hsum.le (by omega), rfl⟩
  · rintro ⟨hA, heq⟩
    exact eq_of_cast_eq hA (hF.addMod_lt hprod.le hsum.le (by omega)) heq

/-- By how much the buffered products are off, combined. -/
def mulError (C : FpConfig) (c : ℕ → ℕ) (p : FpOSTriple) : ZMod PR :=
  ∑ i ∈ range p.checkCnt,
    (coeff C p.checks p.checkCnt i : ZMod PR) * ((p.leftBuf i).val * (p.rightBuf i).val - c i)

/-- **What the batch check catches.**  The prover's buffers `p` hold products whose outputs carry
any residues `c`; the verifier's are their keys under `Δ`; the coefficients are any that the seeds
may give, the masks any correlations, and both parties have the same number of workers, any.

With the words of `checkManageSend` the verifier goes on exactly if `Δ ^ 2` times the combined error
is 0.  Whatever words are sent instead, at most two keys let an error through.  `hmul` is an
assumption on emp-tool: `mult_mod` reduces also where a factor is a word. -/
theorem mul_check_sound (hC : C.Valid)
    (hmul : ∀ a b, a < 2 ^ 64 → b < PR → C.F.multMod a b = a * b % PR)
    (hp : p.Reduced p.checkCnt) (c : ℕ → ℕ) :
    (∀ Δ < PR, ((checkManageRecv (C.withKey Δ) (p.keyAt Δ c) (checkManageSend C p).2).isSome
      ↔ (Δ : ZMod PR) ^ 2 * mulError C c p = 0)) ∧
    (∀ A : ℕ × ℕ, A.2 < 2 ^ 64 → mulError C c p ≠ 0 → ∀ S : Finset ℕ,
      (∀ Δ ∈ S, Δ < PR ∧ (checkManageRecv (C.withKey Δ) (p.keyAt Δ c) A).isSome) →
      S.card ≤ 2) := by
  constructor
  · intro Δ hΔ
    obtain ⟨⟨hU, hUcast⟩, hV, hVcast⟩ := checkManageSend_cast (c := c) hC hp
    rw [compare_iff hC hΔ (hC.canonical.multMod_eq _ _ hV hΔ), hUcast, hVcast]
    exact (and_iff_right hU).trans (accepts_honest_iff _ (maskShare C p.drawn) _)
  · intro A hA hne S hS
    refine card_le_two hne (fun Δ hΔ Δ' hΔ' heq => ?_) fun Δ hΔ =>
      ((compare_iff hC (hS Δ hΔ).1 (hmul _ _ hA (hS Δ hΔ).1)).mp (hS Δ hΔ).2).2
    exact eq_of_cast_eq (hS Δ hΔ).1 (hS Δ' hΔ').1 heq

/-- Two products, `2 * 3` with the output 6 and `4 * 5` with the output 21. -/
def offByOne : FpOSTriple where
  drawn := 0
  checks := 0
  checkCnt := 2
  outBuf i := ⟨if i = 0 then 6 else 21, 7⟩
  leftBuf i := ⟨if i = 0 then 2 else 4, 8⟩
  rightBuf i := ⟨if i = 0 then 3 else 5, 9⟩
  hashed := []

/-- The second product is caught: by an honest prover's words under the key 3, and with any words
under all keys but two. -/
theorem mul_check_sound_offByOne :
    (checkManageRecv (FpSession.small.withKey 3) (offByOne.keyAt 3 fun i => (offByOne.outBuf i).val)
      (checkManageSend FpSession.small offByOne).2).isSome = false ∧
    ∀ A : ℕ × ℕ, A.2 < 2 ^ 64 → ∀ S : Finset ℕ,
      (∀ Δ ∈ S, Δ < PR ∧ (checkManageRecv (FpSession.small.withKey Δ)
        (offByOne.keyAt Δ fun i => (offByOne.outBuf i).val) A).isSome) → S.card ≤ 2 := by
  have herr : mulError FpSession.small (fun i => (offByOne.outBuf i).val) offByOne
      = -(coeff FpSession.small 0 2 1 : ZMod PR) := by
    show ∑ i ∈ range 2, _ = _
    rw [sum_range_succ, sum_range_one]
    simp only [offByOne]
    norm_num
  have hne : mulError FpSession.small (fun i => (offByOne.outBuf i).val) offByOne ≠ 0 := by
    rw [herr, neg_ne_zero, ne_eq, ZMod.natCast_eq_zero_iff]
    decide +kernel
  have hred : offByOne.Reduced 2 := by
    refine ⟨fun i _ => ?_, fun i _ => ?_, fun i _ => ?_⟩
    · simp only [offByOne]
      split <;> decide +kernel
    · simp only [offByOne]
      split <;> decide +kernel
    · exact (by decide +kernel : 7 < PR)
  have h := mul_check_sound FpSession.small_valid (fun _ _ _ _ => rfl) hred
    fun i => (offByOne.outBuf i).val
  refine ⟨?_, fun A hA S => h.2 A hA hne S⟩
  have hthree : ((3 : ℕ) : ZMod PR) ^ 2 ≠ 0 := by
    refine pow_ne_zero 2 ?_
    rw [ne_eq, ZMod.natCast_eq_zero_iff]
    decide +kernel
  rw [Bool.eq_false_iff, ne_eq, h.1 3 (by decide +kernel)]
  exact mul_ne_zero hthree hne

end FpOSTriple

end VoleZk
