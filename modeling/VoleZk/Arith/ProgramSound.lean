import VoleZk.Arith.Half
import VoleZk.Arith.CheckSound

/-!
# Soundness of the arithmetic engine

The prover may send any words.  What it sends and its halves of the correlations still fix a residue
on every wire, and `FpPeer.extractor` computes the labels that an honest prover of these values
would have.  The verifier's keys follow from them and from `Δ`, whatever `Δ` is.  So either the
values are those of the program, or something is off in a batch or in an opening, and then few keys
let it through.  Words that are opened count as residues: what `reveal` returns is congruent to the
value and no more.

## What is here

* `claimOf`, `FpExtract`, `FpPeer.extractor` — the labels that the prover is committed to;
* `FpExtract.AtKey`, `FpPeer.extractor_follows` — **the verifier's state under any key**;
* `FpExtract.Honest` — every product and every opening is right, and `FpPeer.claims_step`: then
  the values are those of the program;
* `FpPeer.fp_program_sound` — **what a cheating prover gets through, over a whole program.**
-/

set_option autoImplicit false

namespace VoleZk

open FpOSTriple

/-! ## What the prover is committed to -/

/-- The residue that a word leaves of the value of a correlation. -/
def claimOf (u s : ℕ) : ℕ := (u + (PR - s % PR)) % PR

theorem claimOf_lt (u s : ℕ) : claimOf u s < PR := Nat.mod_lt _ PR_pos

theorem claimOf_cast (u s : ℕ) : (claimOf u s : ZMod PR) = u - s := by
  have hle : s % PR ≤ PR := (Nat.mod_lt _ PR_pos).le
  rw [claimOf, ZMod.natCast_mod, Nat.cast_add, Nat.cast_sub hle, ZMod.natCast_mod,
    ZMod.natCast_self, zero_sub, sub_eq_add_neg]

theorem claimOf_eq_zero {u s : ℕ} (hu : u < PR) : claimOf u s = 0 ↔ s % PR = u := by
  constructor
  · intro h
    have hcast := claimOf_cast u s
    rw [h, Nat.cast_zero, eq_comm, sub_eq_zero] at hcast
    refine (eq_of_cast_eq hu (Nat.mod_lt _ PR_pos) ?_).symm
    rw [hcast, ZMod.natCast_mod]
  · rintro rfl
    rw [claimOf, Nat.add_sub_cancel' (Nat.mod_lt _ PR_pos).le, Nat.mod_self]

/-- The prover's engine as it would be if its claims were its values, and what was opened and
checked. -/
structure FpExtract where
  /-- The engine. -/
  engine : FpOSTriple
  /-- Where `andgate_out_buffer` was filled from. -/
  base : ℕ
  /-- The opened labels with the words they were opened as: 0 for `reveal_check_zero`. -/
  opened : List (AuthVal × ℕ)
  /-- The batches checked, each as it was at its check. -/
  checked : List FpOSTriple

namespace FpPeer

variable (C : FpConfig) (P : FpPeer)

/-- The label of correlation `i`. -/
def label (i : ℕ) : AuthVal := ⟨claimOf (C.volePrv i).val (P.correction i), (C.volePrv i).mac⟩

/-- The next slot of a batch. -/
def claimMul (e : FpOSTriple) (a b c : AuthVal) : FpOSTriple :=
  { e with
    checkCnt := e.checkCnt + 1
    leftBuf := Function.update e.leftBuf e.checkCnt a
    rightBuf := Function.update e.rightBuf e.checkCnt b
    outBuf := Function.update e.outBuf e.checkCnt c }

/-- The next slots of a batch. -/
def claimBlock : FpExtract → List (AuthVal × AuthVal) → FpExtract × List AuthVal
  | x, [] => (x, [])
  | x, (a, b) :: ab =>
    let c := P.label C (x.base + x.engine.checkCnt)
    let r := claimBlock { x with engine := claimMul x.engine a b c } ab
    (r.1, c :: r.2)

/-- The labels that the prover is committed to. -/
def extractor : FpHalf FpExtract AuthVal where
  checkSz := C.checkSz
  checkCnt x := x.engine.checkCnt
  newBatch x :=
    { x with
      engine := fillVole C C.volePrv { x.engine with checkCnt := 0 }
      base := x.engine.drawn }
  pubLabel := Prv.pubLabel C.pubMac
  addGate := Prv.addGate C.F
  subGate := Prv.subGate C.F
  negGate := Prv.negGate C.F
  mulConstGate := Prv.mulConstGate C.F
  authenticatedValInput x w :=
    ({ x with engine := { x.engine with drawn := x.engine.drawn + w.length } },
      (List.range w.length).map fun i => P.label C (x.engine.drawn + i))
  checkManage x :=
    some
      { x with
        engine := { x.engine with drawn := x.engine.drawn + 1, checks := x.engine.checks + 1 }
        checked := x.checked ++ [x.engine] }
  authComputeMul x a b :=
    let c := P.label C (x.base + x.engine.checkCnt)
    ({ x with engine := claimMul x.engine a b c }, c)
  mulBlock := claimBlock C P
  reveal x ls :=
    let value := P.openings x.opened.length ls.length
    ({ x with opened := x.opened ++ ls.zip value }, value)
  revealCheckZero x ls := { x with opened := x.opened ++ ls.map fun l => (l, 0) }

/-- The words that the verifier reads have 64 bits. -/
structure Words : Prop where
  /-- The corrections. -/
  correction_lt : ∀ i, P.correction i < 2 ^ 64
  /-- The second word of a check. -/
  check_lt : ∀ e, (P.check e).2 < 2 ^ 64
  /-- The opened words. -/
  opened_lt : ∀ k, P.opened k < 2 ^ 64

end FpPeer

namespace FpExtract

/-- The extractor before the first operation. -/
def start (C : FpConfig) : FpExtract := ⟨FpOSTriple.init C C.volePrv, 1, [], []⟩

/-- The values of the outputs in the buffers. -/
def vals (p : FpOSTriple) (i : ℕ) : ℕ := (p.outBuf i).val

/-- What the verifier hashes for an opened label, under the key `δ`. -/
def openWord (δ : ℕ) (l : AuthVal × ℕ) : ℕ := keyOf δ (claimOf l.1.val l.2) l.1.mac

end FpExtract

/-- The products in the buffers are right. -/
def FpOSTriple.ProductsRight (p : FpOSTriple) : Prop :=
  ∀ j < p.checkCnt, (p.outBuf j).val = (p.leftBuf j).val * (p.rightBuf j).val % PR

/-- Every product and every opening is right. -/
structure FpExtract.Honest (x : FpExtract) : Prop where
  /-- The products of the batches. -/
  checked : ∀ p ∈ x.checked, p.ProductsRight
  /-- The products in the buffers. -/
  buffered : x.engine.ProductsRight
  /-- The openings. -/
  opened : ∀ l ∈ x.opened, l.2 % PR = l.1.val

/-- A batch with a wrong product, whose coefficients cancel. -/
def FpExtract.BadBatch (C : FpConfig) (x : FpExtract) : Prop :=
  ∃ p ∈ x.checked, ¬p.ProductsRight ∧ mulError C (FpExtract.vals p) p = 0

/-! ## The verifier's state under any key -/

section Keys

variable {C : FpConfig} {δ : ℕ}

/-- A key, moved by any word. -/
theorem keyOf_correct (hF : C.F.Canonical)
    (hmul : ∀ a b, a < 2 ^ 64 → b < PR → C.F.multMod a b = a * b % PR) (hδ : δ < PR) (u mac : ℕ)
    {s : ℕ} (hs : s < 2 ^ 64) :
    C.F.addMod (keyOf δ u mac) (C.F.multMod s δ) = keyOf δ (claimOf u s) mac := by
  have hkey := keyOf_lt δ u mac
  have hprod : C.F.multMod s δ < PR := by
    rw [hmul s δ hs hδ]
    exact Nat.mod_lt _ PR_pos
  have hsum : keyOf δ u mac + C.F.multMod s δ < 2 * PR := by omega
  refine eq_of_cast_eq (hF.addMod_lt hkey.le hprod.le hsum) (keyOf_lt _ _ _) ?_
  rw [hF.addMod_cast hkey.le hprod.le hsum, keyOf_cast, keyOf_cast, hmul s δ hs hδ,
    ZMod.natCast_mod, Nat.cast_mul, KeyCheck.Share.key, KeyCheck.Share.key, claimOf_cast]
  ring

/-- The same, as `reveal_recv` adds. -/
theorem keyOf_correct' (hF : C.F.Canonical)
    (hmul : ∀ a b, a < 2 ^ 64 → b < PR → C.F.multMod a b = a * b % PR) (hδ : δ < PR) (u mac : ℕ)
    {s : ℕ} (hs : s < 2 ^ 64) :
    C.F.addMod (C.F.multMod s δ) (keyOf δ u mac) = keyOf δ (claimOf u s) mac := by
  have hkey := keyOf_lt δ u mac
  have hprod : C.F.multMod s δ < PR := by
    rw [hmul s δ hs hδ]
    exact Nat.mod_lt _ PR_pos
  rw [← keyOf_correct hF hmul hδ u mac hs, hF.addMod_eq _ _ hprod.le hkey.le (by omega),
    hF.addMod_eq _ _ hkey.le hprod.le (by omega), Nat.add_comm]

theorem auth_of_key {M : AuthVal} (hval : M.val < PR) (hmac : M.mac < PR) {k : ℕ}
    (hk : k = keyOf δ M.val M.mac) : Auth δ M ⟨0, k⟩ M.val :=
  hk ▸ auth_keyOf δ hval hmac

/-- A label whose value is read off the prover's half. -/
theorem Label.Of.own {l : Label} {v : ℕ} (h : l.Of δ v) : Auth δ l.prover l.verifier l.prover.val :=
  h.val_eq ▸ h

end Keys

namespace FpExtract

variable {C : FpConfig} {P : FpPeer} {δ : ℕ}

/-- The verifier's engine under the key `δ`, and the checks that have passed. -/
structure AtKey (C : FpConfig) (P : FpPeer) (δ : ℕ) (x : FpExtract) (v : FpVerifier) : Prop where
  /-- The correlations drawn. -/
  drawn : v.engine.drawn = x.engine.drawn
  /-- The checks. -/
  checks : v.engine.checks = x.engine.checks
  /-- The products of the batch. -/
  checkCnt : v.engine.checkCnt = x.engine.checkCnt
  /-- Where the batch was filled from. -/
  base : v.base = x.base
  /-- The left factors. -/
  left : ∀ i, Auth δ (x.engine.leftBuf i) (v.engine.leftBuf i) (x.engine.leftBuf i).val
  /-- The right factors. -/
  right : ∀ i, Auth δ (x.engine.rightBuf i) (v.engine.rightBuf i) (x.engine.rightBuf i).val
  /-- The outputs. -/
  out : ∀ i, Auth δ (x.engine.outBuf i) (v.engine.outBuf i) (x.engine.outBuf i).val
  /-- The unused slots hold the correlations. -/
  fresh : ∀ i, x.engine.checkCnt ≤ i → x.engine.outBuf i = C.volePrv (x.base + i)
  /-- What was hashed. -/
  hashed : v.engine.hashed = x.opened.map (openWord δ)
  /-- What was opened are residues. -/
  opened : ∀ l ∈ x.opened, l.1.val < PR
  /-- The checks have passed. -/
  checked : ∀ p ∈ x.checked,
    (checkManageRecv (C.withKey δ) (p.keyAt δ (vals p)) (P.check p)).isSome

/-- What the verifier holds in its buffers are the keys of the labels. -/
theorem AtKey.engine_eq {x : FpExtract} {v : FpVerifier} (h : AtKey C P δ x v) :
    v.engine = { x.engine.keyAt δ (vals x.engine) with hashed := v.engine.hashed } := by
  have hleft := funext fun i => (h.left i).key_eq
  have hright := funext fun i => (h.right i).key_eq
  have hout := funext fun i => (h.out i).key_eq
  obtain ⟨e, base⟩ := v
  obtain ⟨drawn, checks, checkCnt, outBuf, leftBuf, rightBuf, hashed⟩ := e
  obtain rfl : drawn = x.engine.drawn := h.drawn
  obtain rfl : checks = x.engine.checks := h.checks
  obtain rfl : checkCnt = x.engine.checkCnt := h.checkCnt
  obtain rfl := hleft
  obtain rfl := hright
  obtain rfl := hout
  rfl

/-- Labels and keys, one slot changed. -/
theorem forall_auth_update {f g : ℕ → AuthVal} (h : ∀ i, Auth δ (f i) (g i) (f i).val) {j k : ℕ}
    (hjk : k = j) {a b : AuthVal} (hab : Auth δ a b a.val) (i : ℕ) :
    Auth δ (Function.update f j a i) (Function.update g k b i) (Function.update f j a i).val := by
  subst hjk
  by_cases hi : i = k
  · subst hi
    rwa [Function.update_self, Function.update_self]
  · rw [Function.update_of_ne hi, Function.update_of_ne hi]
    exact h i

theorem isSome_checkManageRecv_hashed (e : FpOSTriple) (h : List ℕ) (A : ℕ × ℕ) :
    (checkManageRecv C { e with hashed := h } A).isSome = (checkManageRecv C e A).isSome := by
  rw [Bool.eq_iff_iff, checkManageRecv, checkManageRecv]
  exact Option.isSome_ite.trans Option.isSome_ite.symm

end FpExtract

namespace FpPeer

open FpExtract

variable {C : FpConfig} {P : FpPeer} {δ : ℕ}

/-- The label of a correlation, and the key the verifier computes from the word. -/
theorem label_auth (hC : C.Valid)
    (hmul : ∀ a b, a < 2 ^ 64 → b < PR → C.F.multMod a b = a * b % PR) (hP : P.Words)
    (hδ : δ < PR) (i : ℕ) :
    Auth δ (P.label C i)
      ⟨0, C.F.addMod ((C.withKey δ).voleVer i).mac (C.F.multMod (P.correction i) δ)⟩
      (P.label C i).val :=
  auth_of_key (M := P.label C i) (claimOf_lt _ _) (hC.volePrv_lt i).2
    (keyOf_correct hC.canonical hmul hδ _ _ (hP.correction_lt i))

theorem corrections_length (d n : ℕ) : (P.corrections d n).length = n := by simp [corrections]

/-- Opened words. -/
theorem zipWith_openWord (hC : C.Valid)
    (hmul : ∀ a b, a < 2 ^ 64 → b < PR → C.F.multMod a b = a * b % PR) (hδ : δ < PR)
    {ls ls' : List AuthVal} (hls : List.Forall₂ (fun M K => Auth δ M K M.val) ls ls')
    {value : List ℕ} (hvalue : ∀ w ∈ value, w < 2 ^ 64) :
    List.zipWith (fun v out => C.F.addMod (C.F.multMod v δ) out.mac) value ls'
      = (ls.zip value).map (openWord δ) := by
  induction hls generalizing value with
  | nil => simp
  | @cons M K Ms Ks hM _ ih =>
    match value with
    | [] => rfl
    | w :: value =>
      rw [List.forall_mem_cons] at hvalue
      have hkey : K.mac = keyOf δ M.val M.mac := congrArg AuthVal.mac hM.key_eq
      rw [List.zipWith_cons_cons, List.zip_cons_cons, List.map_cons, ih hvalue.2, openWord, hkey,
        keyOf_correct' hC.canonical hmul hδ _ _ hvalue.1]

theorem val_lt_of_forall₂ {ls ls' : List AuthVal}
    (hls : List.Forall₂ (fun M K => Auth δ M K M.val) ls ls') : ∀ l ∈ ls, l.val < PR := by
  induction hls with
  | nil => exact fun l hl => absurd hl List.not_mem_nil
  | cons hM _ ih => exact List.forall_mem_cons.mpr ⟨hM.val_lt, ih⟩

namespace AtKey

variable {x : FpExtract} {v : FpVerifier}

theorem newBatch (hC : (C.withKey δ).Valid) (h : FpExtract.AtKey C P δ x v) :
    FpExtract.AtKey C P δ ((P.extractor C).newBatch x)
      ((P.verifier (C.withKey δ)).newBatch v) where
  drawn := congrArg (· + C.checkSz) h.drawn
  checks := h.checks
  checkCnt := rfl
  base := h.drawn
  left := h.left
  right := h.right
  out i := by
    show Auth δ (C.volePrv (x.engine.drawn + i)) ((C.withKey δ).voleVer (v.engine.drawn + i)) _
    rw [h.drawn]
    obtain ⟨u, hu⟩ := hC.vole (x.engine.drawn + i)
    exact hu.val_eq ▸ hu
  fresh _ _ := rfl
  hashed := h.hashed
  opened := h.opened
  checked := h.checked

theorem authenticatedValInput (hC : C.Valid)
    (hmul : ∀ a b, a < 2 ^ 64 → b < PR → C.F.multMod a b = a * b % PR) (hP : P.Words)
    (hδ : δ < PR) (h : FpExtract.AtKey C P δ x v) (w : List ℕ) :
    FpExtract.AtKey C P δ ((P.extractor C).authenticatedValInput x w).1
        ((P.verifier (C.withKey δ)).authenticatedValInput v w).1 ∧
      List.Forall₂ (fun M K => Auth δ M K M.val)
        ((P.extractor C).authenticatedValInput x w).2
        ((P.verifier (C.withKey δ)).authenticatedValInput v w).2 := by
  have hlen := P.corrections_length v.engine.drawn w.length
  refine ⟨⟨?_, h.checks, h.checkCnt, h.base, h.left, h.right, h.out, h.fresh, h.hashed, h.opened,
    h.checked⟩, ?_⟩
  · show v.engine.drawn + (P.corrections v.engine.drawn w.length).length = _
    rw [hlen, h.drawn]
    rfl
  · show List.Forall₂ _ _ (List.zipWith _ ((List.range (P.corrections v.engine.drawn
      w.length).length).map _) (P.corrections v.engine.drawn w.length))
    rw [hlen, corrections, List.zipWith_map, List.zipWith_self, h.drawn]
    exact List.forall₂_map_left_iff.mpr (List.forall₂_map_right_iff.mpr
      (List.forall₂_same.mpr fun i _ => label_auth hC hmul hP hδ _))

theorem checkManage (hblind : ∀ e e' : FpOSTriple, e.drawn = e'.drawn → P.check e = P.check e')
    (h : FpExtract.AtKey C P δ x v) {v₁ : FpVerifier}
    (hpass : (P.verifier (C.withKey δ)).checkManage v = some v₁) :
    ∃ x₁, (P.extractor C).checkManage x = some x₁ ∧ FpExtract.AtKey C P δ x₁ v₁ := by
  obtain ⟨e, hcheck, rfl⟩ := Option.map_eq_some_iff.mp hpass
  have hA : P.check v.engine = P.check x.engine := hblind _ _ h.drawn
  rw [hA] at hcheck
  have hsome : (checkManageRecv (C.withKey δ) (x.engine.keyAt δ (vals x.engine))
      (P.check x.engine)).isSome := by
    rw [← isSome_checkManageRecv_hashed _ v.engine.hashed, ← h.engine_eq, hcheck]
    rfl
  have he : e = { v.engine with drawn := v.engine.drawn + 1, checks := v.engine.checks + 1 } := by
    rw [checkManageRecv] at hcheck
    dsimp only at hcheck
    split at hcheck
    · exact (Option.some_inj.mp hcheck).symm
    · cases hcheck
  subst he
  refine ⟨_, rfl, ⟨congrArg (· + 1) h.drawn, congrArg (· + 1) h.checks, h.checkCnt, h.base, h.left,
    h.right, h.out, h.fresh, h.hashed, h.opened, fun p hp => ?_⟩⟩
  rcases List.mem_append.mp hp with hp | hp
  · exact h.checked p hp
  · rw [List.mem_singleton.mp hp]
    exact hsome

theorem authComputeMul (hC : C.Valid)
    (hmul : ∀ a b, a < 2 ^ 64 → b < PR → C.F.multMod a b = a * b % PR) (hP : P.Words)
    (hδ : δ < PR) (h : FpExtract.AtKey C P δ x v) {a b a' b' : AuthVal} (ha : Auth δ a a' a.val)
    (hb : Auth δ b b' b.val) :
    FpExtract.AtKey C P δ ((P.extractor C).authComputeMul x a b).1
        ((P.verifier (C.withKey δ)).authComputeMul v a' b').1 ∧
      Auth δ ((P.extractor C).authComputeMul x a b).2
        ((P.verifier (C.withKey δ)).authComputeMul v a' b').2
        ((P.extractor C).authComputeMul x a b).2.val := by
  have hkey : v.engine.outBuf v.engine.checkCnt
      = (C.withKey δ).voleVer (x.base + x.engine.checkCnt) := by
    rw [(h.out _).key_eq, h.checkCnt, h.fresh _ le_rfl]
    rfl
  have hout : Auth δ (P.label C (x.base + x.engine.checkCnt))
      ((P.verifier (C.withKey δ)).authComputeMul v a' b').2
      (P.label C (x.base + x.engine.checkCnt)).val := by
    show Auth δ _ ⟨0, C.F.addMod (v.engine.outBuf v.engine.checkCnt).mac
      (C.F.multMod (P.correction (v.base + v.engine.checkCnt)) δ)⟩ _
    rw [hkey, h.base, h.checkCnt]
    exact label_auth hC hmul hP hδ _
  refine ⟨⟨h.drawn, h.checks, congrArg (· + 1) h.checkCnt, h.base, ?_, ?_, ?_, fun i hi => ?_,
    h.hashed, h.opened, h.checked⟩, hout⟩
  · exact forall_auth_update h.left h.checkCnt ha
  · exact forall_auth_update h.right h.checkCnt hb
  · exact forall_auth_update h.out h.checkCnt hout
  · have hlt : x.engine.checkCnt < i := hi
    show Function.update x.engine.outBuf x.engine.checkCnt _ i = _
    rw [Function.update_of_ne hlt.ne']
    exact h.fresh i hlt.le

theorem reveal (hC : C.Valid)
    (hmul : ∀ a b, a < 2 ^ 64 → b < PR → C.F.multMod a b = a * b % PR) (hP : P.Words)
    (hδ : δ < PR) (h : FpExtract.AtKey C P δ x v) {ls ls' : List AuthVal}
    (hls : List.Forall₂ (fun M K => Auth δ M K M.val) ls ls') :
    FpExtract.AtKey C P δ ((P.extractor C).reveal x ls).1
        ((P.verifier (C.withKey δ)).reveal v ls').1 ∧
      ((P.extractor C).reveal x ls).2 = ((P.verifier (C.withKey δ)).reveal v ls').2 := by
  have hlen : v.engine.hashed.length = x.opened.length := by rw [h.hashed, List.length_map]
  have hvalue : P.openings v.engine.hashed.length ls'.length
      = P.openings x.opened.length ls.length := by rw [hlen, hls.length_eq]
  refine ⟨⟨h.drawn, h.checks, h.checkCnt, h.base, h.left, h.right, h.out, h.fresh, ?_,
    fun l hl => ?_, h.checked⟩, hvalue.symm⟩
  swap
  · rcases List.mem_append.mp hl with hl | hl
    · exact h.opened l hl
    · exact val_lt_of_forall₂ hls l.1 (List.of_mem_zip hl).1
  show v.engine.hashed ++ List.zipWith _ (P.openings v.engine.hashed.length ls'.length) ls'
    = (x.opened ++ ls.zip (P.openings x.opened.length ls.length)).map (openWord δ)
  rw [hvalue, List.map_append, h.hashed, ← zipWith_openWord hC hmul hδ hls]
  · rfl
  · simp only [openings, List.forall_mem_map]
    exact fun i _ => hP.opened_lt _

theorem revealCheckZero (h : FpExtract.AtKey C P δ x v) {ls ls' : List AuthVal}
    (hls : List.Forall₂ (fun M K => Auth δ M K M.val) ls ls') :
    FpExtract.AtKey C P δ ((P.extractor C).revealCheckZero x ls)
      ((P.verifier (C.withKey δ)).revealCheckZero v ls') := by
  refine ⟨h.drawn, h.checks, h.checkCnt, h.base, h.left, h.right, h.out, h.fresh, ?_,
    fun l hl => ?_, h.checked⟩
  swap
  · rcases List.mem_append.mp hl with hl | hl
    · exact h.opened l hl
    · obtain ⟨M, hM, rfl⟩ := List.mem_map.mp hl
      exact val_lt_of_forall₂ hls M hM
  show v.engine.hashed ++ ls'.map AuthVal.mac
    = (x.opened ++ ls.map fun l => (l, 0)).map (openWord δ)
  rw [List.map_append, h.hashed, List.map_map, List.append_cancel_left_eq, eq_comm,
    ← List.forall₂_eq_eq_eq, List.forall₂_map_left_iff, List.forall₂_map_right_iff]
  refine hls.imp fun M K hM => ?_
  have hzero : claimOf M.val 0 = M.val := by
    rw [claimOf, Nat.zero_mod, Nat.sub_zero, Nat.add_mod_right, Nat.mod_eq_of_lt hM.val_lt]
  rw [Function.comp_apply, openWord, hzero]
  exact (congrArg AuthVal.mac hM.key_eq).symm

end AtKey

theorem extractor_iterates (C : FpConfig) (P : FpPeer) : (P.extractor C).Iterates where
  nil _ := rfl
  cons _ _ _ _ := rfl
  checkCnt _ _ _ := rfl

/-- **The verifier's state under any key** is determined by the labels, operation after operation,
as long as its checks pass. -/
theorem extractor_follows (hC : C.Valid)
    (hmul : ∀ a b, a < 2 ^ 64 → b < PR → C.F.multMod a b = a * b % PR) (hP : P.Words)
    (hblind : ∀ e e' : FpOSTriple, e.drawn = e'.drawn → P.check e = P.check e') (hδ : δ < PR) :
    (P.extractor C).Follows (P.verifier (C.withKey δ)) (fun _ => True) (FpExtract.AtKey C P δ)
      fun M K => Auth δ M K M.val where
  persists := .trivial _
  good_newBatch _ _ := ⟨⟩
  checkSz := rfl
  checkCnt _ _ h := h.checkCnt.symm
  newBatch _ _ h := AtKey.newBatch (hC.withKey hδ) h
  newBatch_room _ := hC.checkSz_pos.ne
  pubLabel _ ha := (auth_pubLabel (hC.withKey hδ) ha).own
  addGate l r l' r' hl hr :=
    (auth_addGate (hC.withKey hδ) (a := ⟨l, l'⟩) (b := ⟨r, r'⟩) hl hr).own
  subGate l r l' r' hl hr :=
    (auth_subGate (hC.withKey hδ) (a := ⟨l, l'⟩) (b := ⟨r, r'⟩) hl hr).own
  negGate l l' hl := (auth_negGate (hC.withKey hδ) (a := ⟨l, l'⟩) hl).own
  mulConstGate l l' _ hc hl := (auth_mulConstGate (hC.withKey hδ) (a := ⟨l, l'⟩) hl hc).own
  authenticatedValInput _ _ w _ h _ := AtKey.authenticatedValInput hC hmul hP hδ h w
  checkManage _ _ _ h hpass _ := AtKey.checkManage hblind h hpass
  authComputeMul _ _ _ _ _ _ _ h ha hb _ := AtKey.authComputeMul hC hmul hP hδ h ha hb
  mulBlock _ _ _ _ hroom h hab _ :=
    (extractor_iterates C P).follows (R := FpExtract.AtKey C P δ)
      (W := fun M K => Auth δ M K M.val) (P.verifier_iterates _) (.trivial _)
      (fun _ _ _ _ _ _ _ h ha hb _ => AtKey.authComputeMul hC hmul hP hδ h ha hb) hroom h hab ⟨⟩
  reveal _ _ _ _ h hls _ := AtKey.reveal hC hmul hP hδ h hls
  revealCheckZero _ _ _ _ h hls _ := AtKey.revealCheckZero h hls

/-! ## Honest claims -/

end FpPeer

/-- A label of the prover that carries the value `v`. -/
structure Carries (l : AuthVal) (v : ℕ) : Prop where
  /-- The value. -/
  val_eq : l.val = v
  /-- The value is a residue. -/
  val_lt : v < PR
  /-- The MAC is a residue. -/
  mac_lt : l.mac < PR

namespace Carries

variable {C : FpConfig} {a b : AuthVal} {x y : ℕ}

theorem of {δ : ℕ} {l : Label} (h : l.Of δ x) : Carries l.prover x :=
  ⟨h.val_eq, h.val_lt, h.mac_lt⟩

/-- Under the key 0 the keys are the MACs. -/
theorem auth (h : Carries a x) : Auth 0 a ⟨0, a.mac⟩ x where
  val_eq := h.val_eq
  val_lt := h.val_lt
  key_val := rfl
  mac_lt := h.mac_lt
  key_lt := h.mac_lt
  mac_eq := by rw [Nat.mul_zero, Nat.add_zero, Nat.mod_eq_of_lt h.mac_lt]

theorem addGate (hC : C.Valid) (ha : Carries a x) (hb : Carries b y) :
    Carries (Prv.addGate C.F a b) ((x + y) % PR) :=
  .of (auth_addGate (hC.withKey PR_pos) (a := ⟨a, ⟨0, a.mac⟩⟩) (b := ⟨b, ⟨0, b.mac⟩⟩) ha.auth
    hb.auth)

theorem subGate (hC : C.Valid) (ha : Carries a x) (hb : Carries b y) :
    Carries (Prv.subGate C.F a b) ((x + (PR - y)) % PR) :=
  .of (auth_subGate (hC.withKey PR_pos) (a := ⟨a, ⟨0, a.mac⟩⟩) (b := ⟨b, ⟨0, b.mac⟩⟩) ha.auth
    hb.auth)

theorem negGate (hC : C.Valid) (ha : Carries a x) :
    Carries (Prv.negGate C.F a) ((PR - x) % PR) :=
  .of (auth_negGate (hC.withKey PR_pos) (a := ⟨a, ⟨0, a.mac⟩⟩) ha.auth)

theorem mulConstGate (hC : C.Valid) (ha : Carries a x) {c : ℕ} (hc : c < PR) :
    Carries (Prv.mulConstGate C.F a c) (x * c % PR) :=
  .of (auth_mulConstGate (hC.withKey PR_pos) (a := ⟨a, ⟨0, a.mac⟩⟩) ha.auth hc)

theorem pubLabel (hC : C.Valid) (hx : x < PR) : Carries (Prv.pubLabel C.pubMac x) x :=
  ⟨rfl, hx, hC.pubMac_lt⟩

theorem foldl_addGate (hC : C.Valid) {as : List AuthVal} {vs : List ℕ}
    (h : List.Forall₂ Carries as vs) (ha : Carries a (x % PR)) :
    Carries (as.foldl (Prv.addGate C.F) a) ((x + vs.sum) % PR) := by
  induction h generalizing a x with
  | nil => simpa using ha
  | @cons b y as vs hb _ ih =>
    have hab := addGate hC ha hb
    rw [Nat.mod_add_mod] at hab
    have hrest := ih hab
    rwa [Nat.add_assoc, ← List.sum_cons] at hrest

end Carries

namespace FpPeer

open FpExtract

variable {C : FpConfig} {P : FpPeer} {x x' : FpExtract}

theorem label_carries (hC : C.Valid) (i : ℕ) : Carries (P.label C i) (P.label C i).val :=
  ⟨rfl, claimOf_lt _ _, (hC.volePrv_lt i).2⟩

theorem honest_claimMul {e : FpOSTriple} {a b c : AuthVal}
    (h : (claimMul e a b c).ProductsRight) : e.ProductsRight := fun j hj => by
  have hslot := h j (Nat.lt_succ_of_lt hj)
  simpa only [claimMul, Function.update_of_ne hj.ne] using hslot

theorem sum_carries (hC : C.Valid) {as : List AuthVal} {vs : List ℕ}
    (h : List.Forall₂ Carries as vs) : Carries ((P.extractor C).sum as) (vs.sum % PR) := by
  cases h with
  | nil => exact Carries.pubLabel hC PR_pos
  | @cons a y as vs ha h =>
    rw [List.sum_cons]
    refine Carries.foldl_addGate hC h ?_
    rwa [Nat.mod_eq_of_lt ha.val_lt]

/-- What is honest at the end was honest all along: a batch that is checked is on record. -/
theorem honest_persists (C : FpConfig) (P : FpPeer) :
    (P.extractor C).Persists FpExtract.Honest where
  ready x x₁ h h₁ := by
    rw [FpHalf.ready] at h
    split at h
    · obtain ⟨x₂, hcheck, rfl⟩ := Option.map_eq_some_iff.mp h
      cases hcheck
      exact ⟨fun p hp => h₁.checked p (List.mem_append_left _ hp),
        h₁.checked x.engine (List.mem_append_right _ (List.mem_singleton.mpr rfl)), h₁.opened⟩
    · exact Option.some_inj.mp h ▸ h₁
  authenticatedValInput _ _ h := ⟨h.checked, h.buffered, h.opened⟩
  checkManage x x₁ hcheck h₁ := by
    cases hcheck
    exact ⟨fun p hp => h₁.checked p (List.mem_append_left _ hp), h₁.buffered, h₁.opened⟩
  authComputeMul x a b h := ⟨h.checked, honest_claimMul h.buffered, h.opened⟩
  mulBlock x ab h := by
    induction ab generalizing x with
    | nil => exact h
    | cons m ab ih =>
      have hone := ih _ h
      exact ⟨hone.checked, honest_claimMul hone.buffered, hone.opened⟩
  reveal x ls h :=
    ⟨h.checked, h.buffered, fun l hl => h.opened l (List.mem_append_left _ hl)⟩
  revealCheckZero x ls h :=
    ⟨h.checked, h.buffered, fun l hl => h.opened l (List.mem_append_left _ hl)⟩

theorem authComputeMul_carries (hC : C.Valid) {a b : AuthVal} {y z : ℕ} (ha : Carries a y)
    (hb : Carries b z) (hx' : ((P.extractor C).authComputeMul x a b).1.Honest) :
    Carries ((P.extractor C).authComputeMul x a b).2 (y * z % PR) := by
  have hslot := hx'.buffered x.engine.checkCnt (Nat.lt_succ_self _)
  simp only [extractor, claimMul, Function.update_self] at hslot
  rw [ha.val_eq, hb.val_eq] at hslot
  exact hslot ▸ label_carries hC _

/-- A block, by induction on its products. -/
theorem mulBlock_carries (hC : C.Valid) {ab : List (AuthVal × AuthVal)} {vs : List (ℕ × ℕ)}
    (hab : List.Forall₂ (fun m n => Carries m.1 n.1 ∧ Carries m.2 n.2) ab vs)
    (hx' : ((P.extractor C).mulBlock x ab).1.Honest) :
    List.Forall₂ Carries ((P.extractor C).mulBlock x ab).2 (vs.map fun v => v.1 * v.2 % PR) := by
  induction hab generalizing x with
  | nil => exact .nil
  | @cons m n ab vs hmn _ ih =>
    have hmid : ((P.extractor C).authComputeMul x m.1 m.2).1.Honest :=
      (honest_persists C P).mulBlock _ ab hx'
    exact .cons (authComputeMul_carries hC hmn.1 hmn.2 hmid) (ih hx')

/-- The products of a vector, by induction on those that are left. -/
theorem mulVec_carries (hC : C.Valid) {x x' : FpExtract} {ab : List (AuthVal × AuthVal)}
    {vs : List (ℕ × ℕ)} {cs : List AuthVal}
    (hab : List.Forall₂ (fun m n => Carries m.1 n.1 ∧ Carries m.2 n.2) ab vs)
    (h : (P.extractor C).mulVec x ab = some (x', cs)) (hx' : x'.Honest) :
    List.Forall₂ Carries cs (vs.map fun v => v.1 * v.2 % PR) := by
  by_cases hnil : ab = []
  · subst hnil
    cases hab
    rw [FpHalf.mulVec, dif_pos rfl, Option.some_inj, Prod.mk.injEq] at h
    obtain ⟨-, rfl⟩ := h
    exact .nil
  · obtain ⟨x₁, take, rest, -, -, hpos, hloop, rfl⟩ := FpHalf.mulVec_turn hnil h
    have hshort : (ab.drop take).length < ab.length := by
      have := List.length_pos_of_ne_nil hnil
      rw [List.length_drop]
      omega
    have hrest := mulVec_carries hC (List.forall₂_drop take hab) hloop hx'
    have hcs := mulBlock_carries hC (List.forall₂_take take hab)
      ((honest_persists C P).mulVec hloop hx')
    rw [← List.take_append_drop take vs, List.map_append]
    exact List.rel_append hcs hrest
termination_by ab.length

/-- Words that are opened, as residues. -/
theorem map_mod_of_opened {ls : List AuthVal} {vs : List ℕ} (h : List.Forall₂ Carries ls vs)
    {value : List ℕ} (hlen : value.length = ls.length)
    (hopened : ∀ l ∈ ls.zip value, l.2 % PR = l.1.val) : value.map (· % PR) = vs := by
  induction h generalizing value with
  | nil => rw [List.length_eq_zero_iff.mp hlen, List.map_nil]
  | @cons M v Ms vs hM _ ih =>
    match value, hlen with
    | w :: value, hlen =>
      rw [List.zip_cons_cons, List.forall_mem_cons] at hopened
      rw [List.map_cons, ih (Nat.succ_inj.mp hlen) hopened.2, hopened.1, hM.val_eq]

theorem reveal_value {ls : List AuthVal} {vs : List ℕ} (h : List.Forall₂ Carries ls vs)
    (hx' : ((P.extractor C).reveal x ls).1.Honest) :
    ((P.extractor C).reveal x ls).2.map (· % PR) = vs :=
  map_mod_of_opened h (by simp [extractor, openings]) fun l hl =>
    hx'.opened l (List.mem_append_right _ hl)

theorem revealCheckZero_value {ls : List AuthVal} {vs : List ℕ} (h : List.Forall₂ Carries ls vs)
    (hx' : ((P.extractor C).revealCheckZero x ls).Honest) : ∀ v ∈ vs, v = 0 := by
  have hzero : ∀ l ∈ ls, 0 = l.val := fun l hl => by
    have hone := hx'.opened (l, 0) (List.mem_append_right _ (List.mem_map_of_mem hl))
    rwa [Nat.zero_mod] at hone
  clear hx'
  induction h with
  | nil => exact fun v hv => absurd hv List.not_mem_nil
  | cons hM _ ih =>
    rw [List.forall_mem_cons] at hzero ⊢
    exact ⟨hM.val_eq.symm.trans hzero.1.symm, ih hzero.2⟩

end FpPeer

/-! ## Programs on the claimed values -/

namespace FpOp

/-- The operation with expected values as residues. -/
def reduceExpected : FpOp → FpOp
  | .revealCheck is expected => .revealCheck is (expected.map (· % PR))
  | op => op

end FpOp

namespace FpPeer

open FpExtract

variable {C : FpConfig} {P : FpPeer}

/-- The values on the wires are those of the plain state. -/
structure Claims (s : FpHalfState FpExtract AuthVal) (p : FpPlain) : Prop where
  /-- The wires. -/
  wires : List.Forall₂ Carries s.wires p.vals
  /-- The outputs, as residues. -/
  out : s.out.map (List.map (· % PR)) = p.outs
  /-- What was to be 0 is 0. -/
  zeros : ∀ v ∈ p.zeros, v = 0

namespace Claims

variable {s : FpHalfState FpExtract AuthVal} {p : FpPlain} (h : Claims s p)
include h

theorem push {x : FpExtract} {ls : List AuthVal} {vs : List ℕ} (hls : List.Forall₂ Carries ls vs) :
    Claims (s.push x ls) (p.push vs) :=
  ⟨List.rel_append h.wires hls, h.out, h.zeros⟩

theorem labels {is : List ℕ} {ls : List AuthVal} (hls : s.labels is = some ls) :
    ∃ vs, p.values is = some vs ∧ List.Forall₂ Carries ls vs := by
  have hrel := Runs.mapM_getElem?_rel h.wires is
  rw [FpHalfState.labels] at hls
  rw [hls] at hrel
  rw [FpPlain.values]
  generalize (is.mapM fun i => p.vals[i]?) = found at hrel ⊢
  cases hrel with
  | some hvs => exact ⟨_, rfl, hvs⟩

theorem labels_one {i : ℕ} {ls : List AuthVal} (hls : s.labels [i] = some ls) :
    ∃ a y, ls = [a] ∧ p.values [i] = some [y] ∧ Carries a y := by
  obtain ⟨vs, hvs, hcarry⟩ := h.labels hls
  obtain ⟨a, rfl⟩ := List.length_eq_one_iff.mp (FpHalfState.length_labels hls)
  obtain ⟨y, _, ha, hnil, rfl⟩ := List.forall₂_cons_left_iff.mp hcarry
  rw [List.forall₂_nil_left_iff.mp hnil] at hvs
  exact ⟨a, y, rfl, hvs, ha⟩

theorem labels_two {i j : ℕ} {ls : List AuthVal} (hls : s.labels [i, j] = some ls) :
    ∃ a b y z, ls = [a, b] ∧ p.values [i, j] = some [y, z] ∧ Carries a y ∧ Carries b z := by
  obtain ⟨vs, hvs, hcarry⟩ := h.labels hls
  obtain ⟨a, b, rfl⟩ := List.length_eq_two.mp (FpHalfState.length_labels hls)
  obtain ⟨y, _, ha, htail, rfl⟩ := List.forall₂_cons_left_iff.mp hcarry
  obtain ⟨z, _, hb, hnil, rfl⟩ := List.forall₂_cons_left_iff.mp htail
  rw [List.forall₂_nil_left_iff.mp hnil] at hvs
  exact ⟨a, b, y, z, rfl, hvs, ha, hb⟩

end Claims

/-- After `op`, from the plain state `p` on, the claims are those of the plain operation, on the
claimed inputs and with expected values as residues. -/
def ClaimsAfter (p : FpPlain) (op : FpOp) (s' : FpHalfState FpExtract AuthVal) : Prop :=
  ∃ op' p', FpOp.SameShape op.reduceExpected op' ∧ p.step op' = some p' ∧ Claims s' p'

/-! ### One operation -/

namespace Claims

variable {s s' : FpHalfState FpExtract AuthVal} {p : FpPlain} (hp : Claims s p) (hC : C.Valid)
include hp

/-- What the operations have in common that append wires and nothing else. -/
theorem after_push {op : FpOp} {x : FpExtract} {ls : List AuthVal} {vs : List ℕ}
    (hop : op.reduceExpected = op) (hstep : p.step op = some (p.push vs))
    (hls : List.Forall₂ Carries ls vs) : ClaimsAfter p op (s.push x ls) :=
  ⟨op, p.push vs, hop.symm ▸ .refl _, hstep, hp.push hls⟩

include hC

theorem feed {w : List ℕ} (h : (P.extractor C).step s (.feed w) = some s') :
    ClaimsAfter p (.feed w) s' := by
  cases h
  refine ⟨.feed ((List.range w.length).map fun i =>
    (P.label C (s.engine.engine.drawn + i)).val), _, .feed (by simp), rfl, hp.push ?_⟩
  exact List.forall₂_map_left_iff.mpr (List.forall₂_map_right_iff.mpr
    (List.forall₂_same.mpr fun i _ => label_carries hC _))

theorem pub {a : ℕ} (ha : a < PR) (h : (P.extractor C).step s (.pub a) = some s') :
    ClaimsAfter p (.pub a) s' := by
  cases h
  exact hp.after_push rfl rfl (.cons (Carries.pubLabel hC ha) .nil)

theorem add {i j : ℕ} (h : (P.extractor C).step s (.add i j) = some s') :
    ClaimsAfter p (.add i j) s' := by
  obtain ⟨ls, hls, h⟩ := Option.bind_eq_some_iff.mp h
  obtain ⟨a, b, y, z, rfl, hvs, ha, hb⟩ := hp.labels_two hls
  cases h
  refine hp.after_push rfl ?_ (.cons (ha.addGate hC hb) .nil)
  rw [FpPlain.step, hvs]
  rfl

theorem sub {i j : ℕ} (h : (P.extractor C).step s (.sub i j) = some s') :
    ClaimsAfter p (.sub i j) s' := by
  obtain ⟨ls, hls, h⟩ := Option.bind_eq_some_iff.mp h
  obtain ⟨a, b, y, z, rfl, hvs, ha, hb⟩ := hp.labels_two hls
  cases h
  refine hp.after_push rfl ?_ (.cons (ha.subGate hC hb) .nil)
  rw [FpPlain.step, hvs]
  rfl

theorem negate {i : ℕ} (h : (P.extractor C).step s (.negate i) = some s') :
    ClaimsAfter p (.negate i) s' := by
  obtain ⟨ls, hls, h⟩ := Option.bind_eq_some_iff.mp h
  obtain ⟨a, y, rfl, hvs, ha⟩ := hp.labels_one hls
  cases h
  refine hp.after_push rfl ?_ (.cons (ha.negGate hC) .nil)
  rw [FpPlain.step, hvs]
  rfl

theorem mul {i j : ℕ} (h : (P.extractor C).step s (.mul i j) = some s')
    (hs' : s'.engine.Honest) : ClaimsAfter p (.mul i j) s' := by
  obtain ⟨ls, hls, h⟩ := Option.bind_eq_some_iff.mp h
  obtain ⟨a, b, y, z, rfl, hvs, ha, hb⟩ := hp.labels_two hls
  obtain ⟨⟨x, c⟩, hgate, rfl⟩ := Option.map_eq_some_iff.mp h
  obtain ⟨x₁, hready, hslot⟩ := Option.map_eq_some_iff.mp hgate
  have hc := authComputeMul_carries (P := P) (x := x₁) hC ha hb (by rwa [hslot])
  rw [hslot] at hc
  refine hp.after_push rfl ?_ (.cons hc .nil)
  rw [FpPlain.step, hvs]
  rfl

theorem mulVec {ij : List (ℕ × ℕ)} (h : (P.extractor C).step s (.mulVec ij) = some s')
    (hs' : s'.engine.Honest) : ClaimsAfter p (.mulVec ij) s' := by
  obtain ⟨as, has, h⟩ := Option.bind_eq_some_iff.mp h
  obtain ⟨bs, hbs, h⟩ := Option.bind_eq_some_iff.mp h
  obtain ⟨ys, hys, hcarryA⟩ := hp.labels has
  obtain ⟨zs, hzs, hcarryB⟩ := hp.labels hbs
  obtain ⟨⟨x, cs⟩, hgates, rfl⟩ := Option.map_eq_some_iff.mp h
  refine hp.after_push rfl ?_ (mulVec_carries hC (Runs.zip_rel hcarryA hcarryB) hgates hs')
  rw [FpPlain.step, hys, hzs, Option.bind_some, Option.bind_some]

theorem addConst {i c : ℕ} (hc : c < PR) (h : (P.extractor C).step s (.addConst i c) = some s') :
    ClaimsAfter p (.addConst i c) s' := by
  obtain ⟨ls, hls, h⟩ := Option.bind_eq_some_iff.mp h
  obtain ⟨a, y, rfl, hvs, ha⟩ := hp.labels_one hls
  cases h
  refine hp.after_push rfl ?_ (.cons (ha.addGate hC (Carries.pubLabel hC hc)) .nil)
  rw [FpPlain.step, hvs]
  rfl

theorem subConst {i c : ℕ} (hc : c < PR) (h : (P.extractor C).step s (.subConst i c) = some s') :
    ClaimsAfter p (.subConst i c) s' := by
  obtain ⟨ls, hls, h⟩ := Option.bind_eq_some_iff.mp h
  obtain ⟨a, y, rfl, hvs, ha⟩ := hp.labels_one hls
  cases h
  refine hp.after_push rfl ?_ (.cons (ha.subGate hC (Carries.pubLabel hC hc)) .nil)
  rw [FpPlain.step, hvs]
  rfl

theorem mulConst {i c : ℕ} (hc : c < PR) (h : (P.extractor C).step s (.mulConst i c) = some s') :
    ClaimsAfter p (.mulConst i c) s' := by
  obtain ⟨ls, hls, h⟩ := Option.bind_eq_some_iff.mp h
  obtain ⟨a, y, rfl, hvs, ha⟩ := hp.labels_one hls
  cases h
  refine hp.after_push rfl ?_ (.cons (ha.mulConstGate hC hc) .nil)
  rw [FpPlain.step, hvs]
  rfl

theorem sum {is : List ℕ} (h : (P.extractor C).step s (.sum is) = some s') :
    ClaimsAfter p (.sum is) s' := by
  obtain ⟨ls, hls, rfl⟩ := Option.map_eq_some_iff.mp h
  obtain ⟨vs, hvs, hcarry⟩ := hp.labels hls
  refine hp.after_push rfl ?_ (.cons (sum_carries hC hcarry) .nil)
  rw [FpPlain.step, hvs]
  rfl

omit hC

theorem reveal {is : List ℕ} (h : (P.extractor C).step s (.reveal is) = some s')
    (hs' : s'.engine.Honest) : ClaimsAfter p (.reveal is) s' := by
  obtain ⟨ls, hls, rfl⟩ := Option.map_eq_some_iff.mp h
  obtain ⟨vs, hvs, hcarry⟩ := hp.labels hls
  have hvalue := reveal_value (C := C) (P := P) hcarry hs'
  refine ⟨.reveal is, { p with outs := p.outs ++ [vs] }, .refl _, ?_, hp.wires, ?_, hp.zeros⟩
  · rw [FpPlain.step, hvs]
    rfl
  · rw [List.map_append, hp.out, List.map_singleton, hvalue]

theorem revealCheck {is expected : List ℕ}
    (h : (P.extractor C).step s (.revealCheck is expected) = some s') (hs' : s'.engine.Honest) :
    ClaimsAfter p (.revealCheck is expected) s' := by
  obtain ⟨ls, hls, h⟩ := Option.bind_eq_some_iff.mp h
  obtain ⟨vs, hvs, hcarry⟩ := hp.labels hls
  dsimp only at h
  split at h
  · rename_i heq
    cases h
    have hvalue := reveal_value (C := C) (P := P) hcarry hs'
    refine ⟨.revealCheck is (expected.map (· % PR)), p, .refl _, ?_, hp.wires, hp.out, hp.zeros⟩
    rw [FpPlain.step, hvs, Option.bind_some, heq, hvalue, if_pos rfl]
  · cases h

theorem revealZero {is : List ℕ} (h : (P.extractor C).step s (.revealZero is) = some s')
    (hs' : s'.engine.Honest) : ClaimsAfter p (.revealZero is) s' := by
  obtain ⟨ls, hls, rfl⟩ := Option.map_eq_some_iff.mp h
  obtain ⟨vs, hvs, hcarry⟩ := hp.labels hls
  have hzero := revealCheckZero_value (C := C) (P := P) hcarry hs'
  refine ⟨.revealZero is, { p with zeros := p.zeros ++ vs }, .refl _, ?_, hp.wires, hp.out,
    fun v hv => ?_⟩
  · rw [FpPlain.step, hvs]
    rfl
  · exact (List.mem_append.mp hv).elim (hp.zeros v) (hzero v)

end Claims

/-- **One operation**: with honest claims, it is the plain operation, on the claimed inputs. -/
theorem claims_step (hC : C.Valid) {s s' : FpHalfState FpExtract AuthVal} {op : FpOp}
    (hop : op.Canonical) (h : (P.extractor C).step s op = some s') (hs' : s'.engine.Honest)
    {p : FpPlain} (hp : Claims s p) : ClaimsAfter p op s' := by
  cases op with
  | feed w => exact hp.feed hC h
  | pub a => exact hp.pub hC hop h
  | add i j => exact hp.add hC h
  | sub i j => exact hp.sub hC h
  | negate i => exact hp.negate hC h
  | mul i j => exact hp.mul hC h hs'
  | mulVec ij => exact hp.mulVec hC h hs'
  | addConst i c => exact hp.addConst hC hop h
  | subConst i c => exact hp.subConst hC hop h
  | mulConst i c => exact hp.mulConst hC hop h
  | sum is => exact hp.sum hC h
  | reveal is => exact hp.reveal h hs'
  | revealCheck is expected => exact hp.revealCheck h hs'
  | revealZero is => exact hp.revealZero h hs'

/-- A run with honest claims. -/
theorem claims_run (hC : C.Valid) {ops : List FpOp} (hops : ∀ op ∈ ops, op.Canonical)
    {s s' : FpHalfState FpExtract AuthVal} (h : Runs.run (P.extractor C).step s ops = some s')
    (hs' : s'.engine.Honest) {p : FpPlain} (hp : Claims s p) :
    ∃ ops' p', List.Forall₂ FpOp.SameShape (ops.map FpOp.reduceExpected) ops' ∧
      Runs.run FpPlain.step p ops' = some p' ∧ Claims s' p' := by
  induction ops generalizing s p with
  | nil =>
    cases h
    exact ⟨[], p, .nil, rfl, hp⟩
  | cons op ops ih =>
    rw [List.forall_mem_cons] at hops
    obtain ⟨s₁, hstep, hrun⟩ := Runs.run_cons_eq_some.mp h
    have hs₁ := (honest_persists C P).run hrun hs'
    obtain ⟨op', p₁, hop, hp₁, hclaims₁⟩ := claims_step hC hops.1 hstep hs₁ hp
    obtain ⟨ops', p', hshape, hp', hclaims⟩ := ih hops.2 hrun hclaims₁
    exact ⟨op' :: ops', p', .cons hop hshape, Runs.run_cons_eq_some.mpr ⟨p₁, hp₁, hp'⟩, hclaims⟩

/-- When the last batch has been checked, the buffers are right if the batches are. -/
theorem finish_productsRight {s s' : FpHalfState FpExtract AuthVal}
    (h : (P.extractor C).finish s = some s')
    (hchecked : ∀ p ∈ s'.engine.checked, p.ProductsRight) : s'.engine.engine.ProductsRight := by
  rw [FpHalf.finish] at h
  split at h
  · cases h
    exact hchecked s.engine.engine (List.mem_append_right _ (List.mem_singleton.mpr rfl))
  · rename_i hcnt
    cases h
    have hzero : s.engine.engine.checkCnt = 0 := not_not.mp hcnt
    exact fun j hj => absurd (hzero ▸ hj) (Nat.not_lt_zero j)

/-- **A whole program with honest claims.** -/
theorem claims_program (hC : C.Valid) {ops : List FpOp} (hops : ∀ op ∈ ops, op.Canonical)
    {s : FpHalfState FpExtract AuthVal}
    (h : (P.extractor C).program (FpExtract.start C) ops = some s) (hs : s.engine.Honest) :
    ∃ ops' p, List.Forall₂ FpOp.SameShape (ops.map FpOp.reduceExpected) ops' ∧
      Runs.run FpPlain.step FpPlain.init ops' = some p ∧
      s.out.map (List.map (· % PR)) = p.outs ∧ ∀ v ∈ p.zeros, v = 0 := by
  obtain ⟨s₁, hrun, hfinish⟩ := Option.bind_eq_some_iff.mp h
  have hs₁ := (honest_persists C P).finish hfinish hs
  obtain ⟨ops', p, hshape, hp, hclaims⟩ := claims_run hC hops hrun hs₁ (p := FpPlain.init)
    ⟨.nil, rfl, fun v hv => absurd hv List.not_mem_nil⟩
  refine ⟨ops', p, hshape, hp, ?_, hclaims.zeros⟩
  rw [← hclaims.out]
  rw [FpHalf.finish] at hfinish
  split at hfinish <;> cases hfinish <;> rfl

/-! ## What gets through -/

variable {δ : ℕ}

theorem atKey_start (hC : C.Valid) (δ : ℕ) :
    FpExtract.AtKey C P δ (FpExtract.start C) (FpPeer.start (C.withKey δ)) where
  drawn := rfl
  checks := rfl
  checkCnt := rfl
  base := rfl
  left _ := ⟨rfl, PR_pos, rfl, PR_pos, PR_pos, by simp [start, FpExtract.start, init, fillVole]⟩
  right _ := ⟨rfl, PR_pos, rfl, PR_pos, PR_pos, by simp [start, FpExtract.start, init, fillVole]⟩
  out i := auth_keyOf δ (hC.volePrv_lt (1 + i)).1 (hC.volePrv_lt (1 + i)).2
  fresh _ _ := rfl
  hashed := rfl
  opened l hl := absurd hl List.not_mem_nil
  checked p hp := absurd hp List.not_mem_nil

/-- **A batch that more than two keys pass is right, combined.** -/
theorem mulError_eq_zero (hC : C.Valid)
    (hmul : ∀ a b, a < 2 ^ 64 → b < PR → C.F.multMod a b = a * b % PR) {p : FpOSTriple}
    {A : ℕ × ℕ} (hA : A.2 < 2 ^ 64) {S : Finset ℕ} (hcard : 2 < S.card)
    (hS : ∀ δ ∈ S, δ < PR ∧ (checkManageRecv (C.withKey δ) (p.keyAt δ (vals p)) A).isSome) :
    mulError C (vals p) p = 0 := by
  by_contra hne
  refine absurd ?_ (not_le.mpr hcard)
  refine KeyCheck.card_le_two hne (fun δ hδ δ' hδ' heq => ?_) fun δ hδ =>
    ((compare_iff hC (hS δ hδ).1 (hmul _ _ hA (hS δ hδ).1)).mp (hS δ hδ).2).2
  exact eq_of_cast_eq (hS δ hδ).1 (hS δ' hδ').1 heq

/-- A wrong opening: the word that is hashed depends on the key. -/
theorem openWord_injective {l : AuthVal × ℕ} (hl : l.1.val < PR) (hwrong : l.2 % PR ≠ l.1.val)
    {δ δ' : ℕ} (hδ : δ < PR) (hδ' : δ' < PR) (h : openWord δ l = openWord δ' l) : δ = δ' := by
  have hne : (claimOf l.1.val l.2 : ZMod PR) ≠ 0 := fun hzero => hwrong <| by
    refine (claimOf_eq_zero hl).mp (eq_of_cast_eq (claimOf_lt _ _) PR_pos ?_)
    rw [hzero, Nat.cast_zero]
  have hcast := congrArg (Nat.cast : ℕ → ZMod PR) h
  rw [openWord, openWord, keyOf_cast, keyOf_cast, KeyCheck.Share.key, KeyCheck.Share.key,
    sub_right_inj] at hcast
  exact eq_of_cast_eq hδ hδ' (mul_left_cancel₀ hne hcast)

/-- The verifier gets through a program, and the digest it receives is its own. -/
def Accepts {D : Type} (C : FpConfig) (P : FpPeer) (authHash : List ℕ → D) (digest : D)
    (ops : List FpOp) (v : FpHalfState FpVerifier AuthVal) : Prop :=
  (P.verifier C).program (FpPeer.start C) ops = some v ∧ authHash v.engine.engine.hashed = digest

/-- **What a cheating prover gets through**, over a whole program.  It sends any 64-bit words, and
its halves of the correlations are what they are; the keys of `S` are those under which the verifier
accepts.  If there are more than two, then what the verifier returns is congruent to the outputs of
the program, with expected values as residues, on inputs of the prover, in which all that was to be
0 is 0, unless two of the keys show a collision of `auth_helper`, or the coefficients of some batch
with a wrong product cancel.  `hmul` is an assumption on emp-tool: `mult_mod` reduces also where a
factor is a word. -/
theorem fp_program_sound (hC : C.Valid)
    (hmul : ∀ a b, a < 2 ^ 64 → b < PR → C.F.multMod a b = a * b % PR) {correction : ℕ → ℕ}
    {A : ℕ → ℕ × ℕ} {opened : ℕ → ℕ} (hP : (blind correction A opened).Words) {D : Type}
    (authHash : List ℕ → D) (digest : D) {ops : List FpOp} (hops : ∀ op ∈ ops, op.Canonical)
    (S : Finset ℕ) (hS : ∀ δ ∈ S, δ < PR ∧
      ∃ v, (blind correction A opened).Accepts (C.withKey δ) authHash digest ops v) :
    S.card ≤ 2 ∨
    (∃ δ ∈ S, ∃ δ' ∈ S, ∃ v v',
      (blind correction A opened).Accepts (C.withKey δ) authHash digest ops v ∧
      (blind correction A opened).Accepts (C.withKey δ') authHash digest ops v' ∧
      v.engine.engine.hashed ≠ v'.engine.engine.hashed) ∨
    (∃ x, ((blind correction A opened).extractor C).program (FpExtract.start C) ops = some x ∧
      x.engine.BadBatch C) ∨
    ∃ ops' p, List.Forall₂ FpOp.SameShape (ops.map FpOp.reduceExpected) ops' ∧
      Runs.run FpPlain.step FpPlain.init ops' = some p ∧ (∀ z ∈ p.zeros, z = 0) ∧
      ∀ δ ∈ S, ∀ v, (blind correction A opened).Accepts (C.withKey δ) authHash digest ops v →
        v.out.map (List.map (· % PR)) = p.outs := by
  by_cases hcard : S.card ≤ 2
  · exact .inl hcard
  rw [not_le] at hcard
  set P := blind correction A opened with hPdef
  have hblind : ∀ e e' : FpOSTriple, e.drawn = e'.drawn → P.check e = P.check e' := fun e e' h =>
    congrArg A h
  -- the labels are the same under all keys
  have hfollow : ∀ δ ∈ S, ∀ v, P.Accepts (C.withKey δ) authHash digest ops v →
      ∃ x, (P.extractor C).program (FpExtract.start C) ops = some x ∧
        FpHalf.Related (FpExtract.AtKey C P δ) (fun M K => Auth δ M K M.val) x v := fun δ hδ v hv =>
    (extractor_follows hC hmul hP hblind (hS δ hδ).1).program hops (atKey_start hC δ)
      hv.1 trivial
  obtain ⟨δ₁, hδ₁, δ₂, hδ₂, hne⟩ := Finset.one_lt_card.mp (Nat.lt_of_succ_lt hcard)
  obtain ⟨v₁, hv₁⟩ := (hS δ₁ hδ₁).2
  obtain ⟨x, hx, hR₁⟩ := hfollow δ₁ hδ₁ v₁ hv₁
  have hall : ∀ δ ∈ S, ∀ v, P.Accepts (C.withKey δ) authHash digest ops v →
      FpHalf.Related (FpExtract.AtKey C P δ) (fun M K => Auth δ M K M.val) x v := by
    intro δ hδ v hv
    obtain ⟨x', hx', hR⟩ := hfollow δ hδ v hv
    exact Option.some_inj.mp (hx.symm.trans hx') ▸ hR
  rcases Classical.em (∃ l ∈ x.engine.opened, l.2 % PR ≠ l.1.val) with ⟨l, hl, hwrong⟩ | hopened
  · obtain ⟨v₂, hv₂⟩ := (hS δ₂ hδ₂).2
    refine .inr (.inl ⟨δ₁, hδ₁, δ₂, hδ₂, v₁, v₂, hv₁, hv₂, fun heq => hne ?_⟩)
    rw [hR₁.engine.hashed, (hall δ₂ hδ₂ v₂ hv₂).engine.hashed] at heq
    exact openWord_injective (hR₁.engine.opened l hl) hwrong (hS δ₁ hδ₁).1 (hS δ₂ hδ₂).1
      (List.map_inj_left.mp heq l hl)
  rcases Classical.em (∃ p ∈ x.engine.checked, ¬p.ProductsRight) with ⟨p, hp, hwrong⟩ | hchecked
  · refine .inr (.inr (.inl ⟨x, hx, p, hp, hwrong, mulError_eq_zero hC hmul (hP.check_lt p) hcard
      fun δ hδ => ⟨(hS δ hδ).1, ?_⟩⟩))
    obtain ⟨v, hv⟩ := (hS δ hδ).2
    exact (hall δ hδ v hv).engine.checked p hp
  · -- everything is right
    have hchecked : ∀ p ∈ x.engine.checked, p.ProductsRight := fun p hp =>
      not_not.mp fun hwrong => hchecked ⟨p, hp, hwrong⟩
    obtain ⟨s, -, hfinish⟩ := Option.bind_eq_some_iff.mp hx
    have hhonest : x.engine.Honest := ⟨hchecked, finish_productsRight hfinish hchecked,
      fun l hl => not_not.mp fun hwrong => hopened ⟨l, hl, hwrong⟩⟩
    obtain ⟨ops', p, hshape, hrun, hout, hzeros⟩ := claims_program hC hops hx hhonest
    refine .inr (.inr (.inr ⟨ops', p, hshape, hrun, hzeros, fun δ hδ v hv => ?_⟩))
    rw [← hout, (hall δ hδ v hv).out]

/-- A prover that follows the protocol, with the inputs 3 and 4, their product, and its opening. -/
def productPeer : FpPeer :=
  blind (fun i => if i = 1 then PR - 9 else if i = 4 then PR - 1 else 0)
    (fun _ => (2034121338444644159, 1491875215534932766)) fun _ => 12

/-- The program of `productPeer`. -/
def productOf (a b : ℕ) : List FpOp := [.feed [a, b], .mul 0 1, .reveal [2]]

/-- Three keys accept the opening 12, so there are inputs with that product. -/
theorem fp_program_sound_product :
    ∃ ops' p, List.Forall₂ FpOp.SameShape (productOf 0 0) ops' ∧
      Runs.run FpPlain.step FpPlain.init ops' = some p ∧ p.outs = [[12]] := by
  have hrun : ∀ δ ∈ ({3, 5, 7} : Finset ℕ), δ < PR ∧
      ((productPeer.verifier (FpSession.small.withKey δ)).program
        (FpPeer.start (FpSession.small.withKey δ)) (productOf 0 0)).map
          (fun v => (v.out, v.engine.engine.hashed)) = some ([[12]], [19]) := by
    simp only [Finset.mem_insert, Finset.mem_singleton, forall_eq_or_imp, forall_eq]
    exact ⟨by decide +kernel, by decide +kernel, by decide +kernel⟩
  have hright : ((productPeer.extractor FpSession.small).program (FpExtract.start FpSession.small)
      (productOf 0 0)).map (fun x => x.engine.checked.all fun p => (List.range p.checkCnt).all
        fun j => (p.outBuf j).val == (p.leftBuf j).val * (p.rightBuf j).val % PR) = some true := by
    decide +kernel
  have hwords : productPeer.Words := by
    refine ⟨fun i => ?_, fun _ => ?_, fun _ => ?_⟩
    · show (if i = 1 then PR - 9 else if i = 4 then PR - 1 else 0) < 2 ^ 64
      split
      · decide +kernel
      · split <;> decide +kernel
    · exact (by decide +kernel : 1491875215534932766 < 2 ^ 64)
    · exact (by decide : 12 < 2 ^ 64)
  have hops : ∀ op ∈ productOf 0 0, op.Canonical := by
    simp [productOf, FpOp.Canonical, PR_pos]
  have hS : ∀ δ ∈ ({3, 5, 7} : Finset ℕ), δ < PR ∧
      ∃ v, productPeer.Accepts (FpSession.small.withKey δ) id [19] (productOf 0 0) v := by
    intro δ hδ
    obtain ⟨v, hv, hval⟩ := Option.map_eq_some_iff.mp (hrun δ hδ).2
    exact ⟨(hrun δ hδ).1, v, hv, congrArg Prod.snd hval⟩
  rcases fp_program_sound FpSession.small_valid (fun _ _ _ _ => rfl) hwords id [19] hops {3, 5, 7}
      hS with hcard | ⟨δ, -, δ', -, v, v', hv, hv', hne⟩ | ⟨x, hx, p, hp, hwrong, -⟩ |
      ⟨ops', p, hshape, hp, -, hout⟩
  · exact absurd hcard (by decide)
  · exact absurd (hv.2.trans hv'.2.symm) hne
  · refine absurd (fun j hj => ?_) hwrong
    obtain ⟨x', hx', hall⟩ := Option.map_eq_some_iff.mp hright
    cases Option.some_inj.mp (hx.symm.trans hx')
    simpa using List.all_eq_true.mp (List.all_eq_true.mp hall p hp) j (List.mem_range.mpr hj)
  · obtain ⟨v, hv⟩ := (hS 3 (by decide)).2
    obtain ⟨v', hv', hval⟩ := Option.map_eq_some_iff.mp (hrun 3 (by decide)).2
    cases Option.some_inj.mp (hv.1.symm.trans hv')
    have hone : v.out = [[12]] := congrArg Prod.fst hval
    refine ⟨ops', p, hshape, hp, ?_⟩
    rw [← hout 3 (by decide) v hv, hone]
    decide +kernel

end FpPeer

end VoleZk
