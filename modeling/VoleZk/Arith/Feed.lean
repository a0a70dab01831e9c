import VoleZk.Arith.FpComplete
import VoleZk.Lib.Workers
import VoleZk.Mvzk.Fp59

/-!
# Feeding witnesses as they come

A witness is any 64-bit word: nothing between `IntFp` and the engine reduces it or looks at its
size.  The prover stores the word in the value lane of its label and sends the mask less the word,
which is `PR - w` computed in a machine word, added to the mask with one conditional subtraction.

So for a word from `PR` on the label does not hold the residue.  The word that is sent still has the
right class as long as the mask makes up for what `PR - w` wraps around, and is off by 8, which is
`2 ^ 64` modulo `PR`, for smaller masks.  The engine of the other family of wires reduces the same
argument before it does anything.

## What is here

* `FpOps.AddModWords` — what `add_mod` of emp-tool does with any two words;
* `FpOSTriple.valInputSend`, `FpOSTriple.valInputRecv`, `FpOSTriple.batchInputSend`,
  `FpOSTriple.batchInputRecv` — the scalar and the batch form, serial and shared out;
* `Label.Fed` — what a fed label should be;
* `FpOSTriple.feed_correct_iff` — **which words are fed correctly**;
* `FpOSTriple.lam_cast`, `FpOSTriple.feed_key` — **what is sent for the others, by mask.**
-/

set_option autoImplicit false

namespace VoleZk

/-- `add_mod` on words: the sum in a machine word, with `PR` taken off once. -/
def FpOps.AddModWords (F : FpOps) : Prop :=
  ∀ a b, a < 2 ^ 64 → b < 2 ^ 64 →
    F.addMod a b = if PR ≤ word (a + b) then word (a + b) - PR else word (a + b)

/-- `kFeedParMin`. -/
def kFeedParMin : ℕ := 2 ^ 20 - 1

/-- A label of the residue of the word `w`, as far as value and MAC go. -/
def Label.Fed (delta : ℕ) (l : Label) (w : ℕ) : Prop :=
  l.prover.val = w % PR ∧ l.prover.mac = (l.verifier.mac + w % PR * delta) % PR

instance (delta : ℕ) (l : Label) (w : ℕ) : Decidable (l.Fed delta w) :=
  inferInstanceAs (Decidable (_ ∧ _))

namespace FpOSTriple

variable (F : FpOps) (vole : ℕ → AuthVal)

/-! ## The two sides -/

/-- `lam`: the mask less the word, in words. -/
def maskedWord (mac : AuthVal) (w : ℕ) : ℕ := F.addMod mac.val (wordSub PR w)

/-- The corrected key. -/
def correctKey (delta : ℕ) (key : AuthVal) (lam : ℕ) : AuthVal :=
  let deltaLam := F.multMod lam delta
  ⟨0, F.addMod key.mac deltaLam⟩

/-- `authenticated_val_input(w)`: one label, and the word that is sent. -/
def valInputSend (e : FpOSTriple) (w : ℕ) : FpOSTriple × AuthVal × ℕ :=
  let mac := vole e.drawn
  ({ e with drawn := e.drawn + 1 }, ⟨w, mac.mac⟩, maskedWord F mac w)

/-- `authenticated_val_input()`, with the word received. -/
def valInputRecv (delta : ℕ) (e : FpOSTriple) (lam : ℕ) : FpOSTriple × AuthVal :=
  let key := vole e.drawn
  ({ e with drawn := e.drawn + 1 }, correctKey F delta key lam)

variable (order : ℕ → List ℕ)

/-- The indices as the loop of a feed visits them: in turn, or as the workers do. -/
def feedOrder (len : ℕ) : List ℕ := if len ≤ kFeedParMin then List.range len else order len

/-- `authenticated_val_input(label, w, len)`: every turn writes its cell of `label` and `lam`. -/
def batchInputSend (e : FpOSTriple) (w : List ℕ) : FpOSTriple × List AuthVal × List ℕ :=
  let len := w.length
  let cells := Workers.forEach
    (fun i (cell : AuthVal × ℕ) =>
      (⟨w.getD i 0, cell.1.mac⟩, maskedWord F cell.1 (w.getD i 0)))
    (feedOrder order len) fun i => (vole (e.drawn + i), 0)
  ({ e with drawn := e.drawn + len }, (List.range len).map fun i => (cells i).1,
    (List.range len).map fun i => (cells i).2)

/-- `authenticated_val_input(label, len)`, with the words received. -/
def batchInputRecv (delta : ℕ) (e : FpOSTriple) (lam : List ℕ) : FpOSTriple × List AuthVal :=
  let len := lam.length
  let label := Workers.forEach (fun i (key : AuthVal) => correctKey F delta key (lam.getD i 0))
    (feedOrder order len) fun i => vole (e.drawn + i)
  ({ e with drawn := e.drawn + len }, (List.range len).map label)

/-! ## One path -/

variable {F vole order}

theorem feedOrder_perm (horder : ∀ n, (order n).Perm (List.range n)) (len : ℕ) :
    (feedOrder order len).Perm (List.range len) := by
  rw [feedOrder]
  split
  · exact List.Perm.refl _
  · exact horder len

/-- **A batch is its words one after the other**, whoever visits them. -/
theorem batchInputSend_eq (horder : ∀ n, (order n).Perm (List.range n)) (e : FpOSTriple)
    (w : List ℕ) :
    (batchInputSend F vole order e w).2 = ((List.range w.length).map fun i =>
        (valInputSend F vole { e with drawn := e.drawn + i } (w.getD i 0)).2.1,
      (List.range w.length).map fun i =>
        (valInputSend F vole { e with drawn := e.drawn + i } (w.getD i 0)).2.2) := by
  refine Prod.ext ?_ ?_ <;>
  · refine List.map_congr_left fun i hi => ?_
    rw [Workers.forEach_perm_range _ (feedOrder_perm horder _), if_pos (List.mem_range.mp hi)]
    rfl

theorem batchInputRecv_eq (horder : ∀ n, (order n).Perm (List.range n)) (delta : ℕ)
    (e : FpOSTriple) (lam : List ℕ) :
    (batchInputRecv F vole order delta e lam).2 = (List.range lam.length).map fun i =>
      (valInputRecv F vole delta { e with drawn := e.drawn + i } (lam.getD i 0)).2 := by
  refine List.map_congr_left fun i hi => ?_
  rw [Workers.forEach_perm_range _ (feedOrder_perm horder _), if_pos (List.mem_range.mp hi)]
  rfl

/-- On canonical words it is the feed of a session. -/
theorem batchInputSend_eq_authenticatedValInputSend (horder : ∀ n, (order n).Perm (List.range n))
    (e : FpOSTriple) {w : List ℕ} (hw : ∀ x ∈ w, x < PR) :
    batchInputSend F vole order e w = authenticatedValInputSend F vole e w := by
  refine Prod.ext rfl ?_
  rw [batchInputSend_eq horder, authenticatedValInputSend, drawVole]
  refine Prod.ext ?_ ?_ <;>
  · refine List.ext_getElem (by simp) fun i hi hi' => ?_
    have hlen : i < w.length := by simpa using hi
    have hsub : wordSub PR w[i] = PR - w[i] :=
      wordSub_of_le (by decide) (hw _ (List.getElem_mem hlen)).le
    simp [valInputSend, maskedWord, hlen, hsub]

/-! ## What is fed -/

section Feed

variable {C : FpConfig} {M K : AuthVal} {r w : ℕ}

/-- The label of one word, on both sides. -/
def fedLabel (C : FpConfig) (M K : AuthVal) (w : ℕ) : Label :=
  ⟨⟨w, M.mac⟩, correctKey C.F C.delta K (maskedWord C.F M w)⟩

theorem word_lt (n : ℕ) : word n < 2 ^ 64 := Nat.mod_lt _ (by decide)

theorem PR_eq : PR = 2305843009213693951 := rfl

/-- **The word that is sent, by mask**: right if the mask makes up for what wraps around, and off by
8 if it does not. -/
theorem lam_cast (hF : C.F.AddModWords) (hr : M.val < PR) (hw : w < 2 ^ 64) :
    (maskedWord C.F M w : ZMod PR) = M.val - w + if w ≤ M.val + PR then 0 else 8 := by
  have hP := PR_eq
  have hsub : wordSub PR w < 2 ^ 64 := word_lt _
  have hcast : ∀ n : ℕ, ((if PR ≤ n then n - PR else n : ℕ) : ZMod PR) = n := by
    intro n
    split
    · rename_i h
      rw [Nat.cast_sub h, ZMod.natCast_self, sub_zero]
    · rfl
  -- the sum in a machine word, and the number it stands for
  obtain ⟨s, hs, hsum⟩ : ∃ s, word (M.val + wordSub PR w) = s ∧
      s + w = M.val + PR + if w ≤ M.val + PR then 0 else 2 ^ 64 := by
    refine ⟨_, rfl, ?_⟩
    rw [wordSub, word, word]
    split <;> omega
  have h := congrArg (Nat.cast : ℕ → ZMod PR) hsum
  have hwrap : ((2 ^ 64 : ℕ) : ZMod PR) = (8 : ℕ) :=
    (ZMod.natCast_eq_natCast_iff' _ _ _).mpr (by decide)
  rw [maskedWord, hF _ _ (by omega) hsub, hs, hcast]
  rw [Nat.cast_add, Nat.cast_add, Nat.cast_add, ZMod.natCast_self, add_zero, apply_ite Nat.cast,
    hwrap, Nat.cast_zero, Nat.cast_ofNat] at h
  rw [eq_sub_of_add_eq h]
  ring

/-- **The MAC relation** holds for the residue of a word as long as the mask makes up for what wraps
around. -/
theorem feed_key (hC : C.Valid) (hF : C.F.AddModWords) (h : Auth C.delta M K r)
    (hw : w < 2 ^ 64) (hle : w ≤ M.val + PR) :
    M.mac = ((fedLabel C M K w).verifier.mac + w % PR * C.delta) % PR := by
  have hP := PR_eq
  have hr : M.val < PR := h.val_eq ▸ h.val_lt
  have hsub : wordSub PR w < 2 ^ 64 := word_lt _
  have hlam : maskedWord C.F M w < PR := by
    rw [maskedWord, hF _ _ (by omega) hsub, wordSub, word, word]
    split <;> omega
  have hcast := lam_cast hF hr hw
  rw [if_pos hle, add_zero] at hcast
  have hprod := hC.canonical.multMod_lt hlam hC.delta_lt
  refine eq_of_cast_eq h.mac_lt (Nat.mod_lt _ PR_pos) ?_
  show (M.mac : ZMod PR) = _
  rw [ZMod.natCast_mod, Nat.cast_add, Nat.cast_mul, ZMod.natCast_mod, fedLabel, correctKey,
    hC.canonical.addMod_cast h.key_lt.le hprod.le (by have := h.key_lt; omega),
    hC.canonical.multMod_cast hlam hC.delta_lt, hcast, h.mac_cast, h.val_eq]
  ring

/-- **One word**: it is fed correctly exactly if it is canonical. -/
theorem fed_iff (hC : C.Valid) (h : Auth C.delta M K r) :
    (fedLabel C M K w).Fed C.delta w ↔ w < PR := by
  constructor
  · rintro ⟨hval, -⟩
    have hval' : w = w % PR := hval
    rw [hval']
    exact Nat.mod_lt _ PR_pos
  · intro hw
    have hlam : maskedWord C.F M w = C.F.addMod M.val (PR - w) := by
      rw [maskedWord, wordSub_of_le (by rw [PR_eq]; decide) hw.le]
    have hauth := auth_correct hC h hw
    rw [Label.Fed, fedLabel, correctKey, hlam, Nat.mod_eq_of_lt hw]
    exact ⟨rfl, hauth.mac_eq⟩

/-- The labels of a batch, one after the other. -/
theorem batch_labels {orderPrv orderVer : ℕ → List ℕ}
    (hPrv : ∀ n, (orderPrv n).Perm (List.range n)) (hVer : ∀ n, (orderVer n).Perm (List.range n))
    {e e' : FpOSTriple} (he : e.drawn = e'.drawn) (w : List ℕ) :
    List.zipWith Label.mk (batchInputSend C.F C.volePrv orderPrv e w).2.1
        (batchInputRecv C.F C.voleVer orderVer C.delta e'
          (batchInputSend C.F C.volePrv orderPrv e w).2.2).2
      = (List.range w.length).map fun i =>
          fedLabel C (C.volePrv (e.drawn + i)) (C.voleVer (e.drawn + i)) (w.getD i 0) := by
  refine List.ext_getElem (by simp [batchInputSend_eq hPrv, batchInputRecv_eq hVer]) ?_
  intro i hi hi'
  have hlen : i < w.length := by simpa using hi'
  simp [batchInputSend_eq hPrv, batchInputRecv_eq hVer, hlen, valInputSend, valInputRecv, fedLabel,
    he]

/-- **Which witnesses are fed correctly.**  For every correlation, hence for every mask: a word
given to `IntFp` gets a label of its residue exactly if it is below `PR`; and the words given to
`batch_feed`, in the serial and in the shared loop, do exactly if all of them are. -/
theorem feed_correct_iff (hC : C.Valid) {orderPrv orderVer : ℕ → List ℕ}
    (hPrv : ∀ n, (orderPrv n).Perm (List.range n)) (hVer : ∀ n, (orderVer n).Perm (List.range n))
    {e e' : FpOSTriple} (he : e.drawn = e'.drawn) :
    (∀ w < 2 ^ 64,
      let P := valInputSend C.F C.volePrv e w
      let V := valInputRecv C.F C.voleVer C.delta e' P.2.2
      Label.Fed C.delta ⟨P.2.1, V.2⟩ w ↔ w < PR) ∧
    ∀ w : List ℕ, (∀ x ∈ w, x < 2 ^ 64) →
      let P := batchInputSend C.F C.volePrv orderPrv e w
      let V := batchInputRecv C.F C.voleVer orderVer C.delta e' P.2.2
      List.Forall₂ (Label.Fed C.delta) (List.zipWith Label.mk P.2.1 V.2) w ↔ ∀ x ∈ w, x < PR := by
  refine ⟨fun w _ => ?_, fun w _ => ?_⟩
  · obtain ⟨r, hr⟩ := hC.vole e.drawn
    simp only [valInputSend, valInputRecv, ← he]
    exact fed_iff hC hr
  · simp only [batch_labels hPrv hVer he]
    rw [List.forall₂_iff_get, List.forall_mem_iff_getElem]
    have hfed : ∀ i (hi : i < w.length), (fedLabel C (C.volePrv (e.drawn + i))
        (C.voleVer (e.drawn + i)) (w.getD i 0)).Fed C.delta w[i] ↔ w[i] < PR := by
      intro i hi
      obtain ⟨r, hr⟩ := hC.vole (e.drawn + i)
      rw [List.getD_eq_getElem _ _ hi]
      exact fed_iff hC hr
    constructor
    · rintro ⟨-, h⟩ i hi
      exact (hfed i hi).mp (by simpa using h i (by simpa using hi) hi)
    · intro h
      exact ⟨by simp, fun i hi hi' => by simpa using (hfed i hi').mpr (h i hi')⟩

/-- The routines of residues, with `add_mod` on words. -/
def wordOps : FpOps :=
  { FpOps.residues with
    addMod := fun a b => if PR ≤ word (a + b) then word (a + b) - PR else word (a + b) }

theorem wordOps_canonical : wordOps.Canonical :=
  { FpOps.residues_canonical with
    addMod_eq := fun a b ha hb hab => by
      have hP := PR_eq
      have hword : word (a + b) = a + b := word_of_lt (by omega)
      show (if PR ≤ word (a + b) then word (a + b) - PR else word (a + b)) = (a + b) % PR
      rw [hword]
      by_cases h : PR ≤ a + b
      · rw [if_pos h, Nat.mod_eq_sub_mod h, Nat.mod_eq_of_lt (by omega)]
      · rw [if_neg h, Nat.mod_eq_of_lt (by omega)] }

/-- Two parties with the key 5 and masks 3, and these routines. -/
def wordConfig : FpConfig := { FpSession.small with F := wordOps }

theorem wordConfig_valid : wordConfig.Valid :=
  { FpSession.small_valid with canonical := wordOps_canonical }

/-- The largest residue, in a batch. -/
theorem feed_correct_iff_largest :
    let e := FpOSTriple.init wordConfig wordConfig.volePrv
    let P := batchInputSend wordOps wordConfig.volePrv List.range e [PR - 1]
    let V := batchInputRecv wordOps wordConfig.voleVer List.range 5 e P.2.2
    List.Forall₂ (Label.Fed 5) (List.zipWith Label.mk P.2.1 V.2) [PR - 1] :=
  ((feed_correct_iff wordConfig_valid (fun _ => List.Perm.refl _) (fun _ => List.Perm.refl _)
    rfl).2 [PR - 1] (by simp [PR])).mpr (by simp [PR])

/-- The largest word: the label does not hold its residue 7, and the key does not belong to it. -/
theorem feed_not_correct :
    let e := FpOSTriple.init wordConfig wordConfig.volePrv
    let P := valInputSend wordOps wordConfig.volePrv e (2 ^ 64 - 1)
    let V := valInputRecv wordOps wordConfig.voleVer 5 e P.2.2
    ¬Label.Fed 5 ⟨P.2.1, V.2⟩ (2 ^ 64 - 1) ∧ P.2.1.val ≠ 7 ∧
      P.2.1.mac ≠ (V.2.mac + 7 * 5) % PR := by
  decide +kernel

end Feed

end FpOSTriple

end VoleZk
