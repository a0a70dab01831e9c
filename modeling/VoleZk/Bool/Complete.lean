import VoleZk.Bool.ZKBool
import VoleZk.Lib.Chunks
import Mathlib.Data.List.GetD

/-!
# Completeness of the Boolean engine

Whatever program the two parties run, every wire keeps its MAC relation, and the checks pass.

## What is here

* `BoolConfig.publicBlock_auth` and its siblings — **one lemma per gate**;
* `ZKBool.Slots` — the invariant of the gate buffers between two checks;
* `ZKBool.checkManage_eq_some` — **the batch check of honest gates accepts**, whatever the numbers
  of workers;
* `BoolSession.Inv`, `BoolSession.step_rel` — one operation, by both parties and in plain;
* `BoolSession.program_complete` — **a whole program**.
-/

set_option autoImplicit false

open Finset

namespace VoleZk

/-- The two halves of `l` are a wire of value `b`. -/
def BitLabel.Of (delta : Block) (l : BitLabel) (b : Bool) : Prop :=
  BitAuth delta l.prover l.verifier b

/-! ## Gates -/

namespace BoolConfig

variable {C : BoolConfig} {l r : BitLabel} {a b : Bool}

theorem publicBlock_auth (hC : C.Valid) (b : Bool) : (C.publicBlock b).Of C.delta b := by
  have hdelta : C.delta.getLsbD 0 = true := hC.delta_lsb
  have hclear : ∀ x : Block, (clearLsb x).getLsbD 0 = false := fun x => by
    rw [getLsbD_clearLsb]
    rfl
  cases b with
  | false => exact ⟨by simp [publicBlock, pubLabelPrv, pubLabelVer], hclear _, hclear _⟩
  | true =>
    refine ⟨?_, ?_, ?_⟩
    · show clearLsb C.prp.2 ^^^ 1 = clearLsb C.prp.2 ^^^ (C.delta ^^^ 1) ^^^ C.delta
      rw [BitVec.xor_assoc, BitVec.xor_assoc, BitVec.xor_comm 1 C.delta, ← BitVec.xor_assoc C.delta,
        BitVec.xor_self, BitVec.zero_xor]
    · show (clearLsb C.prp.2 ^^^ 1).getLsbD 0 = true
      rw [BitVec.getLsbD_xor, hclear]
      rfl
    · show (clearLsb C.prp.2 ^^^ (C.delta ^^^ 1)).getLsbD 0 = false
      rw [BitVec.getLsbD_xor, BitVec.getLsbD_xor, hclear, hdelta]
      rfl

theorem xorBlock_auth (hl : l.Of C.delta a) (hr : r.Of C.delta b) :
    (xorBlock l r).Of C.delta (a ^^ b) := BitAuth.xor hl hr

theorem notBlock_auth (hC : C.Valid) (hl : l.Of C.delta a) : (C.notBlock l).Of C.delta !a := by
  -- negation is the exclusive or with a wire of value 1 and halves `1`, `zdelta`
  have hone : BitAuth C.delta 1 C.zdelta true := by
    have hdelta : C.delta.getLsbD 0 = true := hC.delta_lsb
    refine ⟨?_, rfl, ?_⟩
    · show 1 = (C.delta ^^^ 1) ^^^ C.delta
      rw [BitVec.xor_comm C.delta, BitVec.xor_assoc, BitVec.xor_self, BitVec.xor_zero]
    · show (C.delta ^^^ 1).getLsbD 0 = false
      rw [BitVec.getLsbD_xor, hdelta]
      rfl
  have h := BitAuth.xor hl hone
  rwa [Bool.xor_true] at h

end BoolConfig

namespace ZKBool

variable {C : BoolConfig} {p v : ZKBool} {c : ℕ}

theorem getD_map_range {α : Type*} (f : ℕ → α) {d : α} {n i : ℕ} (hi : i < n) :
    ((List.range n).map f).getD i d = f i := by
  rw [List.getD_eq_getElem _ _ (by simpa using hi)]
  simp

/-! ## Inputs -/

theorem order_perm {C : BoolConfig} {order : ℕ → List ℕ} (h : ∀ n, (order n).Perm (List.range n))
    (n : ℕ) : (if n ≤ C.kFeedParMin then List.range n else order n).Perm (List.range n) := by
  split
  · exact List.Perm.refl _
  · exact h n

/-- **Fed bits**, by either path on either side. -/
theorem authenticatedBitsInput_auth (hC : C.Valid) (hdrawn : p.drawn = v.drawn)
    (input : List Bool) :
    let P := authenticatedBitsInputSend C p input
    let V := authenticatedBitsInputRecv C v P.2.2
    List.Forall₂ (BitLabel.Of C.delta) (List.zipWith BitLabel.mk P.2.1 V.2) input := by
  simp only [authenticatedBitsInputSend, authenticatedBitsInputRecv, List.length_map,
    List.length_range, List.forall₂_iff_get]
  refine ⟨by simp, fun i _ hi => ?_⟩
  have hcot := hC.cot (v.drawn + i)
  have hauth := hcot.correct hC.delta_lsb input[i]
  simp only [List.get_eq_getElem, List.getElem_zipWith, List.getElem_map, List.getElem_range,
    Workers.forEach_perm_range _ (order_perm hC.orderPrv _),
    Workers.forEach_perm_range _ (order_perm hC.orderVer _), if_pos hi, hdrawn]
  rw [getD_map_range _ hi, if_pos hi, List.getD_eq_getElem _ _ hi, Bool.xor_comm]
  exact hauth

/-! ## The buffers between two checks -/

/-- The buffers of the two parties when the batch has `c` gates. -/
def Slots (delta : Block) (p v : ZKBool) (c : ℕ) : Prop :=
  ∀ j < c, ∃ a b, BitAuth delta (p.slots j).left (v.slots j).left a ∧
    BitAuth delta (p.slots j).right (v.slots j).right b ∧
    BitAuth delta (p.slots j).out (v.slots j).out (a && b)

/-- **One gate**: the next slot is used, and its wire is the conjunction. -/
theorem Slots.andSlot (hC : C.Valid) (h : Slots C.delta p v p.checkCnt)
    (hcnt : p.checkCnt = v.checkCnt) (hdrawn : p.drawn = v.drawn) {l r : BitLabel} {a b : Bool}
    (hl : l.Of C.delta a) (hr : r.Of C.delta b) :
    let P := authComputeAndSend C p l.prover r.prover
    let V := authComputeAndRecv C v l.verifier r.verifier P.2.2
    Slots C.delta P.1 V.1 (p.checkCnt + 1) ∧ BitLabel.Of C.delta ⟨P.2.1, V.2⟩ (a && b) := by
  have hout := (hC.cot p.drawn).correct hC.delta_lsb (a && b)
  rw [hdrawn] at hout
  simp only [authComputeAndSend, authComputeAndRecv, hdrawn, hl.lsb_eq, hr.lsb_eq]
  refine ⟨fun j hj => ?_, hout⟩
  by_cases hjc : j = p.checkCnt
  · refine ⟨a, b, ?_⟩
    simp only [← hcnt, hjc, Function.update_self]
    exact ⟨hl, hr, hout⟩
  · simp only [← hcnt, Function.update_of_ne hjc]
    exact h j (by omega)

/-- The slots visited by a wave. -/
theorem forEach_wave {g : ℕ → GateSlot → GateSlot} {order : List ℕ} {base take : ℕ}
    (horder : order.Perm (List.range take)) (slots : ℕ → GateSlot) (j : ℕ) :
    Workers.forEach g (order.map (base + ·)) slots j
      = if base ≤ j ∧ j < base + take then g j (slots j) else slots j := by
  have hnodup : (order.map (base + ·)).Nodup :=
    (horder.nodup_iff.mpr List.nodup_range).map (add_right_injective base)
  have hmem : j ∈ order.map (base + ·) ↔ base ≤ j ∧ j < base + take := by
    simp only [List.mem_map, horder.mem_iff, List.mem_range]
    constructor
    · rintro ⟨i, hi, rfl⟩
      omega
    · exact fun h => ⟨j - base, by omega, by omega⟩
  simp only [Workers.forEach_apply g hnodup, hmem]

/-- The slots of the prover after a wave. -/
theorem waveSend_slots (hC : C.Valid) (p : ZKBool) (ab : List (Block × Block)) (j : ℕ) :
    (waveSend C p ab).1.slots j = if p.checkCnt ≤ j ∧ j < p.checkCnt + ab.length then
      waveGateSend C p ab (j - p.checkCnt) else p.slots j := by
  exact forEach_wave (g := fun j _ => waveGateSend C p ab (j - p.checkCnt))
    (hC.orderPrv ab.length) p.slots j

/-- The slots of the verifier after a wave. -/
theorem waveRecv_slots (hC : C.Valid) (v : ZKBool) (ab : List (Block × Block)) (bits : List Bool)
    (j : ℕ) :
    (waveRecv C v ab bits).1.slots j = if v.checkCnt ≤ j ∧ j < v.checkCnt + ab.length then
      waveGateRecv C v ab (j - v.checkCnt)
        { v.slots j with bit := bits.getD (j - v.checkCnt) false } else v.slots j := by
  show Workers.forEach _ _ (Workers.forEach _ _ v.slots) j = _
  rw [forEach_wave (hC.orderVer _), forEach_wave (List.Perm.refl _)]
  by_cases hj : v.checkCnt ≤ j ∧ j < v.checkCnt + ab.length
  · rw [if_pos hj, if_pos hj, if_pos hj]
  · rw [if_neg hj, if_neg hj, if_neg hj]

/-- **One gate of a wave**, on the two sides. -/
theorem waveGate_auth (hC : C.Valid) (hdrawn : p.drawn = v.drawn) {ab : List (BitLabel × BitLabel)}
    {xy : List (Bool × Bool)}
    (hab : List.Forall₂ (fun l x => l.1.Of C.delta x.1 ∧ l.2.Of C.delta x.2) ab xy) {i : ℕ}
    (hi : i < ab.length) (slot : GateSlot) (hbit : slot.bit
      = (waveGateSend C p (ab.map fun x => (x.1.prover, x.2.prover)) i).bit) :
    ∃ x y, xy[i]? = some (x, y) ∧
      let P := waveGateSend C p (ab.map fun x => (x.1.prover, x.2.prover)) i
      let V := waveGateRecv C v (ab.map fun x => (x.1.verifier, x.2.verifier)) i slot
      BitAuth C.delta P.left V.left x ∧ BitAuth C.delta P.right V.right y ∧
        BitAuth C.delta P.out V.out (x && y) := by
  have hi' : i < xy.length := hab.length_eq ▸ hi
  have hauth := hab.get hi hi'
  have hprv : (ab.map fun x => (x.1.prover, x.2.prover)).getD i (0, 0)
      = (ab[i].1.prover, ab[i].2.prover) := by
    rw [List.getD_eq_getElem _ _ (by simpa using hi), List.getElem_map]
  have hver : (ab.map fun x => (x.1.verifier, x.2.verifier)).getD i (0, 0)
      = (ab[i].1.verifier, ab[i].2.verifier) := by
    rw [List.getD_eq_getElem _ _ (by simpa using hi), List.getElem_map]
  have hl : lsb ab[i].1.prover = xy[i].1 := hauth.1.lsb_eq
  have hr : lsb ab[i].2.prover = xy[i].2 := hauth.2.lsb_eq
  have hout := (hC.cot (p.drawn + i)).correct hC.delta_lsb (xy[i].1 && xy[i].2)
  refine ⟨xy[i].1, xy[i].2, List.getElem?_eq_getElem hi', ?_⟩
  simp only [waveGateSend, waveGateRecv, hprv, hver, hl, hr] at hbit ⊢
  rw [hbit, ← hdrawn]
  exact ⟨hauth.1, hauth.2, hout⟩

/-- **A wave of gates.** -/
theorem Slots.wave (hC : C.Valid) (h : Slots C.delta p v p.checkCnt)
    (hcnt : p.checkCnt = v.checkCnt) (hdrawn : p.drawn = v.drawn) {ab : List (BitLabel × BitLabel)}
    {xy : List (Bool × Bool)}
    (hab : List.Forall₂ (fun l x => l.1.Of C.delta x.1 ∧ l.2.Of C.delta x.2) ab xy) :
    let P := waveSend C p (ab.map fun x => (x.1.prover, x.2.prover))
    let V := waveRecv C v (ab.map fun x => (x.1.verifier, x.2.verifier)) P.2.2
    Slots C.delta P.1 V.1 (p.checkCnt + ab.length) ∧
      List.Forall₂ (BitLabel.Of C.delta) (List.zipWith BitLabel.mk P.2.1 V.2)
        (xy.map fun x => x.1 && x.2) := by
  set prv := ab.map fun x => (x.1.prover, x.2.prover) with hprv
  set ver := ab.map fun x => (x.1.verifier, x.2.verifier) with hver
  have hlenP : prv.length = ab.length := List.length_map _
  have hlenV : ver.length = ab.length := List.length_map _
  -- the masking bits that the verifier has when it computes gate `i`
  have hbits : ∀ i < ab.length, (waveSend C p prv).2.2.getD i false
      = (waveGateSend C p prv i).bit := by
    intro i hi
    have hslot := waveSend_slots hC p prv (p.checkCnt + i)
    rw [if_pos ⟨Nat.le_add_right _ _, by omega⟩, Nat.add_sub_cancel_left] at hslot
    exact (getD_map_range _ (hlenP ▸ hi)).trans (congrArg GateSlot.bit hslot)
  have hgate : ∀ i (hi : i < ab.length), ∃ x y, xy[i]? = some (x, y) ∧
      BitAuth C.delta ((waveSend C p prv).1.slots (p.checkCnt + i)).left
        ((waveRecv C v ver (waveSend C p prv).2.2).1.slots (p.checkCnt + i)).left x ∧
      BitAuth C.delta ((waveSend C p prv).1.slots (p.checkCnt + i)).right
        ((waveRecv C v ver (waveSend C p prv).2.2).1.slots (p.checkCnt + i)).right y ∧
      BitAuth C.delta ((waveSend C p prv).1.slots (p.checkCnt + i)).out
        ((waveRecv C v ver (waveSend C p prv).2.2).1.slots (p.checkCnt + i)).out (x && y) := by
    intro i hi
    rw [waveSend_slots hC, waveRecv_slots hC, ← hcnt,
      if_pos ⟨Nat.le_add_right _ _, by omega⟩, if_pos ⟨Nat.le_add_right _ _, by omega⟩,
      Nat.add_sub_cancel_left]
    exact waveGate_auth hC hdrawn hab hi _ (hbits i hi)
  refine ⟨fun j hj => ?_, ?_⟩
  · by_cases hjc : j < p.checkCnt
    · rw [waveSend_slots hC, waveRecv_slots hC, if_neg (by omega), if_neg (by omega)]
      exact h j hjc
    · obtain ⟨x, y, -, hxy⟩ := hgate (j - p.checkCnt) (by omega)
      rw [Nat.add_sub_cancel' (not_lt.mp hjc)] at hxy
      exact ⟨x, y, hxy⟩
  · rw [List.forall₂_iff_get]
    have hlen : xy.length = ab.length := hab.length_eq.symm
    refine ⟨by simp [waveSend, waveRecv, hlenP, hlenV, hlen], fun i hi hi' => ?_⟩
    have hiab : i < ab.length := by
      rw [List.length_map] at hi'
      omega
    obtain ⟨x, y, hxy, -, -, hout⟩ := hgate i hiab
    rw [List.getElem?_eq_some_iff] at hxy
    obtain ⟨hix, hxy⟩ := hxy
    have hval : (xy.map fun x => x.1 && x.2).get ⟨i, hi'⟩ = (x && y) := by
      rw [List.get_eq_getElem, List.getElem_map, hxy]
    rw [hval]
    simp only [List.get_eq_getElem, List.getElem_zipWith]
    simpa [BitLabel.Of, waveSend, waveRecv, hcnt] using hout

/-! ## The batch check -/

section Check

variable {R : Type*} [CommRing R] {φ : Block → R} (hG : C.G.Lawful φ)

include hG

theorem reduce_zero : C.G.reduce 0 0 = 0 := by
  have h := hG.reduce_xor 0 0 0 0
  rw [BitVec.xor_self, BitVec.xor_self] at h
  exact h

theorem map_ite (b : Bool) (x : Block) : φ (if b then x else 0) = (if b then 1 else 0) * φ x := by
  cases b
  · rw [if_neg Bool.false_ne_true, if_neg Bool.false_ne_true, zero_mul]
    exact Gf2k.map_zero hG.xor
  · rw [if_pos rfl, if_pos rfl, one_mul]

theorem map_foldl_xor (l : List Block) (a : Block) :
    φ (l.foldl (fun agg s => agg ^^^ s) a) = φ a + (l.map φ).sum := by
  induction l generalizing a with
  | nil => simp
  | cons b l ih =>
    rw [List.foldl_cons, ih, hG.xor, List.map_cons, List.sum_cons]
    ring

/-- The first `n` chunks of an inner product. -/
theorem reduce_chunks (chi term : ℕ → Block) (start taskN n : ℕ) :
    let acc := (List.range n).foldl (fun acc c =>
      let base := c * 1024
      let m := if taskN - base < 1024 then taskN - base else 1024
      let p := C.G.innPrdtSumNoRed m (fun i => chi (start + base + i))
        fun i => term (start + base + i)
      (acc.1 ^^^ p.1, acc.2 ^^^ p.2)) ((0, 0) : Block × Block)
    φ (C.G.reduce acc.1 acc.2)
      = ∑ k ∈ range (min taskN (n * 1024)), φ (chi (start + k)) * φ (term (start + k)) := by
  induction n with
  | zero =>
    simp only [List.range_zero, List.foldl_nil, Nat.zero_mul, Nat.min_zero, sum_range_zero]
    rw [reduce_zero hG]
    exact Gf2k.map_zero hG.xor
  | succ n ih =>
    have hm : min taskN ((n + 1) * 1024)
        = min taskN (n * 1024) + (if taskN - n * 1024 < 1024 then taskN - n * 1024 else 1024) := by
      split <;> omega
    have hbase : ∀ i, i < (if taskN - n * 1024 < 1024 then taskN - n * 1024 else 1024) →
        start + n * 1024 + i = start + (min taskN (n * 1024) + i) := by
      intro i hi
      split at hi <;> omega
    simp only [List.range_succ, List.foldl_append, List.foldl_cons, List.foldl_nil]
    rw [hG.reduce_xor, hG.xor, ih, hG.reduce_innPrdtSumNoRed, hm, sum_range_add]
    refine congrArg₂ (· + ·) rfl (sum_congr rfl fun i hi => ?_)
    rw [hbase i (mem_range.mp hi)]

/-- The sum of a slice. -/
theorem map_sliceSum (chi term : ℕ → Block) (start taskN : ℕ) :
    φ (sliceSum C chi term start taskN)
      = ∑ k ∈ range taskN, φ (chi (start + k)) * φ (term (start + k)) := by
  rw [sliceSum]
  split
  · rename_i h
    rw [h, sum_range_zero]
    exact Gf2k.map_zero hG.xor
  · have hall : min taskN ((taskN + 1023) / 1024 * 1024) = taskN := by omega
    exact (reduce_chunks hG chi term start taskN _).trans (by rw [hall])

/-- **All workers**: the split does not show in the sum. -/
theorem map_checkSum (threads : ℕ) (e : ZKBool) (chi term : ℕ → Block) :
    φ (checkSum C threads e chi term) = ∑ k ∈ range e.checkCnt, φ (chi k) * φ (term k) := by
  rw [checkSum, map_foldl_xor hG, Gf2k.map_zero hG.xor, zero_add, List.map_map,
    ← Workers.sum_split (fun k => φ (chi k) * φ (term k)) threads]
  exact congrArg List.sum (List.map_congr_left fun r _ => map_sliceSum hG chi term r.1 r.2)

theorem map_mac {M K : Block} {b : Bool} (h : BitAuth C.delta M K b) :
    φ M = φ K + (if b then 1 else 0) * φ C.delta := by
  rw [h.mac_eq, hG.xor, map_ite hG]

/-- **One gate**: the prover's line at the key is the verifier's term. -/
theorem map_term {j : ℕ} (h : Slots C.delta p v c) (hj : j < c) :
    φ (termA0 C p j) + φ (termA1 p j) * φ C.delta = φ (termB C v j) := by
  obtain ⟨a, b, ha, hb, hout⟩ := h j hj
  have hand : (if (a && b) then 1 else 0 : R) = (if a then 1 else 0) * if b then 1 else 0 := by
    cases a <;> cases b <;> simp
  rw [termA0, termA1, termB, hG.gfmul, hG.xor, hG.xor, hG.xor, hG.gfmul, hG.gfmul, ha.lsb_eq,
    hb.lsb_eq, map_ite hG, map_ite hG, map_mac hG ha, map_mac hG hb, map_mac hG hout, hand]
  generalize (if a then 1 else 0 : R) = x
  generalize (if b then 1 else 0 : R) = y
  linear_combination (x * φ C.delta * φ (v.slots j).right + y * φ C.delta * φ (v.slots j).left
    + 2 * x * y * φ C.delta ^ 2) * hG.two_eq_zero

end Check

theorem testBit_foldr (l : List Bool) (i : ℕ) :
    (l.foldr (fun (bit : Bool) (ch : ℕ) => 2 * ch + bit.toNat) 0).testBit i = l.getD i false := by
  induction l generalizing i with
  | nil => simp
  | cons b l ih =>
    cases i with
    | zero => cases b <;> simp
    | succ i =>
      rw [List.foldr_cons, Nat.testBit_succ, List.getD_cons_succ, ← ih]
      congr 1
      cases b
      · simp
      · simp only [Bool.toNat_true]
        omega

/-- Place `i` of the masking block is the bit of COT `i`. -/
theorem getLsbD_chBlock (opeData : ℕ → Block) {i : ℕ} (hi : i < 128) :
    (chBlock opeData).getLsbD i = lsb (opeData i) := by
  rw [chBlock, BitVec.getLsbD_append]
  by_cases h : i < 64
  · rw [if_pos h, BitVec.getLsbD_ofNat, chWord, testBit_foldr, getD_map_range _ h]
    simp [h]
  · rw [if_neg h, BitVec.getLsbD_ofNat, chWord, testBit_foldr, getD_map_range _ (by omega),
      show 64 * 1 + (i - 64) = i by omega]
    simp [show i - 64 < 64 by omega]

/-- **Packing authenticated bits** gives a MAC and a key for the word of the bits. -/
theorem map_packing_auth {R : Type*} [CommRing R] {φ : Block → R} (hG : C.G.Lawful φ)
    {M K : ℕ → Block} {v : Block} (h : ∀ i < 128, BitAuth C.delta (M i) (K i) (v.getLsbD i)) :
    φ (C.G.packing M) = φ (C.G.packing K) + φ v * φ C.delta := by
  rw [hG.packing, hG.packing, Gf2k.map_eq_sum_bits hG.xor v, sum_mul, ← sum_add_distrib]
  refine sum_congr rfl fun i hi => ?_
  rw [map_mac hG (h i (mem_range.mp hi))]
  split <;> ring

/-- **The masks**: the packed COTs of the prover, the packed keys and the packed bits. -/
theorem map_packing {R : Type*} [CommRing R] {φ : Block → R} (hG : C.G.Lawful φ) (hC : C.Valid)
    (d : ℕ) :
    φ (C.G.packing fun i => C.cotPrv (d + i))
      = φ (C.G.packing fun i => C.cotVer (d + i))
        + φ (chBlock fun i => C.cotPrv (d + i)) * φ C.delta := by
  refine map_packing_auth hG fun i hi => ?_
  rw [getLsbD_chBlock _ hi]
  exact hC.cot (d + i)

/-- **The batch check of honest gates accepts.** -/
theorem checkManage_eq_some {R : Type*} [CommRing R] {φ : Block → R} (hG : C.G.Lawful φ)
    (hC : C.Valid) (h : Slots C.delta p v p.checkCnt) (hcnt : p.checkCnt = v.checkCnt)
    (hdrawn : p.drawn = v.drawn) (htranscript : p.transcript = v.transcript) :
    checkManageRecv C v (checkManageSend C p).2 = some { v with
      drawn := v.drawn + 128
      transcript := v.transcript ++
        [Msg.data (checkManageSend C p).2.1, Msg.data (checkManageSend C p).2.2] } := by
  refine if_pos (hG.injective ?_)
  have hsum : ∑ k ∈ range v.checkCnt,
        φ (C.prg (C.digest v.transcript) k) * φ (termB C v k)
      = ∑ k ∈ range v.checkCnt, φ (C.prg (C.digest v.transcript) k) * φ (termA0 C p k)
        + (∑ k ∈ range v.checkCnt, φ (C.prg (C.digest v.transcript) k) * φ (termA1 p k))
          * φ C.delta := by
    rw [sum_mul, ← sum_add_distrib]
    refine sum_congr rfl fun k hk => ?_
    rw [← map_term hG h (hcnt ▸ mem_range.mp hk)]
    ring
  simp only [checkManageSend, hG.xor, hG.gfmul, map_checkSum hG, hcnt, hdrawn, htranscript, hsum,
    map_packing hG hC]
  linear_combination φ (chBlock fun i => C.cotPrv (v.drawn + i)) * φ C.delta * hG.two_eq_zero

end ZKBool

namespace BoolSession

open ZKBool

variable {C : BoolConfig} {s : BoolSession} {p : BoolPlain}

/-! ## The two parties and the plain program -/

/-- The invariant of a run: the engines are in step, the buffers hold the gates of the batch, every
wire carries its value, and the parties have sent and hashed the same. -/
structure Inv (C : BoolConfig) (s : BoolSession) (p : BoolPlain) : Prop where
  /-- The parties have drawn the same COTs. -/
  drawn : s.prover.drawn = s.verifier.drawn
  /-- The parties are at the same place in the batch. -/
  cnt : s.prover.checkCnt = s.verifier.checkCnt
  /-- The batch is not over full. -/
  cnt_le : s.prover.checkCnt ≤ C.checkSz
  /-- The parties have seen the same transcript. -/
  transcript : s.prover.transcript = s.verifier.transcript
  /-- The buffers. -/
  slots : Slots C.delta s.prover s.verifier s.prover.checkCnt
  /-- **Every wire carries its value.** -/
  wires : List.Forall₂ (BitLabel.Of C.delta) s.wires p.vals
  /-- The prover's reveals. -/
  outPrv : s.outPrv = p.outPrv
  /-- The verifier's reveals. -/
  outVer : s.outVer = p.outVer
  /-- The parties have hashed the same blocks. -/
  hashed : s.prover.hashed = s.verifier.hashed

theorem Inv.init : Inv C BoolSession.init BoolPlain.init where
  drawn := rfl
  cnt := rfl
  cnt_le := Nat.zero_le _
  transcript := rfl
  slots j hj := absurd hj (Nat.not_lt_zero j)
  wires := List.Forall₂.nil
  outPrv := rfl
  outVer := rfl
  hashed := rfl

theorem Inv.push (h : Inv C s p) {ls : List BitLabel} {vs : List Bool}
    (hls : List.Forall₂ (BitLabel.Of C.delta) ls vs) : Inv C (s.push ls) (p.push vs) :=
  { h with wires := List.rel_append h.wires hls }

/-! ### Looking wires up -/

theorem Inv.labels (h : Inv C s p) (is : List ℕ) :
    Option.Rel (List.Forall₂ (BitLabel.Of C.delta)) (s.labels is) (p.values is) :=
  Runs.mapM_getElem?_rel h.wires is

/-! ### Inputs -/

theorem Inv.authenticatedBitsInput (hC : C.Valid) (h : Inv C s p) (input : List Bool) :
    Inv C (BoolSession.authenticatedBitsInput C s input) (p.push input) := by
  have hout := authenticatedBitsInput_auth hC h.drawn input
  refine { h with
    drawn := ?_, transcript := ?_, slots := h.slots, wires := List.rel_append h.wires hout }
  · show s.prover.drawn + input.length = s.verifier.drawn + (List.map _ _).length
    rw [h.drawn, List.length_map, List.length_range]
  · exact congrArg (· ++ _) h.transcript

theorem publicBlocks_auth (hC : C.Valid) (input : List Bool) :
    List.Forall₂ (BitLabel.Of C.delta) (input.map C.publicBlock) input := by
  induction input with
  | nil => exact List.Forall₂.nil
  | cons b input ih => exact List.Forall₂.cons (BoolConfig.publicBlock_auth hC b) ih

/-! ### AND gates -/

section Check

variable {R : Type*} [CommRing R] {φ : Block → R}

/-- A check passes, and the engines stay in step. -/
theorem Inv.checkManage (hG : C.G.Lawful φ) (hC : C.Valid) (h : Inv C s p) :
    ∃ s', BoolSession.checkManage C s = some s' ∧ Inv C s' p := by
  have hv := checkManage_eq_some hG hC h.slots h.cnt h.drawn h.transcript
  refine ⟨_, congrArg (Option.map _) hv, { h with drawn := ?_, transcript := ?_ }⟩
  · exact congrArg (· + 128) h.drawn
  · exact congrArg (· ++ _) h.transcript

/-- An AND gate finds room in the batch. -/
theorem Inv.ready (hG : C.G.Lawful φ) (hC : C.Valid) (h : Inv C s p) :
    ∃ s', BoolSession.ready C s = some s' ∧ Inv C s' p ∧ s'.prover.checkCnt < C.checkSz := by
  have hcnt := h.cnt
  have hle := h.cnt_le
  rw [BoolSession.ready]
  by_cases hfull : s.prover.checkCnt = C.checkSz
  · obtain ⟨s', hs', h'⟩ := h.checkManage hG hC
    rw [if_pos ⟨hfull, hcnt ▸ hfull⟩, hs', Option.map_some]
    exact ⟨_, rfl, { h' with
      cnt := rfl, cnt_le := Nat.zero_le _, slots := fun j hj => absurd hj (Nat.not_lt_zero j) },
      hC.checkSz_pos⟩
  · rw [if_neg fun hboth => hfull hboth.1, if_neg (by omega)]
    exact ⟨s, rfl, h, by omega⟩

theorem Inv.andSlot (hC : C.Valid) (h : Inv C s p) (hlt : s.prover.checkCnt < C.checkSz)
    {l r : BitLabel} {a b : Bool} (hl : l.Of C.delta a) (hr : r.Of C.delta b) :
    Inv C (BoolSession.andSlot C s l r).1 p ∧
      (BoolSession.andSlot C s l r).2.Of C.delta (a && b) := by
  obtain ⟨hslots, hout⟩ := h.slots.andSlot hC h.cnt h.drawn hl hr
  exact ⟨{ h with
    drawn := congrArg (· + 1) h.drawn, cnt := congrArg (· + 1) h.cnt, cnt_le := hlt,
    transcript := congrArg (· ++ _) h.transcript, slots := hslots }, hout⟩

theorem Inv.andBlock (hG : C.G.Lawful φ) (hC : C.Valid) (h : Inv C s p) {l r : BitLabel}
    {a b : Bool} (hl : l.Of C.delta a) (hr : r.Of C.delta b) :
    ∃ s' c, BoolSession.andBlock C s l r = some (s', c) ∧ Inv C s' p ∧ c.Of C.delta (a && b) := by
  obtain ⟨s', hready, h', hlt⟩ := h.ready hG hC
  obtain ⟨hs, hout⟩ := h'.andSlot hC hlt hl hr
  exact ⟨_, _, by rw [BoolSession.andBlock, hready, Option.map_some], hs, hout⟩

theorem Inv.wave (hC : C.Valid) (h : Inv C s p) {ab : List (BitLabel × BitLabel)}
    {xy : List (Bool × Bool)}
    (hab : List.Forall₂ (fun l x => l.1.Of C.delta x.1 ∧ l.2.Of C.delta x.2) ab xy)
    (hle : s.prover.checkCnt + ab.length ≤ C.checkSz) :
    Inv C (BoolSession.wave C s ab).1 p ∧
      List.Forall₂ (BitLabel.Of C.delta) (BoolSession.wave C s ab).2
        (xy.map fun x => x.1 && x.2) := by
  obtain ⟨hslots, hout⟩ := h.slots.wave hC h.cnt h.drawn hab
  have hlenP : (ab.map fun x => (x.1.prover, x.2.prover)).length = ab.length := List.length_map _
  have hlenV : (ab.map fun x => (x.1.verifier, x.2.verifier)).length = ab.length :=
    List.length_map _
  refine ⟨{ h with
    drawn := ?_, cnt := ?_, cnt_le := ?_, transcript := congrArg (· ++ _) h.transcript,
    slots := ?_ }, hout⟩
  · exact congrArg₂ (· + ·) h.drawn (hlenP.trans hlenV.symm)
  · exact congrArg₂ (· + ·) h.cnt (hlenP.trans hlenV.symm)
  · exact (congrArg (s.prover.checkCnt + ·) hlenP).trans_le hle
  · have hcnt : s.prover.checkCnt + (ab.map fun x => (x.1.prover, x.2.prover)).length
        = s.prover.checkCnt + ab.length := congrArg _ hlenP
    exact fun j hj => hslots j (hj.trans_eq hcnt)

/-- One turn of the vectorized `and_block`. -/
theorem andBlocks_of_ready {s s' : BoolSession} {ab : List (BitLabel × BitLabel)} (hnil : ab ≠ [])
    (hready : BoolSession.ready C s = some s') (h : Inv C s' p)
    (hroom : 0 < C.checkSz - s'.prover.checkCnt) :
    BoolSession.andBlocks C s ab =
      (BoolSession.andBlocks C
          (BoolSession.wave C s' (ab.take (min (C.checkSz - s'.prover.checkCnt) ab.length))).1
          (ab.drop (min (C.checkSz - s'.prover.checkCnt) ab.length))).map fun x =>
        (x.1, (BoolSession.wave C s'
          (ab.take (min (C.checkSz - s'.prover.checkCnt) ab.length))).2 ++ x.2) := by
  have hpos : 0 < ab.length := List.length_pos_of_ne_nil hnil
  have htake : min (C.checkSz - s'.prover.checkCnt) ab.length ≠ 0 := by omega
  have hboth : ¬ (min (C.checkSz - s'.prover.checkCnt) ab.length = 0 ∨
      min (C.checkSz - s'.prover.checkCnt) ab.length
        ≠ min (C.checkSz - s'.verifier.checkCnt) ab.length) := by simp [← h.cnt, htake]
  rw [BoolSession.andBlocks, dif_neg hnil, hready, Option.bind_some]
  exact dif_neg hboth

/-- **Gates crossing any number of checks.** -/
theorem Inv.andBlocks (hG : C.G.Lawful φ) (hC : C.Valid) {s : BoolSession} (h : Inv C s p)
    {ab : List (BitLabel × BitLabel)} {xy : List (Bool × Bool)}
    (hab : List.Forall₂ (fun l x => l.1.Of C.delta x.1 ∧ l.2.Of C.delta x.2) ab xy) :
    ∃ s' cs, BoolSession.andBlocks C s ab = some (s', cs) ∧ Inv C s' p ∧
      List.Forall₂ (BitLabel.Of C.delta) cs (xy.map fun x => x.1 && x.2) := by
  have hnil : ∀ s, BoolSession.andBlocks C s [] = some (s, []) := fun s => by
    rw [BoolSession.andBlocks, dif_pos rfl]
  have hready : ∀ s, Inv C s p → ∃ s', BoolSession.ready C s = some s' ∧ Inv C s' p ∧
      0 < C.checkSz - s'.prover.checkCnt := fun s hs => by
    obtain ⟨s', hs', h', hlt⟩ := hs.ready hG hC
    exact ⟨s', hs', h', Nat.sub_pos_of_lt hlt⟩
  refine Chunks.exists_loop hnil hready
    (fun _ _ _ hne hr h' hroom => andBlocks_of_ready hne hr h' hroom)
    (fun s ab xy hs hab hle => ?_) h hab
  have hcnt := hs.cnt_le
  exact hs.wave hC hab (by omega)

/-! ### Outputs -/

/-- Revealed wires: the bits are the plain ones, and both parties hash the same blocks. -/
theorem Inv.verifyOutput (h : Inv C s p) {ls : List BitLabel} {vs : List Bool}
    (hls : List.Forall₂ (BitLabel.Of C.delta) ls vs) :
    Inv C (BoolSession.verifyOutput C s ls).1 p ∧ (BoolSession.verifyOutput C s ls).2 = vs := by
  have hbits : (ls.map BitLabel.prover).map lsb = vs := by
    induction hls with
    | nil => rfl
    | cons hl _ ih => rw [List.map_cons, List.map_cons, ih, hl.lsb_eq]
  have hmacs : ls.map BitLabel.prover = List.zipWith (fun o b => xorDeltaIf C.delta o b)
      (ls.map BitLabel.verifier) vs := by
    clear hbits
    induction hls with
    | nil => rfl
    | cons hl _ ih =>
      have hmac := hl.mac_eq
      rw [List.map_cons, ih, List.map_cons, List.zipWith_cons_cons, xorDeltaIf_eq, ← hmac]
  refine ⟨{ h with transcript := congrArg (· ++ _) h.transcript, hashed := ?_ }, hbits⟩
  show s.prover.hashed ++ _ = s.verifier.hashed ++ List.zipWith _ _ ((ls.map _).map lsb)
  rw [h.hashed, hbits, ← hmacs]

/-! ### Whole programs -/

/-- **One operation**: the two parties fail exactly when the plain program does, and keep the
invariant otherwise. -/
theorem step_rel (hG : C.G.Lawful φ) (hC : C.Valid) (op : BoolOp) (h : Inv C s p) :
    Option.Rel (Inv C) (step C s op) (p.step op) := by
  cases op with
  | feedBits fromParty input =>
    cases fromParty with
    | alice => exact Option.Rel.some (h.authenticatedBitsInput hC input)
    | bob => exact Option.Rel.none
    | pub => exact Option.Rel.some (h.push (publicBlocks_auth hC input))
  | publicBlock b => exact Option.Rel.some (h.push (publicBlocks_auth hC [b]))
  | xorBlock i j =>
    refine Runs.rel_bind (h.labels [i, j]) fun ls vs hls => ?_
    rcases hls with _ | ⟨ha, _ | ⟨hb, _ | _⟩⟩
    · exact Option.Rel.none
    · exact Option.Rel.none
    · exact Option.Rel.some
        (h.push (List.Forall₂.cons (BoolConfig.xorBlock_auth ha hb) List.Forall₂.nil))
    · exact Option.Rel.none
  | notBlock i =>
    refine Runs.rel_bind (h.labels [i]) fun ls vs hls => ?_
    rcases hls with _ | ⟨ha, _ | _⟩
    · exact Option.Rel.none
    · exact Option.Rel.some
        (h.push (List.Forall₂.cons (BoolConfig.notBlock_auth hC ha) List.Forall₂.nil))
    · exact Option.Rel.none
  | andBlock i j =>
    refine Runs.rel_bind (h.labels [i, j]) fun ls vs hls => ?_
    rcases hls with _ | ⟨ha, _ | ⟨hb, _ | _⟩⟩
    · exact Option.Rel.none
    · exact Option.Rel.none
    · obtain ⟨s', c, hs', h', hc⟩ := h.andBlock hG hC ha hb
      show Option.Rel (Inv C) ((BoolSession.andBlock C s _ _).map _) _
      rw [hs']
      exact Option.Rel.some (h'.push (List.Forall₂.cons hc List.Forall₂.nil))
    · exact Option.Rel.none
  | andBlocks ij =>
    refine Runs.rel_bind (h.labels _) fun as xs has => ?_
    refine Runs.rel_bind (h.labels _) fun bs ys hbs => ?_
    obtain ⟨s', cs, hs', h', hcs⟩ := h.andBlocks hG hC (Runs.zip_rel has hbs)
    rw [hs']
    exact Option.Rel.some (h'.push hcs)
  | revealBits toParty is =>
    have hshared : Option.Rel (Inv C)
        ((s.labels is).map fun ls =>
          let r := BoolSession.verifyOutput C s ls
          { r.1 with outPrv := r.1.outPrv ++ [r.2], outVer := r.1.outVer ++ [r.2] })
        ((p.values is).map fun vs =>
          { p with outPrv := p.outPrv ++ [vs], outVer := p.outVer ++ [vs] }) := by
      refine Runs.rel_map (h.labels is) fun ls vs hls => ?_
      obtain ⟨h', hout⟩ := h.verifyOutput hls
      refine { h' with outPrv := ?_, outVer := ?_ }
      · show _ ++ [(BoolSession.verifyOutput C s ls).2] = p.outPrv ++ [vs]
        rw [hout]
        exact congrArg (· ++ [vs]) h'.outPrv
      · show _ ++ [(BoolSession.verifyOutput C s ls).2] = p.outVer ++ [vs]
        rw [hout]
        exact congrArg (· ++ [vs]) h'.outVer
    cases toParty with
    | alice =>
      refine Runs.rel_map (h.labels is) fun ls vs hls => ?_
      have hbits : (ls.map fun l => lsb l.prover) = vs := by
        induction hls with
        | nil => rfl
        | cons hl _ ih => rw [List.map_cons, ih, hl.lsb_eq]
      rw [hbits]
      exact { h with outPrv := congrArg (· ++ [vs]) h.outPrv }
    | bob => exact hshared
    | pub => exact hshared

/-- The destructors pass. -/
theorem Inv.finish (hG : C.G.Lawful φ) (hC : C.Valid) (h : Inv C s p) :
    ∃ s', BoolSession.finish C s = some s' ∧ Inv C s' p := by
  have hcnt := h.cnt
  rw [BoolSession.finish]
  by_cases hzero : s.prover.checkCnt ≠ 0
  · rw [if_pos ⟨hzero, hcnt ▸ hzero⟩]
    exact h.checkManage hG hC
  · rw [if_neg fun hboth => hzero hboth.1, if_neg (by omega)]
    exact ⟨s, rfl, h⟩

/-- A run keeps the invariant. -/
theorem run_inv (hG : C.G.Lawful φ) (hC : C.Valid) (ops : List BoolOp) :
    Option.Rel (Inv C) (Runs.run (step C) BoolSession.init ops)
      (Runs.run BoolPlain.step BoolPlain.init ops) :=
  Runs.run_rel (fun _ _ op (_ : True) h => step_rel hG hC op h) (fun _ _ => trivial) Inv.init

/-- **A whole program**, run by both parties.  They fail exactly when the plain program does: when
a wire does not exist, or an input is to come from the verifier.  Otherwise every batch check
accepts, the last one included, every wire carries its value, every reveal returns the values of
its wires, and the closing comparison accepts, whatever the hash. -/
theorem program_complete (hG : C.G.Lawful φ) (hC : C.Valid) (ops : List BoolOp) :
    match Runs.run BoolPlain.step BoolPlain.init ops with
    | none => Runs.run (step C) BoolSession.init ops = none
    | some p => ∃ s s', Runs.run (step C) BoolSession.init ops = some s ∧
        BoolSession.finish C s = some s' ∧ List.Forall₂ (BitLabel.Of C.delta) s.wires p.vals ∧
        s.outPrv = p.outPrv ∧ s.outVer = p.outVer ∧
        ∀ (D : Type) [DecidableEq D] (authHash : List Block → D),
          finalizeAccepts authHash s' = true := by
  have hrun := run_inv hG hC ops
  generalize Runs.run BoolPlain.step BoolPlain.init ops = out at hrun ⊢
  generalize Runs.run (step C) BoolSession.init ops = res at hrun ⊢
  cases hrun with
  | none => rfl
  | @some s p h =>
    obtain ⟨s', hfinish, h'⟩ := h.finish hG hC
    refine ⟨s, s', rfl, hfinish, h.wires, h.outPrv, h.outVer, fun D _ authHash => ?_⟩
    rw [finalizeAccepts, beq_iff_eq, h'.hashed]

end Check

/-- Batches of two gates, and workers of the two parties that visit their loops in opposite
orders. -/
def smallConfig : BoolConfig where
  G := GfOps.std
  delta := 3
  prp := (4, 6)
  cotPrv i := if i % 2 = 0 then 8 else 11
  cotVer _ := 8
  checkSz := 2
  kFeedParMin := 1
  threadsPrv := 1
  threadsVer := 2
  orderPrv n := List.range n
  orderVer n := (List.range n).reverse
  digest _ := 0
  prg _ i := BitVec.ofNat 128 i

theorem smallConfig_valid : smallConfig.Valid where
  delta_lsb := by decide
  cot i := by
    show BitAuth 3 (if i % 2 = 0 then 8 else 11) 8 (lsb (if i % 2 = 0 then 8 else 11))
    split
    · exact ⟨by decide, by decide, by decide⟩
    · exact ⟨by decide, by decide, by decide⟩
  checkSz_pos := by decide
  orderPrv n := List.Perm.refl _
  orderVer n := List.reverse_perm _

/-- A feed, gates of every kind over two batches, and reveals. -/
theorem program_complete_gates :
    ∃ s s', Runs.run (step smallConfig) init
        [.feedBits .alice [true, false, true], .publicBlock true, .xorBlock 0 1, .notBlock 1,
          .andBlock 0 2, .andBlocks [(0, 1), (2, 3), (4, 5)], .revealBits .pub [6, 7, 8, 9],
          .revealBits .alice [5]] = some s ∧
      finish smallConfig s = some s' ∧ s.outVer = [[true, false, true, true]] ∧
      s.outPrv = [[true, false, true, true], [true]] ∧ finalizeAccepts id s' = true := by
  obtain ⟨s, s', hrun, hfinish, -, hprv, hver, haccepts⟩ :=
    program_complete GfOps.std_lawful smallConfig_valid
      [.feedBits .alice [true, false, true], .publicBlock true, .xorBlock 0 1, .notBlock 1,
        .andBlock 0 2, .andBlocks [(0, 1), (2, 3), (4, 5)], .revealBits .pub [6, 7, 8, 9],
        .revealBits .alice [5]]
  exact ⟨s, s', hrun, hfinish, hver, hprv, haccepts _ id⟩

end BoolSession

end VoleZk
