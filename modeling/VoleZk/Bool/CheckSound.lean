import VoleZk.Bool.F2k
import VoleZk.Lib.KeyCheck

/-!
# What the check of a batch of gates catches

The prover may correct the output of a gate to any bit.  Everything the verifier holds is then
determined by the prover's labels, the bits behind them and the key: `BoolConfig.withKey` and
`ZKBool.keyAt` are the two parties' state as a function of the key.  The comparison of
`andgate_correctness_aggregate` is one of degree 2 in the key, and the batch is caught unless the
combined error vanishes or the key is one of two.

## What is here

* `BoolConfig.withKey`, `BoolConfig.maskShare` — the COTs under another key, and the mask of a
  check;
* `BoolConfig.compare_iff` — the comparison of two masked blocks, in the ring;
* `ZKBool.keyAt`, `ZKBool.gateError` — the verifier's keys, and by how much a batch is off;
* `ZKBool.gate_check_sound` — **what an honest prover and any other prover can get through**.
-/

set_option autoImplicit false

open Finset KeyCheck

namespace VoleZk

variable {R : Type*} [CommRing R] {C : BoolConfig} {φ : Block → R}

/-! ## The masks under any key -/

/-- The parties' set-up under the key `δ`: the prover's COTs stay as they are. -/
def BoolConfig.withKey (C : BoolConfig) (δ : Block) : BoolConfig :=
  { C with delta := δ, cotVer := fun i => xorDeltaIf δ (C.cotPrv i) (lsb (C.cotPrv i)) }

/-- The mask of a check that draws the COTs from `d` on. -/
def BoolConfig.maskShare (C : BoolConfig) (φ : Block → R) (d : ℕ) : Share R where
  val := φ (ZKBool.chBlock fun i => C.cotPrv (d + i))
  mac := φ (C.G.packing fun i => C.cotPrv (d + i))

section Mask

variable (hG : C.G.Lawful φ)
include hG

theorem GfOps.Lawful.neg_eq (x : R) : -x = x := neg_eq_of_add_eq_zero_left (hG.add_self x)

theorem GfOps.Lawful.sub_eq (x y : R) : x - y = x + y := by rw [sub_eq_add_neg, hG.neg_eq]

/-- A label and its key. -/
theorem map_xorDeltaIf (δ M : Block) (b : Bool) :
    φ (xorDeltaIf δ M b) = (⟨if b then 1 else 0, φ M⟩ : Share R).key (φ δ) := by
  rw [xorDeltaIf_eq, hG.xor, ZKBool.map_ite hG, Share.key, hG.sub_eq]

/-- The verifier's mask is the key of the prover's. -/
theorem BoolConfig.map_packing_withKey (δ : Block) (d : ℕ) :
    φ (C.G.packing fun i => (C.withKey δ).cotVer (d + i)) = (C.maskShare φ d).key (φ δ) := by
  rw [Share.key, maskShare, hG.packing, hG.packing, Gf2k.map_eq_sum_bits hG.xor, sum_mul,
    ← sum_sub_distrib]
  refine sum_congr rfl fun i hi => ?_
  rw [ZKBool.getLsbD_chBlock _ (mem_range.mp hi)]
  show φ (xorDeltaIf δ (C.cotPrv (d + i)) (lsb (C.cotPrv (d + i)))) * _ = _
  rw [map_xorDeltaIf hG, Share.key]
  split <;> ring

/-- **The comparison of two masked blocks.**  The verifier compares at `δ`, and what it has summed
up is the value of `t` there. -/
theorem BoolConfig.compare_iff {t : Term R} {δ B : Block} (hB : φ B = t.atKey (φ δ)) (d : ℕ)
    (A : Block × Block) :
    C.G.gfmul A.2 δ ^^^ A.1 = C.G.packing (fun i => (C.withKey δ).cotVer (d + i)) ^^^ B
      ↔ Accepts t (C.maskShare φ d) (φ δ) (φ A.1, φ A.2) := by
  rw [← hG.injective.eq_iff, hG.xor, hG.xor, hG.gfmul, map_packing_withKey hG, hB, Accepts]
  have htwo := hG.add_self (φ A.2 * φ δ)
  constructor
  · intro h
    linear_combination h - htwo
  · intro h
    linear_combination h + htwo

/-- An honest prover passes exactly if `Δ ^ 2` times the error is 0, as blocks. -/
theorem BoolConfig.accepts_honest_iff {t : Term R} {e : Block} (he : φ e = t.err) (mask : Share R)
    (δ : Block) : Accepts t mask (φ δ) (t.const + mask.mac, t.lin + mask.val)
      ↔ C.G.gfmul (C.G.gfmul δ δ) e = 0 := by
  rw [KeyCheck.accepts_honest_iff, ← he, pow_two, ← hG.gfmul, ← hG.gfmul, ← Gf2k.map_zero hG.xor,
    hG.injective.eq_iff]

/-- Whatever is sent, at most two keys accept an error. -/
theorem BoolConfig.accepts_card_le_two [IsDomain R] {t : Term R} {e : Block} (he : φ e = t.err)
    (hne : e ≠ 0) {mask : Share R} {A : R × R} {S : Finset Block}
    (hS : ∀ δ ∈ S, Accepts t mask (φ δ) A) : S.card ≤ 2 := by
  have hne' : t.err ≠ 0 := by rwa [← he, ne_eq, ← Gf2k.map_zero hG.xor, hG.injective.eq_iff]
  exact card_le_two hne' hG.injective.injOn hS

end Mask

namespace ZKBool

/-! ## The buffers under any key -/

/-- The verifier's engine under the key `δ`, for the prover's engine `p`: the inputs of a gate carry
the bits that the prover reads off them, and the output of gate `j` carries `o j`. -/
def keyAt (δ : Block) (o : ℕ → Bool) (p : ZKBool) : ZKBool :=
  { p with slots := fun j =>
      { p.slots j with
        left := xorDeltaIf δ (p.slots j).left (lsb (p.slots j).left)
        right := xorDeltaIf δ (p.slots j).right (lsb (p.slots j).right)
        out := xorDeltaIf δ (p.slots j).out (o j) } }

/-- By how much the buffered gates are off, combined. -/
def gateError (chi : ℕ → Block) (o : ℕ → Bool) (p : ZKBool) : Block :=
  Gf2k.xorSum p.checkCnt fun j =>
    if (lsb (p.slots j).left && lsb (p.slots j).right) ^^ o j then chi j else 0

/-- A gate of a prover that corrects the output to the bit `w`. -/
def authComputeAndAny (C : BoolConfig) (e : ZKBool) (a b : Block) (w : Bool) :
    ZKBool × Block × Bool :=
  let auth := C.cotPrv e.drawn
  let d := w ^^ lsb auth
  let auth := withLsb auth w
  ({ e with
      drawn := e.drawn + 1
      checkCnt := e.checkCnt + 1
      slots := Function.update e.slots e.checkCnt
        { e.slots e.checkCnt with left := a, right := b, out := auth }
      transcript := e.transcript ++ [Msg.bit d] }, auth, d)

/-- The honest prover corrects to the conjunction. -/
theorem authComputeAndSend_eq (e : ZKBool) (a b : Block) :
    authComputeAndSend C e a b = authComputeAndAny C e a b (lsb a && lsb b) := rfl

/-- **The verifier follows any correction**: its engine stays the one under the key. -/
theorem authComputeAndRecv_keyAt {δ : Block} (hδ : lsb δ = true) (o : ℕ → Bool) (p : ZKBool)
    (hcot : lsb (xorDeltaIf δ (C.cotPrv p.drawn) (lsb (C.cotPrv p.drawn))) = false) (a b : Block)
    (w : Bool) :
    authComputeAndRecv (C.withKey δ) (p.keyAt δ o) (xorDeltaIf δ a (lsb a))
        (xorDeltaIf δ b (lsb b)) (authComputeAndAny C p a b w).2.2
      = ((authComputeAndAny C p a b w).1.keyAt δ (Function.update o p.checkCnt w),
        xorDeltaIf δ (authComputeAndAny C p a b w).2.1 w) := by
  have hauth : BitAuth δ (C.cotPrv p.drawn)
      (xorDeltaIf δ (C.cotPrv p.drawn) (lsb (C.cotPrv p.drawn))) (lsb (C.cotPrv p.drawn)) := by
    refine ⟨?_, rfl, hcot⟩
    rw [xorDeltaIf_eq, BitVec.xor_assoc, BitVec.xor_self, BitVec.xor_zero]
  have hkey : clearLsb (xorDeltaIf δ ((C.withKey δ).cotVer p.drawn) (w ^^ lsb (C.cotPrv p.drawn)))
      = xorDeltaIf δ (withLsb (C.cotPrv p.drawn) w) w := by
    rw [xorDeltaIf_eq _ (withLsb _ w), (hauth.correct hδ w).mac_eq, BitVec.xor_assoc,
      BitVec.xor_self, BitVec.xor_zero]
    rfl
  refine Prod.ext ?_ hkey
  rw [authComputeAndRecv, keyAt, keyAt]
  refine congrArg (fun slots => ZKBool.mk _ _ slots _ _) (funext fun j => ?_)
  by_cases hj : j = p.checkCnt
  · subst hj
    simp only [authComputeAndAny, Function.update_self]
    exact congrArg (GateSlot.mk _ _ · _) hkey
  · simp only [authComputeAndAny, Function.update_of_ne hj]

/-- The coefficients of gate `j`. -/
def gateTerm (φ : Block → R) (o : ℕ → Bool) (p : ZKBool) (j : ℕ) : Term R :=
  .gate ⟨if lsb (p.slots j).left then 1 else 0, φ (p.slots j).left⟩
    ⟨if lsb (p.slots j).right then 1 else 0, φ (p.slots j).right⟩
    ⟨if o j then 1 else 0, φ (p.slots j).out⟩

section Gates

variable (hG : C.G.Lawful φ) (o : ℕ → Bool) (p : ZKBool) (j : ℕ)
include hG

theorem map_termA0_eq : φ (termA0 C p j) = (gateTerm φ o p j).const := by
  rw [termA0, hG.gfmul]
  rfl

theorem map_termA1_eq : φ (termA1 p j) = (gateTerm φ o p j).lin := by
  rw [termA1, hG.xor, hG.xor, map_ite hG, map_ite hG, gateTerm, Term.gate, hG.sub_eq]

theorem map_termB_keyAt (δ : Block) :
    φ (termB (C.withKey δ) (p.keyAt δ o) j) = (gateTerm φ o p j).atKey (φ δ) := by
  show φ (C.G.gfmul _ _ ^^^ C.G.gfmul _ _) = _
  rw [hG.xor, hG.gfmul, hG.gfmul, keyAt, map_xorDeltaIf hG, map_xorDeltaIf hG, map_xorDeltaIf hG,
    gateTerm, Term.gate_atKey]
  rfl

theorem map_gateError (chi : ℕ → Block) :
    φ (gateError chi o p) = ∑ j ∈ range p.checkCnt, φ (chi j) * (gateTerm φ o p j).err := by
  rw [gateError, Gf2k.map_xorSum hG.xor]
  refine sum_congr rfl fun j _ => ?_
  rw [map_ite hG, gateTerm, Term.gate, hG.sub_eq, mul_comm]
  cases lsb (p.slots j).left <;> cases lsb (p.slots j).right <;> cases o j <;>
    simp [hG.neg_eq]

end Gates

/-- The coefficients of a batch. -/
def batchTerm (φ : Block → R) (chi : ℕ → Block) (o : ℕ → Bool) (p : ZKBool) : Term R :=
  .sum p.checkCnt (fun j => φ (chi j)) (gateTerm φ o p)

/-- The verifier's sum is the value at its key. -/
theorem map_checkSum_keyAt (hG : C.G.Lawful φ) (threads : ℕ) (chi : ℕ → Block) (δ : Block)
    (o : ℕ → Bool) (p : ZKBool) :
    φ (checkSum (C.withKey δ) threads (p.keyAt δ o) chi (termB (C.withKey δ) (p.keyAt δ o)))
      = (batchTerm φ chi o p).atKey (φ δ) := by
  have hG' : (C.withKey δ).G.Lawful φ := hG
  rw [map_checkSum hG', batchTerm, Term.sum_atKey]
  exact sum_congr rfl fun j _ => by rw [map_termB_keyAt hG]

/-- The comparison of `andgate_correctness_aggregate`. -/
theorem checkManageRecv_isSome {v : ZKBool} {A : Block × Block} :
    (checkManageRecv C v A).isSome ↔ C.G.gfmul A.2 C.delta ^^^ A.1
      = C.G.packing (fun i => C.cotVer (v.drawn + i))
        ^^^ checkSum C C.threadsVer v (C.prg (C.digest v.transcript)) (termB C v) := by
  simp only [checkManageRecv]
  split
  · exact iff_of_true rfl ‹_›
  · exact iff_of_false Bool.false_ne_true ‹_›

/-- **What the batch check catches.**  The prover's buffers `p` hold gates whose outputs carry any
bits `o`; the verifier's are their keys under `δ`; the coefficients are any that the transcript may
give, the masks any COTs, and the two parties have any numbers of workers.

With the blocks of `checkManageSend` the verifier goes on exactly if `Δ ^ 2` times the combined
error is 0.  Whatever blocks are sent instead, at most two keys let an error through. -/
theorem gate_check_sound [IsDomain R] (hG : C.G.Lawful φ) (o : ℕ → Bool) (p : ZKBool) :
    let e := gateError (C.prg (C.digest p.transcript)) o p
    (∀ δ, (checkManageRecv (C.withKey δ) (p.keyAt δ o) (checkManageSend C p).2).isSome
      ↔ C.G.gfmul (C.G.gfmul δ δ) e = 0) ∧
    (∀ A : Block × Block, e ≠ 0 → ∀ S : Finset Block,
      (∀ δ ∈ S, (checkManageRecv (C.withKey δ) (p.keyAt δ o) A).isSome) → S.card ≤ 2) := by
  intro e
  have he : φ e = (batchTerm φ (C.prg (C.digest p.transcript)) o p).err := map_gateError hG o p _
  refine ⟨fun δ => ?_, fun A hne S hS => ?_⟩
  · have hconst : φ (checkManageSend C p).2.1
        = (batchTerm φ (C.prg (C.digest p.transcript)) o p).const
          + (C.maskShare φ p.drawn).mac := by
      rw [checkManageSend, hG.xor, map_checkSum hG, add_comm]
      exact congrArg (· + _) (sum_congr rfl fun j _ => by rw [map_termA0_eq hG o])
    have hlin : φ (checkManageSend C p).2.2
        = (batchTerm φ (C.prg (C.digest p.transcript)) o p).lin
          + (C.maskShare φ p.drawn).val := by
      rw [checkManageSend, hG.xor, map_checkSum hG, add_comm]
      exact congrArg (· + _) (sum_congr rfl fun j _ => by rw [map_termA1_eq hG o])
    rw [← BoolConfig.accepts_honest_iff hG he (C.maskShare φ p.drawn), ← hconst, ← hlin]
    exact checkManageRecv_isSome.trans
      (BoolConfig.compare_iff hG (map_checkSum_keyAt hG _ _ δ o p) p.drawn _)
  · exact BoolConfig.accepts_card_le_two hG he hne fun δ hδ =>
      (BoolConfig.compare_iff hG (map_checkSum_keyAt hG _ _ δ o p) p.drawn A).mp
        (checkManageRecv_isSome.mp (hS δ hδ))

/-- Two gates, `1 ∧ 0` with the output 0 and `1 ∧ 1` with the output 0. -/
def offByOne : ZKBool :=
  { ZKBool.init with
    checkCnt := 2
    slots := fun j => ⟨1, if j = 0 then 4 else 5, 8, false⟩ }

/-- The second gate is caught: by an honest prover's blocks under the key 3, and with any blocks
under all keys but two. -/
theorem gate_check_sound_offByOne :
    (checkManageRecv (BoolSession.smallConfig.withKey 3) (offByOne.keyAt 3 fun _ => false)
      (checkManageSend BoolSession.smallConfig offByOne).2).isSome = false ∧
    ∀ (A : Block × Block) (S : Finset Block),
      (∀ δ ∈ S, (checkManageRecv (BoolSession.smallConfig.withKey δ)
        (offByOne.keyAt δ fun _ => false) A).isSome) → S.card ≤ 2 := by
  have herr : gateError (BoolSession.smallConfig.prg
      (BoolSession.smallConfig.digest offByOne.transcript)) (fun _ => false) offByOne = 1 := by
    decide +kernel
  have h := gate_check_sound (C := BoolSession.smallConfig) GfOps.std_lawful (fun _ => false)
    offByOne
  simp only [herr] at h
  refine ⟨?_, fun A S => h.2 A (by decide) S⟩
  rw [Bool.eq_false_iff, ne_eq, h.1]
  decide +kernel

end ZKBool

end VoleZk
