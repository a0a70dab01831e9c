import VoleZk.Bool.Pair
import VoleZk.Lib.Tape
import Mathlib.Data.Fintype.Pi

/-!
# What the verifier of the Boolean engine learns

Every bit that reaches the verifier is masked by a bit of a COT that is used for nothing else, or is
an opened output; the first block of a check follows from the second one, because the check passes.
So all that the verifier sees can be made up from its own halves, the outputs and as many random
bits as there are COTs.

## What is here

* `BoolConfig.withBits` — the same halves of the verifier, and any bits of the prover;
* `BoolConfig.simPeer`, `BoolConfig.simPeer_follows` — **the simulator**, which has a tape and the
  outputs;
* `BoolConfig.decoder`, `BoolConfig.decoder_follows` — the tape determines the bits of the prover;
* `BoolSession.view_simulated` — **the verifier sees what the simulator makes up, on a tape that is
  as random as the COTs.**
-/

set_option autoImplicit false

namespace VoleZk

open ZKBool

/-! ## Definitions -/

namespace BoolConfig

variable (C : BoolConfig)

/-- The set-up in which the prover's bits of the COTs are `r`. -/
def withBits (r : ℕ → Bool) : BoolConfig :=
  { C with cotPrv := fun i => xorDeltaIf C.delta (C.cotVer i) (r i) }

/-- The block with the given bits. -/
def blockOf (b : ℕ → Bool) : Block := chBlock fun i => bitBlock (b i)

/-- What the verifier has summed up for a check. -/
def checkB (e : ZKBool) : Block :=
  C.G.packing (fun i => C.cotVer (e.drawn + i))
    ^^^ checkSum C C.threadsVer e (C.prg (C.digest e.transcript)) (termB C e)

/-- The simulator: masking bits and second blocks from the tape, first blocks from what the verifier
expects, opened bits from the outputs. -/
def simPeer (t : ℕ → Bool) (outs : List Bool) : BoolPeer where
  mask := t
  check e :=
    let A1 := blockOf fun i => t (e.drawn + i)
    (C.G.gfmul A1 C.delta ^^^ checkB C e, A1)
  opened k := outs.getD k false

end BoolConfig

/-- The prover's engine, and its bits of the COTs so far. -/
structure Decoded where
  /-- The engine. -/
  prover : ZKBool
  /-- The bits. -/
  bits : List Bool

namespace BoolConfig

variable (C : BoolConfig)

/-- The prover whose bits of the COTs are read off a tape. -/
def decoder (t : ℕ → Bool) : BoolHalf Decoded Block where
  checkSz := C.checkSz
  checkCnt x := x.prover.checkCnt
  newBatch x := { x with prover := { x.prover with checkCnt := 0 } }
  publicBlock := C.pubLabelPrv
  xorBlock l r := l ^^^ r
  notBlock l := l ^^^ 1
  authenticatedBitsInput x input :=
    let d := x.prover.drawn
    let r := fun i => t i ^^ input.getD (i - d) false
    let (p, Ms, _) := authenticatedBitsInputSend (C.withBits r) x.prover input
    (⟨p, x.bits ++ (List.range input.length).map fun i => r (d + i)⟩, Ms)
  checkManage x :=
    let d := x.prover.drawn
    let sum := checkSum C C.threadsPrv x.prover (C.prg (C.digest x.prover.transcript))
      (termA1 x.prover)
    let r := fun i => (blockOf (fun k => t (d + k)) ^^^ sum).getLsbD (i - d)
    some ⟨(checkManageSend (C.withBits r) x.prover).1,
      x.bits ++ (List.range 128).map fun i => r (d + i)⟩
  authComputeAnd x a b :=
    let d := x.prover.drawn
    let r := t d ^^ (lsb a && lsb b)
    let (p, M, _) := authComputeAndSend (C.withBits fun _ => r) x.prover a b
    (⟨p, x.bits ++ [r]⟩, M)
  wave x ab :=
    let d := x.prover.drawn
    let r := fun i => t i ^^ (lsb (ab.getD (i - d) (0, 0)).1 && lsb (ab.getD (i - d) (0, 0)).2)
    let (p, Ms, _) := waveSend (C.withBits r) x.prover ab
    (⟨p, x.bits ++ (List.range ab.length).map fun i => r (d + i)⟩, Ms)
  verifyOutput x ls :=
    let (p, b) := verifyOutputSend x.prover ls
    ({ x with prover := p }, b)

end BoolConfig

/-! ## The prover's engine, on its bits -/

theorem BoolConfig.lsb_withBits {C : BoolConfig} (hC : C.Valid) (r : ℕ → Bool) (i : ℕ) :
    lsb ((C.withBits r).cotPrv i) = r i := by
  have hdelta : C.delta.getLsbD 0 = true := hC.delta_lsb
  have hkey : (C.cotVer i).getLsbD 0 = false := (hC.cot i).key_lsb
  show lsb (xorDeltaIf C.delta (C.cotVer i) (r i)) = r i
  rw [xorDeltaIf_eq, lsb, BitVec.getLsbD_xor, getLsbD_ite, hkey, hdelta]
  simp

theorem BoolConfig.Valid.withBits {C : BoolConfig} (hC : C.Valid) (r : ℕ → Bool) :
    (C.withBits r).Valid := by
  refine ⟨hC.delta_lsb, fun i => ?_, hC.checkSz_pos, hC.orderPrv, hC.orderVer⟩
  rw [BoolConfig.lsb_withBits hC r]
  exact ⟨xorDeltaIf_eq _ _ _, BoolConfig.lsb_withBits hC r i, (hC.cot i).key_lsb⟩

namespace BoolConfig

variable {C : BoolConfig}

/-- What feeding does to the prover. -/
theorem authenticatedBitsInputSend_eq (hC : C.Valid) (p : ZKBool) (input : List Bool) :
    authenticatedBitsInputSend C p input =
      let mask := (List.range input.length).map fun i =>
        lsb (C.cotPrv (p.drawn + i)) ^^ input.getD i false
      ({ p with
          drawn := p.drawn + input.length
          transcript := p.transcript ++ mask.map Msg.bit },
        (List.range input.length).map fun i =>
          withLsb (C.cotPrv (p.drawn + i)) (input.getD i false),
        mask) := by
  have hcell : ∀ i ∈ List.range input.length, Workers.forEach
      (fun i (cell : Block × Bool) =>
        (withLsb cell.1 (input.getD i false), lsb cell.1 ^^ input.getD i false))
      (if input.length ≤ C.kFeedParMin then List.range input.length
        else C.orderPrv input.length) (fun i => (C.cotPrv (p.drawn + i), false)) i
      = (withLsb (C.cotPrv (p.drawn + i)) (input.getD i false),
        lsb (C.cotPrv (p.drawn + i)) ^^ input.getD i false) := fun i hi => by
    rw [Workers.forEach_perm_range _ (order_perm hC.orderPrv _), if_pos (List.mem_range.mp hi)]
  have hmask := List.map_congr_left fun i hi => congrArg Prod.snd (hcell i hi)
  have hlabels := List.map_congr_left fun i hi => congrArg Prod.fst (hcell i hi)
  rw [authenticatedBitsInputSend]
  simp only [hmask, hlabels]

/-- What a wave does to the prover. -/
theorem waveSend_eq (hC : C.Valid) (p : ZKBool) (ab : List (Block × Block)) :
    waveSend C p ab =
      let bits := (List.range ab.length).map fun i => (waveGateSend C p ab i).bit
      ({ p with
          drawn := p.drawn + ab.length
          checkCnt := p.checkCnt + ab.length
          slots := fun j => if p.checkCnt ≤ j ∧ j < p.checkCnt + ab.length then
            waveGateSend C p ab (j - p.checkCnt) else p.slots j
          transcript := p.transcript ++ bits.map Msg.bit },
        (List.range ab.length).map fun i => (waveGateSend C p ab i).out, bits) := by
  have hgate : ∀ i ∈ List.range ab.length,
      (waveSend C p ab).1.slots (p.checkCnt + i) = waveGateSend C p ab i := fun i hi => by
    rw [waveSend_slots hC, if_pos ⟨Nat.le_add_right _ _,
      Nat.add_lt_add_left (List.mem_range.mp hi) _⟩, Nat.add_sub_cancel_left]
  have hbits := List.map_congr_left fun i hi => congrArg GateSlot.bit (hgate i hi)
  have hlabels := List.map_congr_left fun i hi => congrArg GateSlot.out (hgate i hi)
  have hslots := funext fun j => waveSend_slots hC p ab j
  simp only [waveSend] at hbits hlabels hslots ⊢
  rw [hbits, hlabels, hslots]

/-- Feeding reads the bits of its own COTs only. -/
theorem authenticatedBitsInputSend_congr (r r' : ℕ → Bool) (hC : C.Valid) (p : ZKBool)
    (input : List Bool)
    (h : ∀ i < input.length, r (p.drawn + i) = r' (p.drawn + i)) :
    authenticatedBitsInputSend (C.withBits r) p input
      = authenticatedBitsInputSend (C.withBits r') p input := by
  have hcot : ∀ i ∈ List.range input.length,
      (C.withBits r).cotPrv (p.drawn + i) = (C.withBits r').cotPrv (p.drawn + i) := fun i hi =>
    congrArg (xorDeltaIf C.delta (C.cotVer (p.drawn + i))) (h i (List.mem_range.mp hi))
  have hmask : (List.range input.length).map (fun i =>
        lsb ((C.withBits r).cotPrv (p.drawn + i)) ^^ input.getD i false)
      = (List.range input.length).map fun i =>
        lsb ((C.withBits r').cotPrv (p.drawn + i)) ^^ input.getD i false :=
    List.map_congr_left fun i hi => by rw [hcot i hi]
  have hlabels : (List.range input.length).map (fun i =>
        withLsb ((C.withBits r).cotPrv (p.drawn + i)) (input.getD i false))
      = (List.range input.length).map fun i =>
        withLsb ((C.withBits r').cotPrv (p.drawn + i)) (input.getD i false) :=
    List.map_congr_left fun i hi => by rw [hcot i hi]
  rw [authenticatedBitsInputSend_eq (hC.withBits r), authenticatedBitsInputSend_eq (hC.withBits r')]
  simp only [hmask, hlabels]

/-- A gate reads the bit of its own COT only. -/
theorem authComputeAndSend_congr (r r' : ℕ → Bool) (p : ZKBool) (a b : Block)
    (h : r p.drawn = r' p.drawn) :
    authComputeAndSend (C.withBits r) p a b = authComputeAndSend (C.withBits r') p a b := by
  have hcot : (C.withBits r).cotPrv p.drawn = (C.withBits r').cotPrv p.drawn :=
    congrArg (xorDeltaIf C.delta (C.cotVer p.drawn)) h
  rw [authComputeAndSend, authComputeAndSend, hcot]

/-- A wave reads the bits of its own COTs only. -/
theorem waveSend_congr (r r' : ℕ → Bool) (hC : C.Valid) (p : ZKBool) (ab : List (Block × Block))
    (h : ∀ i < ab.length, r (p.drawn + i) = r' (p.drawn + i)) :
    waveSend (C.withBits r) p ab = waveSend (C.withBits r') p ab := by
  have hgate : ∀ i < ab.length,
      waveGateSend (C.withBits r) p ab i = waveGateSend (C.withBits r') p ab i := fun i hi => by
    have hcot : (C.withBits r).cotPrv (p.drawn + i) = (C.withBits r').cotPrv (p.drawn + i) :=
      congrArg (xorDeltaIf C.delta (C.cotVer (p.drawn + i))) (h i hi)
    rw [waveGateSend, waveGateSend, hcot]
  have hslots : (fun j => if p.checkCnt ≤ j ∧ j < p.checkCnt + ab.length then
        waveGateSend (C.withBits r) p ab (j - p.checkCnt) else p.slots j)
      = fun j => if p.checkCnt ≤ j ∧ j < p.checkCnt + ab.length then
        waveGateSend (C.withBits r') p ab (j - p.checkCnt) else p.slots j := by
    funext j
    split
    · exact hgate _ (by omega)
    · rfl
  have hbits := List.map_congr_left fun i (hi : i ∈ List.range ab.length) =>
    congrArg GateSlot.bit (hgate i (List.mem_range.mp hi))
  have hlabels := List.map_congr_left fun i (hi : i ∈ List.range ab.length) =>
    congrArg GateSlot.out (hgate i (List.mem_range.mp hi))
  rw [waveSend_eq (hC.withBits r), waveSend_eq (hC.withBits r')]
  simp only [hbits, hlabels, hslots]

/-- A check reads the bits of its own 128 COTs only. -/
theorem checkManageSend_congr {R : Type*} [CommRing R] {φ : Block → R} (r r' : ℕ → Bool)
    (hG : C.G.Lawful φ) (p : ZKBool) (h : ∀ i < 128, r (p.drawn + i) = r' (p.drawn + i)) :
    checkManageSend (C.withBits r) p = checkManageSend (C.withBits r') p := by
  have hcot : ∀ i < 128, (C.withBits r).cotPrv (p.drawn + i)
      = (C.withBits r').cotPrv (p.drawn + i) := fun i hi =>
    congrArg (xorDeltaIf C.delta (C.cotVer (p.drawn + i))) (h i hi)
  have hpack : C.G.packing (fun i => (C.withBits r).cotPrv (p.drawn + i))
      = C.G.packing fun i => (C.withBits r').cotPrv (p.drawn + i) := by
    refine hG.injective ?_
    rw [hG.packing, hG.packing]
    exact Finset.sum_congr rfl fun i hi => by rw [hcot i (Finset.mem_range.mp hi)]
  have hch : chBlock (fun i => (C.withBits r).cotPrv (p.drawn + i))
      = chBlock fun i => (C.withBits r').cotPrv (p.drawn + i) := by
    refine BitVec.eq_of_getLsbD_eq fun i hi => ?_
    rw [getLsbD_chBlock _ hi, getLsbD_chBlock _ hi, hcot i hi]
  have hA0 : (checkManageSend (C.withBits r) p).2.1
      = (checkManageSend (C.withBits r') p).2.1 := congrArg (· ^^^ _) hpack
  have hA1 : (checkManageSend (C.withBits r) p).2.2
      = (checkManageSend (C.withBits r') p).2.2 := congrArg (· ^^^ _) hch
  refine Prod.ext ?_ (Prod.ext hA0 hA1)
  show ZKBool.mk _ _ _ _ (p.transcript ++ [Msg.data (checkManageSend (C.withBits r) p).2.1,
    Msg.data (checkManageSend (C.withBits r) p).2.2]) = _
  rw [hA0, hA1]
  rfl

end BoolConfig

/-! ## The tape determines the bits -/

theorem forall₂_zipWith_prover {Ms Ks : List Block} (h : Ms.length = Ks.length) :
    List.Forall₂ (fun M (l : BitLabel) => M = l.prover) Ms (List.zipWith BitLabel.mk Ms Ks) := by
  refine List.forall₂_iff_get.mpr ⟨by simp [h], fun i _ hi => ?_⟩
  simp

theorem forall₂_zipWith_verifier {Ms Ks : List Block} (h : Ms.length = Ks.length) :
    List.Forall₂ (fun K (l : BitLabel) => K = l.verifier) Ks (List.zipWith BitLabel.mk Ms Ks) := by
  refine List.forall₂_iff_get.mpr ⟨by simp [h], fun i _ hi => ?_⟩
  simp

namespace BoolConfig

variable {C : BoolConfig} {r : ℕ → Bool} {T outs : List Bool}

/-- The decoder and the two parties. -/
structure Decodes (r : ℕ → Bool) (d : Decoded) (x : EnginePair) : Prop where
  /-- The prover's engine. -/
  prover : d.prover = x.prover
  /-- The bits. -/
  bits : d.bits = (List.range x.prover.drawn).map r
  /-- The tape. -/
  tape : x.tape.length = x.prover.drawn

/-- `n` COTs more. -/
theorem Decodes.bits_append {d : Decoded} {x : EnginePair} (h : Decodes r d x) {n : ℕ}
    {r' : ℕ → Bool} (hr : ∀ i < n, r' (x.prover.drawn + i) = r (x.prover.drawn + i)) :
    d.bits ++ ((List.range n).map fun i => r' (x.prover.drawn + i))
      = (List.range (x.prover.drawn + n)).map r := by
  rw [h.bits, List.range_add, List.map_append, List.map_map]
  exact congrArg (_ ++ ·) (List.map_congr_left fun i hi => hr i (List.mem_range.mp hi))

namespace Decodes

variable {x : EnginePair} {bits : List Bool} (h : Decodes r ⟨x.prover, bits⟩ x)
include h

theorem authenticatedBitsInput (hC : C.Valid) (input : List Bool)
    (hwithin : EnginePair.Within T outs ((C.withBits r).pair.authenticatedBitsInput x input).1) :
    Decodes r ((C.decoder fun i => T.getD i false).authenticatedBitsInput ⟨x.prover, bits⟩ input).1
        ((C.withBits r).pair.authenticatedBitsInput x input).1 ∧
      List.Forall₂ (fun M (l : BitLabel) => M = l.prover)
        ((C.decoder fun i => T.getD i false).authenticatedBitsInput ⟨x.prover, bits⟩ input).2
        ((C.withBits r).pair.authenticatedBitsInput x input).2 := by
  set d := x.prover.drawn with hd
  have hmask : (authenticatedBitsInputSend (C.withBits r) x.prover input).2.2
      = (List.range input.length).map fun i => r (d + i) ^^ input.getD i false := by
    rw [authenticatedBitsInputSend_eq (hC.withBits r)]
    exact List.map_congr_left fun i _ => by rw [lsb_withBits hC]
  have htape : x.tape ++ ((List.range input.length).map fun i => r (d + i) ^^ input.getD i false)
      <+: T := hmask ▸ hwithin.tape
  -- what the decoder reads off the tape
  set rd : ℕ → Bool := fun i => T.getD i false ^^ input.getD (i - d) false with hrd
  have hbit : ∀ i < input.length, rd (d + i) = r (d + i) := fun i hi => by
    have hT := Tape.getD_of_append_prefix false htape (i := i) (by simpa using hi)
    rw [h.tape, ← hd, getD_map_range _ hi] at hT
    simp only [hrd]
    rw [hT, Nat.add_sub_cancel_left, Bool.xor_assoc, Bool.xor_self, Bool.xor_false]
  have hsend := authenticatedBitsInputSend_congr rd r hC x.prover input hbit
  refine ⟨⟨congrArg Prod.fst hsend, h.bits_append hbit, ?_⟩, ?_⟩
  · show (x.tape ++ (authenticatedBitsInputSend (C.withBits r) x.prover input).2.2).length
      = d + input.length
    rw [List.length_append, hmask, h.tape, List.length_map, List.length_range]
  · show List.Forall₂ _ (authenticatedBitsInputSend (C.withBits rd) x.prover input).2.1
      (List.zipWith BitLabel.mk (authenticatedBitsInputSend (C.withBits r) x.prover input).2.1 _)
    rw [hsend]
    refine forall₂_zipWith_prover ?_
    simp [authenticatedBitsInputSend]

theorem authComputeAnd (hC : C.Valid) (a b : BitLabel)
    (hwithin : EnginePair.Within T outs ((C.withBits r).pair.authComputeAnd x a b).1) :
    Decodes r
        ((C.decoder fun i => T.getD i false).authComputeAnd ⟨x.prover, bits⟩ a.prover b.prover).1
        ((C.withBits r).pair.authComputeAnd x a b).1 ∧
      ((C.decoder fun i => T.getD i false).authComputeAnd ⟨x.prover, bits⟩ a.prover b.prover).2
        = ((C.withBits r).pair.authComputeAnd x a b).2.prover := by
  set d := x.prover.drawn with hd
  have hmask : (authComputeAndSend (C.withBits r) x.prover a.prover b.prover).2.2
      = ((lsb a.prover && lsb b.prover) ^^ r d) := by
    rw [authComputeAndSend, ← hd, lsb_withBits hC]
  have htape : x.tape ++ [(lsb a.prover && lsb b.prover) ^^ r d] <+: T := hmask ▸ hwithin.tape
  have hbit : (T.getD d false ^^ (lsb a.prover && lsb b.prover)) = r d := by
    have hT := Tape.getD_of_append_prefix false htape (i := 0) Nat.zero_lt_one
    rw [h.tape, Nat.add_zero] at hT
    rw [hT, List.getD_cons_zero, Bool.xor_right_comm, Bool.xor_self, Bool.false_xor]
  have hsend := authComputeAndSend_congr (C := C)
    (fun _ => T.getD d false ^^ (lsb a.prover && lsb b.prover)) r x.prover a.prover b.prover hbit
  refine ⟨⟨congrArg Prod.fst hsend, ?_, ?_⟩, congrArg (fun y => y.2.1) hsend⟩
  · show bits ++ [T.getD d false ^^ (lsb a.prover && lsb b.prover)] = (List.range (d + 1)).map r
    rw [hbit, List.range_succ, List.map_append, ← h.bits]
    rfl
  · show (x.tape ++ [_]).length = d + 1
    rw [List.length_append, h.tape, List.length_singleton]

theorem wave (hC : C.Valid) (ab : List (BitLabel × BitLabel))
    (hwithin : EnginePair.Within T outs ((C.withBits r).pair.wave x ab).1) :
    Decodes r ((C.decoder fun i => T.getD i false).wave ⟨x.prover, bits⟩
          (ab.map fun l => (l.1.prover, l.2.prover))).1
        ((C.withBits r).pair.wave x ab).1 ∧
      List.Forall₂ (fun M (l : BitLabel) => M = l.prover)
        ((C.decoder fun i => T.getD i false).wave ⟨x.prover, bits⟩
          (ab.map fun l => (l.1.prover, l.2.prover))).2
        ((C.withBits r).pair.wave x ab).2 := by
  set d := x.prover.drawn with hd
  set Ms := ab.map fun l => (l.1.prover, l.2.prover) with hMs
  have hmask : (waveSend (C.withBits r) x.prover Ms).2.2
      = (List.range Ms.length).map fun i =>
        (lsb (Ms.getD i (0, 0)).1 && lsb (Ms.getD i (0, 0)).2) ^^ r (d + i) := by
    rw [waveSend_eq (hC.withBits r)]
    exact List.map_congr_left fun i _ => by rw [waveGateSend, lsb_withBits hC]
  have htape : x.tape ++ (waveSend (C.withBits r) x.prover Ms).2.2 <+: T := hwithin.tape
  rw [hmask] at htape
  set rd : ℕ → Bool := fun i =>
    T.getD i false ^^ (lsb (Ms.getD (i - d) (0, 0)).1 && lsb (Ms.getD (i - d) (0, 0)).2) with hrd
  have hbit : ∀ i < Ms.length, rd (d + i) = r (d + i) := fun i hi => by
    have hT := Tape.getD_of_append_prefix false htape (i := i) (by simpa using hi)
    rw [h.tape, ← hd, getD_map_range _ hi] at hT
    simp only [hrd]
    rw [hT, Nat.add_sub_cancel_left, Bool.xor_right_comm, Bool.xor_self, Bool.false_xor]
  have hsend := waveSend_congr rd r hC x.prover Ms hbit
  refine ⟨⟨congrArg Prod.fst hsend, h.bits_append hbit, ?_⟩, ?_⟩
  · show (x.tape ++ (waveSend (C.withBits r) x.prover Ms).2.2).length = d + Ms.length
    rw [List.length_append, hmask, h.tape, List.length_map, List.length_range]
  · show List.Forall₂ _ (waveSend (C.withBits rd) x.prover Ms).2.1
      (List.zipWith BitLabel.mk (waveSend (C.withBits r) x.prover Ms).2.1 _)
    rw [hsend]
    refine forall₂_zipWith_prover ?_
    simp [waveSend, hMs]

theorem checkManage {R : Type*} [CommRing R] {φ : Block → R} (hG : C.G.Lawful φ) (hC : C.Valid)
    {x₁ : EnginePair} (hcheck : (C.withBits r).pair.checkManage x = some x₁)
    (hwithin : EnginePair.Within T outs x₁) :
    ∃ d₁, (C.decoder fun i => T.getD i false).checkManage ⟨x.prover, bits⟩ = some d₁ ∧
      Decodes r d₁ x₁ := by
  obtain ⟨v, -, rfl⟩ := Option.map_eq_some_iff.mp hcheck
  set d := x.prover.drawn with hd
  set A1 := (checkManageSend (C.withBits r) x.prover).2.2 with hA1
  set sum := checkSum C C.threadsPrv x.prover (C.prg (C.digest x.prover.transcript))
    (termA1 x.prover) with hsum
  have htape : x.tape ++ bitsOf A1 <+: T := hwithin.tape
  have hblock : blockOf (fun k => T.getD (d + k) false) = A1 := by
    refine BitVec.eq_of_getLsbD_eq fun i hi => ?_
    have hT := Tape.getD_of_append_prefix false htape (i := i) (by simpa [bitsOf] using hi)
    rw [h.tape, ← hd, bitsOf, getD_map_range _ hi] at hT
    rw [blockOf, getLsbD_chBlock _ hi, lsb, getLsbD_bitBlock, hT]
    simp
  set rd : ℕ → Bool := fun i =>
    (blockOf (fun k => T.getD (d + k) false) ^^^ sum).getLsbD (i - d) with hrd
  have hbit : ∀ i < 128, rd (d + i) = r (d + i) := fun i hi => by
    have hmask : A1 ^^^ sum = chBlock fun i => (C.withBits r).cotPrv (d + i) := by
      show (_ ^^^ sum) ^^^ sum = _
      rw [BitVec.xor_assoc, BitVec.xor_self, BitVec.xor_zero]
    simp only [hrd]
    rw [hblock, hmask, Nat.add_sub_cancel_left, getLsbD_chBlock _ hi, lsb_withBits hC]
  have hsend := checkManageSend_congr rd r hG x.prover hbit
  refine ⟨_, rfl, congrArg Prod.fst hsend, h.bits_append hbit, ?_⟩
  show (x.tape ++ bitsOf A1).length = d + 128
  rw [List.length_append, h.tape, bitsOf, List.length_map, List.length_range]

end Decodes

/-- **The tape determines the bits of the prover**, one operation after the other. -/
theorem decoder_follows {R : Type*} [CommRing R] {φ : Block → R} (hG : C.G.Lawful φ)
    (hC : C.Valid) (r : ℕ → Bool) (T outs : List Bool) :
    (C.decoder fun i => T.getD i false).Follows (C.withBits r).pair (EnginePair.Within T outs)
      (Decodes r) fun M l => M = l.prover where
  persists := pair_persists _ T outs
  checkSz := rfl
  checkCnt _ _ h := congrArg checkCnt h.prover
  newBatch := by
    rintro ⟨_, bits⟩ x ⟨rfl, hbits, htape⟩
    exact ⟨rfl, hbits, htape⟩
  publicBlock _ := rfl
  xorBlock := by
    rintro _ _ l r rfl rfl
    rfl
  notBlock := by
    rintro _ l rfl
    rfl
  authenticatedBitsInput := by
    rintro ⟨_, bits⟩ x input h hwithin
    obtain rfl := h.prover
    exact h.authenticatedBitsInput hC input hwithin
  checkManage := by
    rintro ⟨_, bits⟩ x x₁ h hcheck hwithin
    obtain rfl := h.prover
    exact h.checkManage hG hC hcheck hwithin
  authComputeAnd := by
    rintro ⟨_, bits⟩ x _ _ a b h rfl rfl hwithin
    obtain rfl := h.prover
    exact h.authComputeAnd hC a b hwithin
  wave := by
    rintro ⟨_, bits⟩ x Ms ab h hab hwithin
    obtain rfl := h.prover
    obtain rfl : Ms = ab.map fun l => (l.1.prover, l.2.prover) := by
      rw [← List.forall₂_eq_eq_eq, List.forall₂_map_right_iff]
      exact hab.imp fun _ _ h => Prod.ext h.1 h.2
    exact h.wave hC ab hwithin
  verifyOutput := by
    rintro ⟨_, bits⟩ x Ms ls h hls -
    obtain rfl := h.prover
    obtain rfl : Ms = ls.map BitLabel.prover := by
      rw [← List.forall₂_eq_eq_eq, List.forall₂_map_right_iff]
      exact hls
    exact ⟨⟨rfl, h.bits, h.tape⟩, rfl⟩

/-! ## The simulator -/

/-- The verifier on its own, and the two parties. -/
structure Sees (e : ZKBool) (x : EnginePair) : Prop where
  /-- The engine. -/
  verifier : e = x.verifier
  /-- The counters agree. -/
  checkCnt : x.prover.checkCnt = x.verifier.checkCnt
  /-- The tape. -/
  tape : x.tape.length = x.verifier.drawn
  /-- The openings. -/
  opened : x.opened.length = x.verifier.hashed.length

/-- A check that passes: the first block is determined by the second. -/
theorem checkManageRecv_eq_some {e e₁ : ZKBool} {A : Block × Block}
    (h : checkManageRecv C e A = some e₁) :
    A.1 = C.G.gfmul A.2 C.delta ^^^ checkB C e ∧ e₁.drawn = e.drawn + 128 ∧
      e₁.checkCnt = e.checkCnt ∧ e₁.hashed = e.hashed := by
  rw [checkManageRecv] at h
  split at h
  · rename_i heq
    have hB : C.G.gfmul A.2 C.delta ^^^ A.1 = checkB C e := heq
    cases h
    rw [← hB, ← BitVec.xor_assoc, BitVec.xor_self, BitVec.zero_xor]
    exact ⟨rfl, rfl, rfl, rfl⟩
  · cases h

namespace Sees

variable {x : EnginePair} (h : Sees x.verifier x)
include h

theorem authenticatedBitsInput (input : List Bool)
    (hwithin : EnginePair.Within T outs ((C.withBits r).pair.authenticatedBitsInput x input).1) :
    Sees (((C.simPeer (fun i => T.getD i false) outs).verifier C).authenticatedBitsInput
        x.verifier input).1 ((C.withBits r).pair.authenticatedBitsInput x input).1 ∧
      List.Forall₂ (fun K (l : BitLabel) => K = l.verifier)
        (((C.simPeer (fun i => T.getD i false) outs).verifier C).authenticatedBitsInput
          x.verifier input).2 ((C.withBits r).pair.authenticatedBitsInput x input).2 := by
  set mask := (authenticatedBitsInputSend (C.withBits r) x.prover input).2.2 with hmask
  have hlen : mask.length = input.length := by simp [hmask, authenticatedBitsInputSend]
  have hread : (C.simPeer (fun i => T.getD i false) outs).masks x.verifier.drawn input.length
      = mask := Tape.map_getD_of_append_prefix _ hwithin.tape h.tape hlen
  have hrecv : ((C.simPeer (fun i => T.getD i false) outs).verifier C).authenticatedBitsInput
      x.verifier input = authenticatedBitsInputRecv C x.verifier mask :=
    congrArg (authenticatedBitsInputRecv C x.verifier) hread
  rw [hrecv]
  refine ⟨⟨rfl, h.checkCnt, ?_, h.opened⟩, ?_⟩
  · exact List.length_append.trans (congrArg (· + _) h.tape)
  · refine forall₂_zipWith_verifier ?_
    simp [authenticatedBitsInputRecv, hlen]

theorem checkManage {x₁ : EnginePair} (hcheck : (C.withBits r).pair.checkManage x = some x₁)
    (hwithin : EnginePair.Within T outs x₁) :
    ∃ e₁, ((C.simPeer (fun i => T.getD i false) outs).verifier C).checkManage x.verifier = some e₁ ∧
      Sees e₁ x₁ := by
  obtain ⟨v, hv, rfl⟩ := Option.map_eq_some_iff.mp hcheck
  obtain ⟨A, hA⟩ : ∃ A, A = (checkManageSend (C.withBits r) x.prover).2 := ⟨_, rfl⟩
  have hv : checkManageRecv C x.verifier A = some v := hA ▸ hv
  have htape : x.tape ++ bitsOf A.2 <+: T := hA ▸ hwithin.tape
  obtain ⟨hA0, hdrawn, hcnt, hhashed⟩ := checkManageRecv_eq_some hv
  have hbits : blockOf (fun i => T.getD (x.verifier.drawn + i) false) = A.2 := by
    refine BitVec.eq_of_getLsbD_eq fun i hi => ?_
    have hT := Tape.getD_of_append_prefix false htape (i := i) (by simpa [bitsOf] using hi)
    rw [h.tape, bitsOf, getD_map_range _ hi] at hT
    rw [blockOf, getLsbD_chBlock _ hi, lsb, getLsbD_bitBlock, hT]
    simp
  have hpeer : (C.simPeer (fun i => T.getD i false) outs).check x.verifier = A := by
    refine Prod.ext ?_ hbits
    rw [hA0, ← hbits]
    rfl
  refine ⟨v, (congrArg (checkManageRecv C x.verifier) hpeer).trans hv, rfl, ?_, ?_, ?_⟩
  · exact h.checkCnt.trans hcnt.symm
  · show (x.tape ++ bitsOf _).length = v.drawn
    rw [List.length_append, h.tape, hdrawn, bitsOf, List.length_map, List.length_range]
  · exact h.opened.trans (congrArg List.length hhashed.symm)

theorem authComputeAnd (a b : BitLabel)
    (hwithin : EnginePair.Within T outs ((C.withBits r).pair.authComputeAnd x a b).1) :
    Sees (((C.simPeer (fun i => T.getD i false) outs).verifier C).authComputeAnd
        x.verifier a.verifier b.verifier).1 ((C.withBits r).pair.authComputeAnd x a b).1 ∧
      (((C.simPeer (fun i => T.getD i false) outs).verifier C).authComputeAnd
        x.verifier a.verifier b.verifier).2
        = ((C.withBits r).pair.authComputeAnd x a b).2.verifier := by
  have hmask := Tape.getD_of_append_prefix false hwithin.tape (i := 0) Nat.zero_lt_one
  rw [h.tape, Nat.add_zero, List.getD_cons_zero] at hmask
  have hrecv : ((C.simPeer (fun i => T.getD i false) outs).verifier C).authComputeAnd
      x.verifier a.verifier b.verifier
      = authComputeAndRecv C x.verifier a.verifier b.verifier
        (authComputeAndSend (C.withBits r) x.prover a.prover b.prover).2.2 :=
    congrArg (authComputeAndRecv C x.verifier a.verifier b.verifier) hmask
  rw [hrecv]
  refine ⟨⟨rfl, congrArg (· + 1) h.checkCnt, ?_, h.opened⟩, rfl⟩
  exact List.length_append.trans (congrArg (· + 1) h.tape)

theorem wave (ab : List (BitLabel × BitLabel))
    (hwithin : EnginePair.Within T outs ((C.withBits r).pair.wave x ab).1) :
    Sees (((C.simPeer (fun i => T.getD i false) outs).verifier C).wave x.verifier
        (ab.map fun l => (l.1.verifier, l.2.verifier))).1 ((C.withBits r).pair.wave x ab).1 ∧
      List.Forall₂ (fun K (l : BitLabel) => K = l.verifier)
        (((C.simPeer (fun i => T.getD i false) outs).verifier C).wave x.verifier
          (ab.map fun l => (l.1.verifier, l.2.verifier))).2 ((C.withBits r).pair.wave x ab).2 := by
  set Ms := ab.map fun l => (l.1.prover, l.2.prover) with hMs
  set Ks := ab.map fun l => (l.1.verifier, l.2.verifier) with hKs
  have hlen : (waveSend (C.withBits r) x.prover Ms).2.2.length = Ks.length := by
    simp [waveSend, hMs, hKs]
  have hread : (C.simPeer (fun i => T.getD i false) outs).masks x.verifier.drawn Ks.length
      = (waveSend (C.withBits r) x.prover Ms).2.2 :=
    Tape.map_getD_of_append_prefix _ hwithin.tape h.tape hlen
  have hrecv : ((C.simPeer (fun i => T.getD i false) outs).verifier C).wave x.verifier Ks
      = waveRecv C x.verifier Ks (waveSend (C.withBits r) x.prover Ms).2.2 :=
    congrArg (waveRecv C x.verifier Ks) hread
  rw [hrecv]
  have hcnt : Ms.length = Ks.length := by simp [hMs, hKs]
  refine ⟨⟨rfl, congrArg₂ (· + ·) h.checkCnt hcnt, ?_, h.opened⟩, ?_⟩
  · exact List.length_append.trans (congrArg₂ (· + ·) h.tape hlen)
  · refine forall₂_zipWith_verifier ?_
    simp [waveSend, waveRecv, hMs, hKs]

theorem verifyOutput (ls : List BitLabel)
    (hwithin : EnginePair.Within T outs ((C.withBits r).pair.verifyOutput x ls).1) :
    Sees (((C.simPeer (fun i => T.getD i false) outs).verifier C).verifyOutput x.verifier
        (ls.map BitLabel.verifier)).1 ((C.withBits r).pair.verifyOutput x ls).1 ∧
      (((C.simPeer (fun i => T.getD i false) outs).verifier C).verifyOutput x.verifier
        (ls.map BitLabel.verifier)).2 = ((C.withBits r).pair.verifyOutput x ls).2 := by
  have hlen : (verifyOutputSend x.prover (ls.map BitLabel.prover)).2.length
      = (ls.map BitLabel.verifier).length := by simp [verifyOutputSend]
  have hread : (C.simPeer (fun i => T.getD i false) outs).openings x.verifier.hashed.length
      (ls.map BitLabel.verifier).length
      = (verifyOutputSend x.prover (ls.map BitLabel.prover)).2 :=
    Tape.map_getD_of_append_prefix _ hwithin.opened h.opened hlen
  have hrecv : ((C.simPeer (fun i => T.getD i false) outs).verifier C).verifyOutput x.verifier
      (ls.map BitLabel.verifier) = (verifyOutputRecv C x.verifier (ls.map BitLabel.verifier)
        (verifyOutputSend x.prover (ls.map BitLabel.prover)).2,
        (verifyOutputSend x.prover (ls.map BitLabel.prover)).2) := by
    show (verifyOutputRecv C x.verifier _ (BoolPeer.openings _ _ _), BoolPeer.openings _ _ _) = _
    rw [hread]
  rw [hrecv]
  refine ⟨⟨rfl, h.checkCnt, h.tape, ?_⟩, rfl⟩
  show (x.opened ++ (verifyOutputSend x.prover (ls.map BitLabel.prover)).2).length
    = (x.verifier.hashed ++ List.zipWith _ _ _).length
  rw [List.length_append, List.length_append, h.opened, hlen]
  simp

end Sees

/-- **What the simulator makes up is what the verifier sees**, one operation after the other. -/
theorem simPeer_follows (C : BoolConfig) (r : ℕ → Bool) (T outs : List Bool) :
    ((C.simPeer (fun i => T.getD i false) outs).verifier C).Follows (C.withBits r).pair
      (EnginePair.Within T outs) Sees fun K l => K = l.verifier where
  persists := pair_persists _ T outs
  checkSz := rfl
  checkCnt := by
    rintro _ x ⟨rfl, hcnt, -, -⟩
    exact hcnt.symm
  newBatch := by
    rintro _ x ⟨rfl, -, htape, hopened⟩
    exact ⟨rfl, rfl, htape, hopened⟩
  publicBlock _ := rfl
  xorBlock := by
    rintro _ _ l r rfl rfl
    rfl
  notBlock := by
    rintro _ l rfl
    rfl
  authenticatedBitsInput := by
    rintro e x input h hwithin
    obtain rfl := h.verifier
    exact h.authenticatedBitsInput input hwithin
  checkManage := by
    rintro e x x₁ h hcheck hwithin
    obtain rfl := h.verifier
    exact h.checkManage hcheck hwithin
  authComputeAnd := by
    rintro e x _ _ a b h rfl rfl hwithin
    obtain rfl := h.verifier
    exact h.authComputeAnd a b hwithin
  wave := by
    rintro e x Ks ab h hab hwithin
    obtain rfl := h.verifier
    obtain rfl : Ks = ab.map fun l => (l.1.verifier, l.2.verifier) := by
      rw [← List.forall₂_eq_eq_eq, List.forall₂_map_right_iff]
      exact hab.imp fun _ _ h => Prod.ext h.1 h.2
    exact h.wave ab hwithin
  verifyOutput := by
    rintro e x Ks ls h hls hwithin
    obtain rfl := h.verifier
    obtain rfl : Ks = ls.map BitLabel.verifier := by
      rw [← List.forall₂_eq_eq_eq, List.forall₂_map_right_iff]
      exact hls
    exact h.verifyOutput ls hwithin

/-! ## How many COTs a program draws -/

end BoolConfig

/-- The counters of an engine. -/
structure Counts where
  /-- The COTs drawn. -/
  drawn : ℕ
  /-- The gates of the current batch. -/
  checkCnt : ℕ
  /-- The opened bits. -/
  opened : ℕ

namespace BoolConfig

/-- A program on the counters, with given outputs. -/
def counter (C : BoolConfig) (outs : List Bool) : BoolHalf Counts Unit where
  checkSz := C.checkSz
  checkCnt := Counts.checkCnt
  newBatch c := { c with checkCnt := 0 }
  publicBlock _ := ()
  xorBlock _ _ := ()
  notBlock _ := ()
  authenticatedBitsInput c input :=
    ({ c with drawn := c.drawn + input.length }, input.map fun _ => ())
  checkManage c := some { c with drawn := c.drawn + 128 }
  authComputeAnd c _ _ := ({ c with drawn := c.drawn + 1, checkCnt := c.checkCnt + 1 }, ())
  wave c ab :=
    ({ c with drawn := c.drawn + ab.length, checkCnt := c.checkCnt + ab.length },
      ab.map fun _ => ())
  verifyOutput c ls :=
    ({ c with opened := c.opened + ls.length },
      (List.range ls.length).map fun i => outs.getD (c.opened + i) false)

/-- The counters of the two parties. -/
def Counted (c : Counts) (x : EnginePair) : Prop :=
  c = ⟨x.prover.drawn, x.prover.checkCnt, x.opened.length⟩

theorem forall₂_unit {α β : Type*} {l : List α} {ls : List β} (h : l.length = ls.length) :
    List.Forall₂ (fun (_ : Unit) _ => True) (l.map fun _ => ()) ls :=
  List.forall₂_iff_get.mpr ⟨by simp [h], fun _ _ _ => ⟨⟩⟩

/-- The counters do not depend on the bits. -/
theorem counter_follows (C : BoolConfig) (r : ℕ → Bool) (T outs : List Bool) :
    (C.counter outs).Follows (C.withBits r).pair (EnginePair.Within T outs) Counted
      fun _ _ => True where
  persists := pair_persists _ T outs
  checkSz := rfl
  checkCnt := by
    rintro _ x rfl
    rfl
  newBatch := by
    rintro _ x rfl
    rfl
  publicBlock _ := ⟨⟩
  xorBlock _ _ _ _ _ _ := ⟨⟩
  notBlock _ _ _ := ⟨⟩
  authenticatedBitsInput := by
    rintro _ x input rfl -
    refine ⟨rfl, forall₂_unit ?_⟩
    simp [pair, authenticatedBitsInputSend, authenticatedBitsInputRecv]
  checkManage := by
    rintro _ x x₁ rfl hcheck -
    obtain ⟨v, -, rfl⟩ := Option.map_eq_some_iff.mp hcheck
    exact ⟨_, rfl, rfl⟩
  authComputeAnd := by
    rintro _ x _ _ a b rfl - - -
    exact ⟨rfl, ⟨⟩⟩
  wave := by
    rintro _ x us ab rfl hab -
    have hlen := hab.length_eq
    refine ⟨?_, forall₂_unit ?_⟩
    · simp [Counted, counter, pair, waveSend, hlen]
    · simp [pair, waveSend, waveRecv, hlen]
  verifyOutput := by
    rintro _ x us ls rfl hls hwithin
    have hlen := hls.length_eq
    have hb : ((C.withBits r).pair.verifyOutput x ls).2.length = us.length := by
      simp [pair, verifyOutputSend, hlen]
    refine ⟨?_, Tape.map_getD_of_append_prefix _ hwithin.opened rfl hb⟩
    simp [Counted, counter, pair, verifyOutputSend, hlen]

end BoolConfig

namespace BoolSession

variable {C : BoolConfig}

/-! ## What the verifier sees -/

/-- What the verifier holds. -/
def view (s : BoolSession) : HalfState ZKBool Block where
  engine := s.verifier
  wires := s.wires.map BitLabel.verifier
  out := s.outVer

/-- The bits of the first `n` COTs, and any bits after them. -/
def fill {n : ℕ} (bits : Fin n → Bool) (rest : ℕ → Bool) (i : ℕ) : Bool :=
  if h : i < n then bits ⟨i, h⟩ else rest i

theorem fill_getD (T : List Bool) :
    fill (fun i : Fin T.length => T.getD i false) (fun _ => false) = fun i => T.getD i false := by
  funext i
  rw [fill]
  split
  · rfl
  · exact (List.getD_eq_default _ _ (by omega)).symm

section Run

variable {R : Type*} [CommRing R] {φ : Block → R} {ops : List BoolOp} {p : BoolPlain}

/-- What the tape `T` of an honest run under the bits `r` gives. -/
structure Taped (C : BoolConfig) (ops : List BoolOp) (p : BoolPlain) (r : ℕ → Bool)
    (T : List Bool) : Prop where
  /-- The parties get through, and the simulator makes up what the verifier holds. -/
  simulated : ∃ s s', Runs.run (step (C.withBits r)) init ops = some s ∧
    finish (C.withBits r) s = some s' ∧ s'.prover.hashed = s'.verifier.hashed ∧
    ((C.simPeer (fun i => T.getD i false) p.outVer.flatten).verifier C).program ZKBool.init ops
      = some (view s')
  /-- The tape determines the bits. -/
  decoded : ∃ d, (C.decoder fun i => T.getD i false).program ⟨ZKBool.init, []⟩ ops = some d ∧
    d.engine.bits = (List.range T.length).map r
  /-- The tape has a bit for each COT. -/
  counted : ∃ c, (C.counter p.outVer.flatten).program ⟨0, 0, 0⟩ ops = some c ∧
    c.engine.drawn = T.length

/-- **An honest run leaves a tape.** -/
theorem exists_tape (hG : C.G.Lawful φ) (hC : C.Valid)
    (hplain : Runs.run BoolPlain.step BoolPlain.init ops = some p) (r : ℕ → Bool) :
    ∃ T, Taped C ops p r T := by
  have hG' : (C.withBits r).G.Lawful φ := hG
  have hrel := run_inv hG' (hC.withBits r) ops
  rw [hplain] at hrel
  generalize hrun : Runs.run (step (C.withBits r)) init ops = res at hrel
  cases hrel with
  | @some s _ h =>
    obtain ⟨s', hfinish, h'⟩ := h.finish hG' (hC.withBits r)
    obtain ⟨x, outPrv, hx, rfl⟩ := pair_program hrun hfinish
    have hopened : x.engine.opened = p.outVer.flatten :=
      ((BoolConfig.pair_collects _).program hx rfl).trans (congrArg List.flatten h'.outVer)
    have hwithin : EnginePair.Within x.engine.tape p.outVer.flatten x.engine :=
      ⟨List.prefix_rfl, hopened ▸ List.prefix_rfl⟩
    have hsees : BoolConfig.Sees ZKBool.init pairInit := ⟨rfl, rfl, rfl, rfl⟩
    have hdecodes : BoolConfig.Decodes r ⟨ZKBool.init, []⟩ pairInit := ⟨rfl, rfl, rfl⟩
    have hcounted : BoolConfig.Counted ⟨0, 0, 0⟩ pairInit := rfl
    obtain ⟨v, hv, hsees⟩ :=
      (BoolConfig.simPeer_follows C r x.engine.tape p.outVer.flatten).program hsees hx hwithin
    obtain ⟨d, hd, hdecodes⟩ :=
      (BoolConfig.decoder_follows hG hC r x.engine.tape p.outVer.flatten).program hdecodes hx
        hwithin
    obtain ⟨c, hc, hcounted⟩ :=
      (BoolConfig.counter_follows C r x.engine.tape p.outVer.flatten).program hcounted hx hwithin
    have hdrawn : x.engine.tape.length = x.engine.prover.drawn := hdecodes.engine.tape
    refine ⟨x.engine.tape, ⟨s, _, hrun, hfinish, h'.hashed, ?_⟩, ⟨d, hd, ?_⟩, c, hc, ?_⟩
    · have hwires : v.wires = x.wires.map BitLabel.verifier := by
        rw [← List.forall₂_eq_eq_eq, List.forall₂_map_right_iff]
        exact hsees.wires
      exact hv.trans (congrArg some (HalfState.ext hsees.engine.verifier hwires hsees.out))
    · rw [hdecodes.engine.bits, hdrawn]
    · rw [show c.engine = _ from hcounted.engine, hdrawn]

/-- **The verifier learns the outputs and nothing else.**  A program draws `n` COTs, whatever their
bits are.  Whatever the inputs, the key and the verifier's halves of the COTs, there is a bijection
between the prover's bits of these COTs and the tapes of length `n`, such that the honest parties
get through, and all that the verifier holds at the end, its engine with everything received, its
wires and its outputs, is what the simulator makes up from the tape and the outputs, running the
program on any inputs of the same lengths.  The digest it receives at the end is its own. -/
theorem view_simulated (hG : C.G.Lawful φ) (hC : C.Valid)
    (hplain : Runs.run BoolPlain.step BoolPlain.init ops = some p) :
    ∃ n, ∀ rest : ℕ → Bool, ∃ tape : (Fin n → Bool) ≃ (Fin n → Bool), ∀ bits : Fin n → Bool,
      ∃ s s', Runs.run (step (C.withBits (fill bits rest))) init ops = some s ∧
        finish (C.withBits (fill bits rest)) s = some s' ∧
        s'.prover.hashed = s'.verifier.hashed ∧
        ∀ ops', List.Forall₂ BoolOp.SameShape ops ops' →
          ((C.simPeer (fill (tape bits) fun _ => false) p.outVer.flatten).verifier C).program
            ZKBool.init ops' = some (view s') := by
  obtain ⟨T₀, hT₀⟩ := exists_tape hG hC hplain fun _ => false
  obtain ⟨c, hc, hn⟩ := hT₀.counted
  refine ⟨c.engine.drawn, fun rest => ?_⟩
  choose T hT using fun bits : Fin c.engine.drawn → Bool =>
    exists_tape hG hC hplain (fill bits rest)
  have hlen : ∀ bits, (T bits).length = c.engine.drawn := fun bits => by
    obtain ⟨c', hc', hn'⟩ := (hT bits).counted
    rw [← hn', Option.some_inj.mp (hc.symm.trans hc')]
  -- equal tapes decode to equal bits
  have hinj : Function.Injective fun (bits : Fin c.engine.drawn → Bool) (i : Fin c.engine.drawn) =>
      (T bits).getD i false := by
    intro bits bits' htape
    have hTT : T bits = T bits' := by
      refine List.ext_getElem ((hlen bits).trans (hlen bits').symm) fun i hi hi' => ?_
      have hone := congrFun htape ⟨i, hlen bits ▸ hi⟩
      simp only [List.getD_eq_getElem _ _ hi, List.getD_eq_getElem _ _ hi'] at hone
      exact hone
    obtain ⟨d, hd, hbits⟩ := (hT bits).decoded
    obtain ⟨d', hd', hbits'⟩ := (hT bits').decoded
    rw [hTT] at hd hbits
    rw [Option.some_inj.mp (hd.symm.trans hd'), hbits', hlen] at hbits
    funext i
    have hone := List.map_inj_left.mp hbits i (List.mem_range.mpr i.isLt)
    simpa [fill] using hone.symm
  refine ⟨Equiv.ofBijective _ (Finite.injective_iff_bijective.mp hinj), fun bits => ?_⟩
  obtain ⟨s, s', hrun, hfinish, hhashed, hsim⟩ := (hT bits).simulated
  refine ⟨s, s', hrun, hfinish, hhashed, fun ops' hshape => ?_⟩
  have hfill : fill (fun i : Fin c.engine.drawn => (T bits).getD i false) (fun _ => false)
      = fun i => (T bits).getD i false := by
    rw [← fill_getD (T bits), hlen]
  rw [← BoolHalf.program_sameShape ?_ hshape, ← hsim, ← hfill]
  · rfl
  · intro e input input' hsame
    show authenticatedBitsInputRecv C e _ = authenticatedBitsInputRecv C e _
    rw [hsame]

/-- Two inputs, and their conjunction for the verifier. -/
def andOf (a b : Bool) : List BoolOp :=
  [.feedBits .alice [a, b], .andBlock 0 1, .revealBits .bob [2]]

/-- The verifier that learns `1 ∧ 0` sees what could come from `0 ∧ 0`. -/
theorem view_simulated_andOf :
    ∃ n, ∀ rest : ℕ → Bool, ∃ tape : (Fin n → Bool) ≃ (Fin n → Bool), ∀ bits : Fin n → Bool,
      ∃ s s', Runs.run (step (smallConfig.withBits (fill bits rest))) init (andOf true false)
          = some s ∧
        finish (smallConfig.withBits (fill bits rest)) s = some s' ∧
        ((smallConfig.simPeer (fill (tape bits) fun _ => false) [false]).verifier
          smallConfig).program ZKBool.init (andOf false false) = some (view s') := by
  have hplain : Runs.run BoolPlain.step BoolPlain.init (andOf true false)
      = some ⟨[true, false, false], [[false]], [[false]]⟩ := rfl
  obtain ⟨n, hn⟩ := view_simulated GfOps.std_lawful smallConfig_valid hplain
  refine ⟨n, fun rest => ?_⟩
  obtain ⟨tape, htape⟩ := hn rest
  refine ⟨tape, fun bits => ?_⟩
  obtain ⟨s, s', hrun, hfinish, -, hsim⟩ := htape bits
  exact ⟨s, s', hrun, hfinish,
    hsim (andOf false false) (.cons (.feedBits rfl) (.cons (.refl _) (.cons (.refl _) .nil)))⟩

end Run

end BoolSession

end VoleZk
