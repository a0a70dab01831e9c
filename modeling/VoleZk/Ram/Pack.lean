import VoleZk.Bool.PermProof
import VoleZk.Ram.Model

/-!
# Records as authenticated field elements

A record goes into the permutation proof as the bits of its fields, one after the other, 128 of them
to a wire; the last wire is filled up with zeros.  The prover reads the value of a wire off its own
halves, and the MAC and the key are packed like any other.

## What is here

* `packBlock`, `packRecord` — `ramzk_pack_record`;
* `packRecord_holds` — **every wire is authenticated**;
* `RamRecord.eq_of_recordVals`, `SetRecord.eq_of_recordVals` — **packing tells records apart**;
* `Emitted.accepts` — **the permutation proof accepts records that are permutations**, in whatever
  order they are added.
-/

set_option autoImplicit false

namespace VoleZk

/-! ## Packing -/

/-- `GaloisFieldPacking::packing` of 128 bits: bit `i` is the coefficient of `X ^ i`. -/
def packBits (bits : ℕ → Bool) : Block :=
  Gf2k.xorSum 128 fun i => if bits i then BitVec.twoPow 128 i else 0

/-- One turn of the loop of `ramzk_pack_record`: wires `blk * 128` and on, filled up with zeros. -/
def packBlock (C : BoolConfig) (wires : List BitLabel) (blk : ℕ) : F2kLabel :=
  let lo := blk * 128
  let k := min 128 (wires.length - lo)
  let half := fun (side : BitLabel → Block) i =>
    if i < k then side (wires.getD (lo + i) ⟨0, 0⟩) else 0
  BoolConfig.f2kWire (packBits fun i => decide (i < k) && lsb (half BitLabel.prover i))
    (C.G.packing (half BitLabel.prover)) (C.G.packing (half BitLabel.verifier))

/-- `ramzk_pack_record`, of wires laid end to end. -/
def packRecord (C : BoolConfig) (wires : List BitLabel) : List F2kLabel :=
  (List.range ((wires.length + 127) / 128)).map (packBlock C wires)

/-- The value of wire `blk` of a record with these bits. -/
def recordVal (bits : List Bool) (blk : ℕ) : Block :=
  packBits fun i => bits.getD (blk * 128 + i) false

/-- The values of the wires of a record. -/
def recordVals (bits : List Bool) : List Block :=
  (List.range ((bits.length + 127) / 128)).map (recordVal bits)

theorem getLsbD_packBits (bits : ℕ → Bool) {i : ℕ} (hi : i < 128) :
    (packBits bits).getLsbD i = bits i := by
  have hsum : ∀ n ≤ 128, (Gf2k.xorSum n fun j =>
      if bits j then BitVec.twoPow 128 j else 0).getLsbD i = (decide (i < n) && bits i) := by
    intro n
    induction n with
    | zero => intro _; simp
    | succ n ih =>
      intro hn
      rw [Gf2k.xorSum_succ, BitVec.getLsbD_xor, ih (Nat.le_of_succ_le hn), getLsbD_ite,
        BitVec.getLsbD_twoPow]
      rcases Nat.lt_trichotomy i n with hlt | rfl | hgt
      · simp [hlt, hlt.ne', Nat.lt_succ_of_lt hlt]
      · simp [hi]
      · simp [hgt.ne, Nat.not_lt.mpr hgt.le, Nat.not_lt.mpr (Nat.succ_le_of_lt hgt)]
  rw [packBits, hsum 128 le_rfl, decide_eq_true hi, Bool.true_and]

theorem packBits_congr {f g : ℕ → Bool} (h : ∀ i < 128, f i = g i) : packBits f = packBits g :=
  BitVec.eq_of_getLsbD_eq fun i hi => by rw [getLsbD_packBits f hi, getLsbD_packBits g hi, h i hi]

/-- Two records of one length that agree on every wire are equal. -/
theorem eq_of_recordVals {bits bits' : List Bool} (hlen : bits.length = bits'.length)
    (h : recordVals bits = recordVals bits') : bits = bits' := by
  refine List.ext_getElem hlen fun i hi hi' => ?_
  have hblk : i / 128 < (bits.length + 127) / 128 := by omega
  have hlane : i % 128 < 128 := Nat.mod_lt _ (by decide)
  rw [recordVals, recordVals, ← hlen, List.map_inj_left] at h
  have hbit := congrArg (fun v : Block => v.getLsbD (i % 128)) (h _ (List.mem_range.mpr hblk))
  simp only [recordVal, getLsbD_packBits _ hlane, Nat.div_add_mod'] at hbit
  rwa [List.getD_eq_getElem _ _ hi, List.getD_eq_getElem _ _ hi'] at hbit

/-! ## The two kinds of record -/

/-- The bits of a word, lowest place first. -/
def bitsOf {w : ℕ} (v : BitVec w) : List Bool := (List.range w).map v.getLsbD

@[simp] theorem length_bitsOf {w : ℕ} (v : BitVec w) : (bitsOf v).length = w := by simp [bitsOf]

theorem bitsOf_injective {w : ℕ} : Function.Injective fun v : BitVec w => bitsOf v := by
  intro v v' h
  refine BitVec.eq_of_getLsbD_eq fun i hi => ?_
  have hbit := congrArg (fun l : List Bool => l[i]?) h
  simpa [bitsOf, hi] using hbit

/-- The bits of a record of `ZKSet`. -/
def SetRecord.bits {elemSz verSz : ℕ} (rec : SetRecord elemSz verSz) : List Bool :=
  bitsOf rec.element ++ bitsOf rec.version

/-- The bits of a record of `ZKRam`. -/
def RamRecord.bits {indexSz valSz T : ℕ} (rec : RamRecord indexSz valSz T) : List Bool :=
  bitsOf rec.value ++ (bitsOf rec.index ++ bitsOf rec.time)

theorem SetRecord.length_bits {elemSz verSz : ℕ} (rec : SetRecord elemSz verSz) :
    rec.bits.length = elemSz + verSz := by simp [SetRecord.bits]

theorem RamRecord.length_bits {indexSz valSz T : ℕ} (rec : RamRecord indexSz valSz T) :
    rec.bits.length = indexSz + valSz + timeSz T := by
  simp [RamRecord.bits]
  ring

/-- **Packing tells records of the set apart.** -/
theorem SetRecord.eq_of_recordVals {elemSz verSz : ℕ} {rec rec' : SetRecord elemSz verSz}
    (h : recordVals rec.bits = recordVals rec'.bits) : rec = rec' := by
  have hbits := VoleZk.eq_of_recordVals (rec.length_bits.trans rec'.length_bits.symm) h
  obtain ⟨helement, hversion⟩ := List.append_inj hbits (by simp)
  cases rec
  cases rec'
  rw [SetRecord.mk.injEq]
  exact ⟨bitsOf_injective helement, bitsOf_injective hversion⟩

/-- **Packing tells records of the memory apart.** -/
theorem RamRecord.eq_of_recordVals {indexSz valSz T : ℕ} {rec rec' : RamRecord indexSz valSz T}
    (h : recordVals rec.bits = recordVals rec'.bits) : rec = rec' := by
  have hbits := VoleZk.eq_of_recordVals (rec.length_bits.trans rec'.length_bits.symm) h
  obtain ⟨hvalue, hrest⟩ := List.append_inj hbits (by simp)
  obtain ⟨hindex, htime⟩ := List.append_inj hrest (by simp)
  cases rec
  cases rec'
  rw [RamRecord.mk.injEq]
  exact ⟨bitsOf_injective hvalue, bitsOf_injective hindex, bitsOf_injective htime⟩

/-! ## Wires -/

section Wires

variable {C : BoolConfig} {wires : List BitLabel} {bits : List Bool} {width : ℕ}

/-- The lane `i` of the block that `packBlock` packs: a bit of the record, or padding. -/
theorem lane_auth (h : List.Forall₂ (BitLabel.Of C.delta) wires bits) (blk i : ℕ) (hi : i < 128) :
    let lo := blk * 128
    let k := min 128 (wires.length - lo)
    let half := fun (side : BitLabel → Block) i =>
      if i < k then side (wires.getD (lo + i) ⟨0, 0⟩) else 0
    BitAuth C.delta (half BitLabel.prover i) (half BitLabel.verifier i)
      (bits.getD (lo + i) false) := by
  intro lo k half
  by_cases hik : i < k
  · have hidx : lo + i < wires.length := by omega
    have hwire := h.get hidx (h.length_eq ▸ hidx)
    simp only [half, if_pos hik]
    rw [List.getD_eq_getElem _ _ hidx, List.getD_eq_getElem _ _ (h.length_eq ▸ hidx)]
    exact hwire
  · have hidx : bits.length ≤ lo + i := by rw [← h.length_eq]; omega
    have hpad : BitAuth C.delta 0 0 false := ⟨by simp, BitVec.getLsbD_zero, BitVec.getLsbD_zero⟩
    simp only [half, if_neg hik]
    rw [List.getD_eq_default _ _ hidx]
    exact hpad

variable {R : Type*} [CommRing R] {φ : Block → R}

/-- **Every wire of a record is authenticated**: the prover's MAC is the verifier's key plus the
value times `Δ`. -/
theorem packBlock_holds (hG : C.G.Lawful φ) (h : List.Forall₂ (BitLabel.Of C.delta) wires bits)
    (blk : ℕ) : (packBlock C wires blk).Holds C (recordVal bits blk) := by
  have hlane := lane_auth h blk
  have hval : (packBlock C wires blk).prover.val = recordVal bits blk := by
    simp only [packBlock, BoolConfig.f2kWire, recordVal]
    refine packBits_congr fun i hi => ?_
    have hlsb := (hlane i hi).lsb_eq
    by_cases hik : i < min 128 (wires.length - blk * 128)
    · rw [decide_eq_true hik, Bool.true_and]
      exact hlsb
    · simp only [if_neg hik] at hlsb
      rw [decide_eq_false hik, Bool.false_and]
      exact hlsb
  refine .of_map hG hval rfl ?_
  refine ZKBool.map_packing_auth hG fun i hi => ?_
  rw [recordVal, getLsbD_packBits _ hi]
  exact hlane i hi

/-- The wires of a record, all of them. -/
theorem packRecord_holds (hG : C.G.Lawful φ) (h : List.Forall₂ (BitLabel.Of C.delta) wires bits) :
    List.Forall₂ (F2kLabel.Holds C) (packRecord C wires) (recordVals bits) := by
  rw [packRecord, recordVals, h.length_eq, List.forall₂_map_left_iff, List.forall₂_map_right_iff]
  exact List.forall₂_same.mpr fun blk _ => packBlock_holds hG h blk

/-! ## Elements -/

/-- The element `emit_` adds, the wires of `ramzk_pack_record`: block after block those of
`packRecord`. -/
def packElem (C : BoolConfig) (width : ℕ) (wires : List BitLabel) (j : Fin (nBlocksFor width)) :
    F2kLabel :=
  packBlock C wires j

theorem elemVal_packElem (hG : C.G.Lawful φ) (h : List.Forall₂ (BitLabel.Of C.delta) wires bits) :
    elemVal (packElem C width wires) = fun j => recordVal bits j.val :=
  funext fun j => (packBlock_holds hG h j).val_eq

theorem elemOk_packElem (hG : C.G.Lawful φ) (h : List.Forall₂ (BitLabel.Of C.delta) wires bits) :
    PermSide.ElemOk C (packElem C width wires) := fun j => by
  rw [elemVal_packElem hG h]
  exact packBlock_holds hG h j

end Wires

/-! ## What the permutation proof is given -/

/-- A call of `emit_`: the side, and the wires of the record. -/
abbrev Emit := Bool × List BitLabel

/-- The call on the permutation proof that it makes. -/
def Emit.op (C : BoolConfig) (width : ℕ) (e : Emit) : PermOp (nBlocksFor width) :=
  if e.1 then .addA (packElem C width e.2) else .addB (packElem C width e.2)

/-- The wires emitted to one side. -/
def Emit.side (toA : Bool) (em : List Emit) : List (List BitLabel) :=
  (em.filter fun e => e.1 == toA).map Prod.snd

/-- The calls of `emit_` that leave these lists: each emits the wires of its record, and the two
sides may alternate in any way. -/
structure Emitted (C : BoolConfig) {Rec : Type} (bits : Rec → List Bool) (p : PermLists Rec)
    (em : List Emit) : Prop where
  /-- The reads. -/
  listA : List.Forall₂ (fun ws rec => List.Forall₂ (BitLabel.Of C.delta) ws (bits rec))
    (Emit.side true em) p.listA
  /-- The writes. -/
  listB : List.Forall₂ (fun ws rec => List.Forall₂ (BitLabel.Of C.delta) ws (bits rec))
    (Emit.side false em) p.listB

/-- The permutation proof accepts these calls of `emit_`, whatever the engines have done before and
whatever is drawn for the check. -/
def PermAccepts (C : F2kConfig) (width : ℕ) (em : List Emit) : Prop :=
  ∀ prover verifier : ZKBool, prover.drawn = verifier.drawn → ∀ voles : ℕ,
    ∃ s, (PermProof.init prover verifier voles).run C (em.map (Emit.op C.bool width)) = some s ∧
      ∀ coeff r, (s.checkEq C (nBlocksFor width) coeff r).isSome

section Accept

variable {C : F2kConfig} {R : Type*} [CommRing R] {φ : Block → R} {width : ℕ}

/-- Adding never fails. -/
theorem exists_run_emits (s : PermProof) (em : List Emit) :
    ∃ t, s.run C (em.map (Emit.op C.bool width)) = some t := by
  induction em generalizing s with
  | nil => exact ⟨s, rfl⟩
  | cons e em ih =>
    rcases e with ⟨_ | _, ws⟩
    · exact ih { s with b := s.b.add (packElem C.bool width ws) }
    · exact ih { s with a := s.a.add (packElem C.bool width ws) }

/-- What waits after a list of additions. -/
theorem run_emits (f : Folds (nBlocksFor width)) (em : List Emit) :
    f.run (em.map (Emit.op C.bool width)) = { f with
      a := f.a ++ (Emit.side true em).map fun ws => elemVal (packElem C.bool width ws)
      b := f.b ++ (Emit.side false em).map fun ws => elemVal (packElem C.bool width ws) } := by
  induction em generalizing f with
  | nil => simp [Folds.run, Emit.side]
  | cons e em ih =>
    rw [Folds.run, List.map_cons, List.foldl_cons, ← Folds.run, ih]
    rcases e with ⟨_ | _, ws⟩ <;> simp [Emit.op, Emit.side, Folds.step]

/-- The values of the elements of a side. -/
theorem map_elemVal (hG : C.bool.G.Lawful φ) {Rec : Type} {bits : Rec → List Bool}
    {wss : List (List BitLabel)} {rs : List Rec}
    (h : List.Forall₂ (fun ws rec => List.Forall₂ (BitLabel.Of C.bool.delta) ws (bits rec)) wss
      rs) : wss.map (fun ws => elemVal (packElem C.bool width ws))
      = rs.map fun rec (j : Fin (nBlocksFor width)) => recordVal (bits rec) j.val := by
  induction h with
  | nil => rfl
  | cons hws _ ih => rw [List.map_cons, List.map_cons, ih, elemVal_packElem hG hws]

theorem elemOk_of_mem (hG : C.bool.G.Lawful φ) {Rec : Type} {bits : Rec → List Bool}
    {wss : List (List BitLabel)} {rs : List Rec}
    (h : List.Forall₂ (fun ws rec => List.Forall₂ (BitLabel.Of C.bool.delta) ws (bits rec)) wss rs)
    {ws : List BitLabel} (hws : ws ∈ wss) : PermSide.ElemOk C.bool (packElem C.bool width ws) := by
  obtain ⟨i, hi, rfl⟩ := List.getElem_of_mem hws
  exact elemOk_packElem hG (h.get hi (h.length_eq ▸ hi))

/-- Everything emitted is authenticated. -/
theorem Emitted.opOk (hG : C.bool.G.Lawful φ) {Rec : Type} {bits : Rec → List Bool}
    {p : PermLists Rec} {em : List Emit} (h : Emitted C.bool bits p em) :
    ∀ o ∈ em.map (Emit.op C.bool width), PermProof.OpOk C.bool o := by
  rintro _ ho
  obtain ⟨⟨toA, ws⟩, he, rfl⟩ := List.mem_map.mp ho
  have hside : ws ∈ Emit.side toA em :=
    List.mem_map.mpr ⟨(toA, ws), List.mem_filter.mpr ⟨he, beq_self_eq_true toA⟩, rfl⟩
  cases toA with
  | true => exact elemOk_of_mem hG h.listA hside
  | false => exact elemOk_of_mem hG h.listB hside

/-- **The permutation proof accepts records that are permutations**, in whatever order they were
added, and at every challenge. -/
theorem Emitted.accepts [IsDomain R] (hG : C.bool.G.Lawful φ) (hC : C.Valid) (hwidth : 0 < width)
    {Rec : Type} {bits : Rec → List Bool} {p : PermLists Rec} {em : List Emit}
    (h : Emitted C.bool bits p em) (hperm : p.checkEq) : PermAccepts C width em := by
  intro prover verifier hdrawn voles
  have hn : 0 < nBlocksFor width := Nat.div_pos (by omega) (by decide)
  obtain ⟨s, hrun⟩ : ∃ s, (PermProof.init prover verifier voles).run C
    (em.map (Emit.op C.bool width)) = some s := exists_run_emits _ em
  refine ⟨s, hrun, fun coeff r => ?_⟩
  have hinv := (PermProof.inv_init C φ hdrawn voles).run hG hC hn (h.opOk hG) hrun
  refine hinv.accepts hG hC hn (fun b hb => ?_) r
  rw [run_emits, map_elemVal hG h.listA, map_elemVal hG h.listB, Folds.close] at hb
  obtain rfl := List.mem_singleton.mp hb
  exact hperm.map _

end Accept

end VoleZk
