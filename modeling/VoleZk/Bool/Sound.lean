import VoleZk.Bool.Half
import VoleZk.Bool.CheckSound

/-!
# Soundness of the Boolean engine

The prover may send anything.  What it sends and its halves of the COTs still fix a bit on every
wire, the one its own label would carry.  `BoolPeer.extractor` computes these labels; the verifier's
keys follow from them and the key, whatever the key is.  So either the bits are those of the
program, or something is off in a batch or in an opening, and then few keys let it through.

## What is here

* `Extract`, `BoolPeer.extractor` — the labels that the prover is committed to;
* `Extract.keysAt`, `BoolPeer.extractor_follows` — **the verifier's state under any key**;
* `Extract.Honest` — every gate and every opening is right, and `Extract.claims_step`: then the bits
  are those of the program;
* `Extract.BadBatch` — a batch with a wrong gate whose coefficients cancel;
* `BoolPeer.program_sound` — **what a cheating prover gets through, over a whole program.**
-/

set_option autoImplicit false

namespace VoleZk

open ZKBool

/-! ## What the prover is committed to -/

/-- The engine that a prover of the claimed bits would have, and the batches checked so far, each as
it was at its check. -/
structure Extract where
  /-- The engine. -/
  engine : ZKBool
  /-- The batches. -/
  checked : List ZKBool

namespace BoolPeer

variable (C : BoolConfig) (P : BoolPeer)

/-- The bit claimed for COT `i`. -/
def claim (i : ℕ) : Bool := P.mask i ^^ lsb (C.cotPrv i)

/-- The label of COT `i`. -/
def label (i : ℕ) : Block := withLsb (C.cotPrv i) (P.claim C i)

/-- The labels that the prover is committed to. -/
def extractor : BoolHalf Extract Block where
  checkSz := C.checkSz
  checkCnt x := x.engine.checkCnt
  newBatch x := { x with engine := { x.engine with checkCnt := 0 } }
  publicBlock := C.pubLabelPrv
  xorBlock l r := l ^^^ r
  notBlock l := l ^^^ 1
  authenticatedBitsInput x input :=
    let e := x.engine
    let mask := P.masks e.drawn input.length
    ({ x with engine :=
        { e with
          drawn := e.drawn + input.length
          transcript := e.transcript ++ mask.map Msg.bit } },
      (List.range input.length).map fun i => P.label C (e.drawn + i))
  checkManage x :=
    let e := x.engine
    let A := P.check e
    some
      { engine :=
          { e with
            drawn := e.drawn + 128
            transcript := e.transcript ++ [Msg.data A.1, Msg.data A.2] }
        checked := x.checked ++ [e] }
  authComputeAnd x a b :=
    let e := authComputeAndAny C x.engine a b (P.claim C x.engine.drawn)
    ({ x with engine := e.1 }, e.2.1)
  wave x ab :=
    let e := x.engine
    let mask := P.masks e.drawn ab.length
    let slot := fun i =>
      GateSlot.mk (ab.getD i (0, 0)).1 (ab.getD i (0, 0)).2 (P.label C (e.drawn + i))
        (mask.getD i false)
    ({ x with engine :=
        { e with
          drawn := e.drawn + ab.length
          checkCnt := e.checkCnt + ab.length
          slots := fun j =>
            if e.checkCnt ≤ j ∧ j < e.checkCnt + ab.length then slot (j - e.checkCnt)
            else e.slots j
          transcript := e.transcript ++ mask.map Msg.bit } },
      (List.range ab.length).map fun i => P.label C (e.drawn + i))
  verifyOutput x ls :=
    let e := x.engine
    let b := P.openings e.hashed.length ls.length
    ({ x with engine :=
        { e with
          hashed := e.hashed ++ ls
          transcript := e.transcript ++ b.map Msg.bit } }, b)

end BoolPeer

namespace Extract

/-- The bits on the outputs of the gates in the buffers. -/
def outs (p : ZKBool) (j : ℕ) : Bool := lsb (p.slots j).out

/-- The key of a label. -/
def keyUnder (δ M : Block) : Block := xorDeltaIf δ M (lsb M)

/-- The verifier's engine under the key `δ`: an opened block is the key with the opened bit. -/
def keysAt (P : BoolPeer) (δ : Block) (p : ZKBool) : ZKBool :=
  { p.keyAt δ (outs p) with
    hashed := p.hashed.mapIdx fun k M => xorDeltaIf δ (keyUnder δ M) (P.opened k) }

@[simp] theorem keysAt_drawn (P : BoolPeer) (δ : Block) (p : ZKBool) :
    (keysAt P δ p).drawn = p.drawn := rfl

@[simp] theorem keysAt_checkCnt (P : BoolPeer) (δ : Block) (p : ZKBool) :
    (keysAt P δ p).checkCnt = p.checkCnt := rfl

/-- A slot under the key. -/
theorem keysAt_slots (P : BoolPeer) (δ : Block) (p : ZKBool) (j : ℕ) :
    (keysAt P δ p).slots j =
      { p.slots j with
        left := keyUnder δ (p.slots j).left
        right := keyUnder δ (p.slots j).right
        out := keyUnder δ (p.slots j).out } := rfl

theorem keyUnder_eq {δ M K : Block} {b : Bool} (h : BitAuth δ M K b) : keyUnder δ M = K := by
  rw [keyUnder, xorDeltaIf_eq, h.lsb_eq, h.mac_eq, BitVec.xor_assoc, BitVec.xor_self,
    BitVec.xor_zero]

end Extract

/-- The gates in the buffers are right. -/
def ZKBool.GatesRight (p : ZKBool) : Prop :=
  ∀ j < p.checkCnt, lsb (p.slots j).out = (lsb (p.slots j).left && lsb (p.slots j).right)

/-- Every gate and every opening is right. -/
structure Extract.Honest (P : BoolPeer) (x : Extract) : Prop where
  /-- The gates of the batches. -/
  checked : ∀ p ∈ x.checked, p.GatesRight
  /-- The gates in the buffers. -/
  buffered : x.engine.GatesRight
  /-- The openings. -/
  opened : ∀ k M, x.engine.hashed[k]? = some M → P.opened k = lsb M

/-! ## The verifier's state under any key -/

theorem BoolConfig.Valid.withKey {C : BoolConfig} (hC : C.Valid) {δ : Block} (hδ : lsb δ = true) :
    (C.withKey δ).Valid := by
  refine ⟨hδ, fun i => ⟨?_, rfl, ?_⟩, hC.checkSz_pos, hC.orderPrv, hC.orderVer⟩
  · show C.cotPrv i = xorDeltaIf δ (C.cotPrv i) (lsb (C.cotPrv i))
      ^^^ if lsb (C.cotPrv i) then δ else 0
    rw [xorDeltaIf_eq, BitVec.xor_assoc, BitVec.xor_self, BitVec.xor_zero]
  · show lsb (xorDeltaIf δ (C.cotPrv i) (lsb (C.cotPrv i))) = false
    rw [xorDeltaIf_eq, lsb, BitVec.getLsbD_xor, getLsbD_ite]
    simp [show δ.getLsbD 0 = true from hδ, lsb]

namespace BoolPeer

open Extract

variable {C : BoolConfig} {P : BoolPeer} {δ : Block}

/-- The label of a COT, and the key the verifier computes from the masking bit. -/
theorem label_auth (hC : (C.withKey δ).Valid) (i : ℕ) :
    BitAuth δ (P.label C i) (clearLsb (xorDeltaIf δ ((C.withKey δ).cotVer i) (P.mask i)))
      (P.claim C i) := by
  have h := (hC.cot i).correct hC.delta_lsb (P.claim C i)
  have hmask : (P.claim C i ^^ lsb ((C.withKey δ).cotPrv i)) = P.mask i := by
    simp [claim, BoolConfig.withKey]
  rwa [hmask] at h

theorem keyUnder_label (hC : (C.withKey δ).Valid) (i : ℕ) :
    keyUnder δ (P.label C i) = clearLsb (xorDeltaIf δ ((C.withKey δ).cotVer i) (P.mask i)) :=
  keyUnder_eq (label_auth hC i)

theorem keyUnder_xor (l r : Block) : keyUnder δ (l ^^^ r) = keyUnder δ l ^^^ keyUnder δ r := by
  have hlsb : lsb (l ^^^ r) = (lsb l ^^ lsb r) := BitVec.getLsbD_xor
  refine BitVec.eq_of_getLsbD_eq fun i _ => ?_
  simp only [keyUnder, xorDeltaIf_eq, hlsb, BitVec.getLsbD_xor, getLsbD_ite]
  cases lsb l <;> cases lsb r <;> cases l.getLsbD i <;> cases r.getLsbD i <;> simp

theorem keyUnder_publicBlock (hC : (C.withKey δ).Valid) (b : Bool) :
    keyUnder δ (C.pubLabelPrv b) = (C.withKey δ).pubLabelVer b :=
  keyUnder_eq (BoolConfig.publicBlock_auth hC b)

theorem keyUnder_not (l : Block) :
    keyUnder δ (l ^^^ 1) = keyUnder δ l ^^^ (C.withKey δ).zdelta := by
  have hone : keyUnder δ 1 = (C.withKey δ).zdelta := by
    rw [keyUnder, xorDeltaIf_eq, BitVec.xor_comm]
    rfl
  rw [keyUnder_xor, hone]

/-- Opened blocks. -/
theorem zipWith_keyUnder (k : ℕ) (ls : List Block) :
    List.zipWith (fun o b => xorDeltaIf δ o b) (ls.map (keyUnder δ)) (P.openings k ls.length)
      = ls.mapIdx fun i M => xorDeltaIf δ (keyUnder δ M) (P.opened (i + k)) := by
  refine List.ext_getElem (by simp [openings]) fun i hi hi' => ?_
  simp [openings, Nat.add_comm]

/-- The slots after a wave. -/
theorem wave_slots (x : Extract) (ab : List (Block × Block)) (j : ℕ) :
    ((P.extractor C).wave x ab).1.engine.slots j =
      if x.engine.checkCnt ≤ j ∧ j < x.engine.checkCnt + ab.length then
        ⟨(ab.getD (j - x.engine.checkCnt) (0, 0)).1, (ab.getD (j - x.engine.checkCnt) (0, 0)).2,
          P.label C (x.engine.drawn + (j - x.engine.checkCnt)),
          (P.masks x.engine.drawn ab.length).getD (j - x.engine.checkCnt) false⟩
      else x.engine.slots j := rfl

theorem masks_length (d n : ℕ) : (P.masks d n).length = n := by simp [masks]

theorem masks_getD {d n i : ℕ} (hi : i < n) : (P.masks d n).getD i false = P.mask (d + i) :=
  getD_map_range _ hi

/-- The verifier's engine under the key `δ`, and the checks that have passed. -/
structure AtKey (C : BoolConfig) (P : BoolPeer) (δ : Block) (x : Extract) (v : ZKBool) :
    Prop where
  /-- The engine. -/
  engine : v = keysAt P δ x.engine
  /-- The checks. -/
  checked : ∀ p ∈ x.checked,
    (checkManageRecv (C.withKey δ) (keysAt P δ p) (P.check p)).isSome

namespace AtKey

variable {x : Extract} {v : ZKBool} (h : AtKey C P δ x v)
include h

theorem authenticatedBitsInput (hC : (C.withKey δ).Valid) (input : List Bool) :
    AtKey C P δ ((P.extractor C).authenticatedBitsInput x input).1
        ((P.verifier (C.withKey δ)).authenticatedBitsInput v input).1 ∧
      ((P.extractor C).authenticatedBitsInput x input).2.map (keyUnder δ)
        = ((P.verifier (C.withKey δ)).authenticatedBitsInput v input).2 := by
  obtain ⟨rfl, hchecked⟩ := h
  have hlen := P.masks_length x.engine.drawn input.length
  refine ⟨⟨?_, hchecked⟩, ?_⟩
  · show ZKBool.mk (x.engine.drawn + (P.masks x.engine.drawn input.length).length) _ _ _ _ = _
    rw [hlen]
    rfl
  · show ((List.range input.length).map _).map (keyUnder δ)
      = (List.range (P.masks x.engine.drawn input.length).length).map _
    rw [hlen, List.map_map]
    refine List.map_congr_left fun i hi => ?_
    have hi := List.mem_range.mp hi
    rw [Workers.forEach_perm_range _ (order_perm hC.orderVer _), keysAt_drawn, hlen, if_pos hi,
      masks_getD hi]
    exact keyUnder_label hC _

theorem checkManage (hP : ∀ e e' : ZKBool, e.drawn = e'.drawn → P.check e = P.check e')
    {v₁ : ZKBool} (hpass : (P.verifier (C.withKey δ)).checkManage v = some v₁) :
    ∃ x₁, (P.extractor C).checkManage x = some x₁ ∧ AtKey C P δ x₁ v₁ := by
  obtain ⟨rfl, hchecked⟩ := h
  have hA : P.check (keysAt P δ x.engine) = P.check x.engine := hP _ _ rfl
  have hpass : checkManageRecv (C.withKey δ) (keysAt P δ x.engine) (P.check x.engine) = some v₁ :=
    hA ▸ hpass
  refine ⟨_, rfl, ?_, ?_⟩
  · rw [checkManageRecv] at hpass
    split at hpass
    · exact (Option.some_inj.mp hpass).symm
    · cases hpass
  · intro p hp
    rcases List.mem_append.mp hp with hp | hp
    · exact hchecked p hp
    · rw [List.mem_singleton.mp hp, hpass]
      rfl

theorem authComputeAnd (hC : (C.withKey δ).Valid) (a b : Block) :
    AtKey C P δ ((P.extractor C).authComputeAnd x a b).1
        ((P.verifier (C.withKey δ)).authComputeAnd v (keyUnder δ a) (keyUnder δ b)).1 ∧
      keyUnder δ ((P.extractor C).authComputeAnd x a b).2
        = ((P.verifier (C.withKey δ)).authComputeAnd v (keyUnder δ a) (keyUnder δ b)).2 := by
  obtain ⟨rfl, hchecked⟩ := h
  have hout := keyUnder_label (P := P) hC x.engine.drawn
  refine ⟨⟨?_, hchecked⟩, hout⟩
  have hmask : (P.claim C x.engine.drawn ^^ lsb (C.cotPrv x.engine.drawn))
      = P.mask x.engine.drawn := by simp [claim]
  show ZKBool.mk _ _ _ _ _ = ZKBool.mk _ _ _ _ (x.engine.transcript ++ [Msg.bit _])
  rw [hmask]
  refine congrArg (fun slots => ZKBool.mk _ _ slots _ _) (funext fun j => ?_)
  refine Eq.trans ?_ (keysAt_slots P δ ((P.extractor C).authComputeAnd x a b).1.engine j).symm
  by_cases hj : j = x.engine.checkCnt
  · subst hj
    simp only [BoolPeer.extractor, keysAt_checkCnt, keysAt_slots, authComputeAndAny,
      Function.update_self]
    exact congrArg (GateSlot.mk _ _ · _) hout.symm
  · simp only [BoolPeer.extractor, keysAt_checkCnt, keysAt_slots, authComputeAndAny,
      Function.update_of_ne hj]

theorem wave (hC : (C.withKey δ).Valid) (ab : List (Block × Block)) :
    AtKey C P δ ((P.extractor C).wave x ab).1
        ((P.verifier (C.withKey δ)).wave v (ab.map (Prod.map (keyUnder δ) (keyUnder δ)))).1 ∧
      ((P.extractor C).wave x ab).2.map (keyUnder δ)
        = ((P.verifier (C.withKey δ)).wave v (ab.map (Prod.map (keyUnder δ) (keyUnder δ)))).2 := by
  obtain ⟨rfl, hchecked⟩ := h
  set keys := ab.map (Prod.map (keyUnder δ) (keyUnder δ)) with hkeys
  have hlen : keys.length = ab.length := List.length_map _
  have hkey : ∀ i < ab.length, keys.getD i (0, 0)
      = (keyUnder δ (ab.getD i (0, 0)).1, keyUnder δ (ab.getD i (0, 0)).2) := fun i hi => by
    rw [List.getD_eq_getElem _ _ (hlen ▸ hi), List.getD_eq_getElem _ _ hi, List.getElem_map]
    rfl
  -- a slot of the wave, on the two sides
  have hslot : ∀ j, (waveRecv (C.withKey δ) (keysAt P δ x.engine) keys
        (P.masks x.engine.drawn keys.length)).1.slots j
      = (keysAt P δ ((P.extractor C).wave x ab).1.engine).slots j := fun j => by
    rw [waveRecv_slots hC, keysAt_checkCnt, keysAt_slots _ _ ((P.extractor C).wave x ab).1.engine,
      wave_slots, hlen]
    by_cases hj : x.engine.checkCnt ≤ j ∧ j < x.engine.checkCnt + ab.length
    · have hi : j - x.engine.checkCnt < ab.length := by omega
      simp only [waveGateRecv, if_pos hj, hkey _ hi, masks_getD hi]
      exact congrArg (GateSlot.mk _ _ · _) (keyUnder_label hC _).symm
    · simp only [keysAt_slots, if_neg hj]
  refine ⟨⟨?_, hchecked⟩, ?_⟩
  · show ZKBool.mk (x.engine.drawn + keys.length) (x.engine.checkCnt + keys.length) _ _
      (x.engine.transcript ++ (P.masks x.engine.drawn keys.length).map Msg.bit) = _
    rw [hlen]
    exact congrArg (fun slots => ZKBool.mk _ _ slots _ _) (funext (hlen ▸ hslot))
  · have houts : ((P.verifier (C.withKey δ)).wave (keysAt P δ x.engine) keys).2
        = (List.range ab.length).map fun i => ((waveRecv (C.withKey δ) (keysAt P δ x.engine) keys
          (P.masks x.engine.drawn keys.length)).1.slots (x.engine.checkCnt + i)).out := by
      rw [← hlen]
      rfl
    rw [houts]
    show ((List.range ab.length).map _).map (keyUnder δ) = _
    rw [List.map_map]
    refine List.map_congr_left fun i hi => ?_
    have hi := List.mem_range.mp hi
    rw [hslot, keysAt_slots]
    simp [BoolPeer.extractor, hi]

theorem verifyOutput (ls : List Block) :
    AtKey C P δ ((P.extractor C).verifyOutput x ls).1
        ((P.verifier (C.withKey δ)).verifyOutput v (ls.map (keyUnder δ))).1 ∧
      ((P.extractor C).verifyOutput x ls).2
        = ((P.verifier (C.withKey δ)).verifyOutput v (ls.map (keyUnder δ))).2 := by
  obtain ⟨rfl, hchecked⟩ := h
  have hlen : (keysAt P δ x.engine).hashed.length = x.engine.hashed.length := List.length_mapIdx
  refine ⟨⟨?_, hchecked⟩, ?_⟩
  · show ZKBool.mk _ _ _
      (x.engine.hashed.mapIdx _ ++ List.zipWith (fun o b => xorDeltaIf δ o b) _
        (P.openings (keysAt P δ x.engine).hashed.length (ls.map (keyUnder δ)).length))
      (x.engine.transcript ++ (P.openings (keysAt P δ x.engine).hashed.length
        (ls.map (keyUnder δ)).length).map Msg.bit) = _
    rw [hlen, List.length_map, zipWith_keyUnder, ← List.mapIdx_append]
    rfl
  · show P.openings _ _ = P.openings _ _
    rw [hlen, List.length_map]

end AtKey

/-- The keys of several labels. -/
theorem forall₂_keyUnder {ls ks : List Block} :
    List.Forall₂ (fun M K => keyUnder δ M = K) ls ks ↔ ls.map (keyUnder δ) = ks := by
  rw [← List.forall₂_eq_eq_eq, List.forall₂_map_left_iff]

theorem forall₂_keyUnder_pairs {ab ab' : List (Block × Block)}
    (h : List.Forall₂ (fun x y => keyUnder δ x.1 = y.1 ∧ keyUnder δ x.2 = y.2) ab ab') :
    ab.map (Prod.map (keyUnder δ) (keyUnder δ)) = ab' := by
  rw [← List.forall₂_eq_eq_eq, List.forall₂_map_left_iff]
  exact h.imp fun _ _ h => Prod.ext h.1 h.2

/-- **The verifier's state under any key** is determined by the labels, gate after gate, as long as
its checks pass. -/
theorem extractor_follows (hC : (C.withKey δ).Valid)
    (hP : ∀ e e' : ZKBool, e.drawn = e'.drawn → P.check e = P.check e') :
    (P.extractor C).Follows (P.verifier (C.withKey δ)) (fun _ => True) (AtKey C P δ)
      fun M K => keyUnder δ M = K where
  persists := .trivial _
  checkSz := rfl
  checkCnt := by
    rintro x _ ⟨rfl, -⟩
    rfl
  newBatch := by
    rintro x _ ⟨rfl, hchecked⟩
    exact ⟨rfl, hchecked⟩
  publicBlock := keyUnder_publicBlock hC
  xorBlock := by
    rintro l r _ _ rfl rfl
    exact keyUnder_xor l r
  notBlock := by
    rintro l _ rfl
    exact keyUnder_not l
  authenticatedBitsInput _ _ input h _ := by
    obtain ⟨hx, hls⟩ := h.authenticatedBitsInput hC input
    exact ⟨hx, forall₂_keyUnder.mpr hls⟩
  checkManage _ _ _ h hpass _ := h.checkManage hP hpass
  authComputeAnd := by
    rintro x v a b _ _ h rfl rfl -
    exact h.authComputeAnd hC a b
  wave := by
    rintro x v ab ab' h hab -
    obtain rfl := forall₂_keyUnder_pairs hab
    obtain ⟨hx, hls⟩ := h.wave hC ab
    exact ⟨hx, forall₂_keyUnder.mpr hls⟩
  verifyOutput := by
    rintro x v ls ls' h hls -
    obtain rfl := forall₂_keyUnder.mp hls
    exact h.verifyOutput ls

/-! ## Honest claims -/

theorem lsb_xor (l r : Block) : lsb (l ^^^ r) = (lsb l ^^ lsb r) := BitVec.getLsbD_xor

theorem lsb_withLsb (M : Block) (b : Bool) : lsb (withLsb M b) = b := by
  rw [withLsb, lsb_xor, lsb, getLsbD_clearLsb, lsb, getLsbD_bitBlock]
  simp

variable {x x' : Extract}

/-- A batch that is checked is on record. -/
theorem ready_honest (h : (P.extractor C).ready x = some x') (hx' : Honest P x') :
    Honest P x := by
  rw [BoolHalf.ready] at h
  split at h
  · obtain ⟨x₁, hcheck, rfl⟩ := Option.map_eq_some_iff.mp h
    cases hcheck
    have hone : x.engine.GatesRight :=
      hx'.checked x.engine (List.mem_append_right _ (List.mem_singleton.mpr rfl))
    exact ⟨fun p hp => hx'.checked p (List.mem_append_left _ hp), hone, hx'.opened⟩
  · exact Option.some_inj.mp h ▸ hx'

theorem authComputeAnd_honest (a b : Block)
    (hx' : Honest P ((P.extractor C).authComputeAnd x a b).1) :
    Honest P x ∧ lsb ((P.extractor C).authComputeAnd x a b).2 = (lsb a && lsb b) := by
  have hright := hx'.buffered
  refine ⟨⟨hx'.checked, fun j hj => ?_, hx'.opened⟩, ?_⟩
  · have hgate := hright j (Nat.lt_succ_of_lt hj)
    simpa only [extractor, authComputeAndAny, Function.update_of_ne hj.ne] using hgate
  · have hgate := hright x.engine.checkCnt (Nat.lt_succ_self _)
    simpa only [extractor, authComputeAndAny, Function.update_self] using hgate

theorem wave_honest (ab : List (Block × Block)) (hx' : Honest P ((P.extractor C).wave x ab).1) :
    Honest P x ∧ ((P.extractor C).wave x ab).2.map lsb = ab.map fun l => lsb l.1 && lsb l.2 := by
  have hright := hx'.buffered
  refine ⟨⟨hx'.checked, fun j hj => ?_, hx'.opened⟩, List.ext_getElem (by simp [extractor]) ?_⟩
  · have hgate := hright j (Nat.lt_add_right _ hj)
    rwa [wave_slots, if_neg (by omega)] at hgate
  · intro i hi hi'
    have hi : i < ab.length := by simpa using hi'
    have hgate := hright (x.engine.checkCnt + i) (Nat.add_lt_add_left hi _)
    rw [wave_slots, if_pos ⟨Nat.le_add_right _ _, Nat.add_lt_add_left hi _⟩,
      Nat.add_sub_cancel_left, List.getD_eq_getElem _ _ hi] at hgate
    simpa [extractor] using hgate

theorem andBlock_honest {a b c : Block} (h : (P.extractor C).andBlock x a b = some (x', c))
    (hx' : Honest P x') : Honest P x ∧ lsb c = (lsb a && lsb b) := by
  obtain ⟨x₁, hready, hgate⟩ := Option.map_eq_some_iff.mp h
  obtain ⟨hx₁, hc⟩ := authComputeAnd_honest a b (by rwa [hgate])
  rw [hgate] at hc
  exact ⟨ready_honest hready hx₁, hc⟩

/-- The gates of a vectorized AND, by induction on the gates left. -/
theorem andBlocks_honest {x x' : Extract} {ab : List (Block × Block)} {cs : List Block}
    (h : (P.extractor C).andBlocks x ab = some (x', cs)) (hx' : Honest P x') :
    Honest P x ∧ cs.map lsb = ab.map fun l => lsb l.1 && lsb l.2 := by
  rw [BoolHalf.andBlocks] at h
  by_cases hnil : ab = []
  · subst hnil
    rw [dif_pos rfl, Option.some_inj, Prod.mk.injEq] at h
    obtain ⟨rfl, rfl⟩ := h
    exact ⟨hx', rfl⟩
  · rw [dif_neg hnil] at h
    obtain ⟨x₁, hready, h⟩ := Option.bind_eq_some_iff.mp h
    generalize htake : min ((P.extractor C).checkSz - (P.extractor C).checkCnt x₁) ab.length = take
      at h
    by_cases hzero : take = 0
    · rw [dif_pos hzero] at h
      cases h
    · rw [dif_neg hzero] at h
      obtain ⟨⟨x₂, rest⟩, hloop, hout⟩ := Option.map_eq_some_iff.mp h
      rw [Prod.mk.injEq] at hout
      obtain ⟨rfl, rfl⟩ := hout
      have hpos : 0 < ab.length := List.length_pos_of_ne_nil hnil
      have hshort : (ab.drop take).length < ab.length := by
        rw [List.length_drop]
        omega
      obtain ⟨hmid, hrest⟩ := andBlocks_honest hloop hx'
      obtain ⟨hx₁, hcs⟩ := wave_honest _ hmid
      refine ⟨ready_honest hready hx₁, ?_⟩
      rw [List.map_append, hcs, hrest, ← List.map_append, List.take_append_drop]
termination_by ab.length

theorem verifyOutput_honest (ls : List Block)
    (hx' : Honest P ((P.extractor C).verifyOutput x ls).1) :
    Honest P x ∧ ((P.extractor C).verifyOutput x ls).2 = ls.map lsb := by
  refine ⟨⟨hx'.checked, hx'.buffered, fun k M hk => ?_⟩, List.ext_getElem ?_ fun i hi hi' => ?_⟩
  · refine hx'.opened k M ?_
    show (x.engine.hashed ++ ls)[k]? = some M
    rw [List.getElem?_append_left (List.getElem?_eq_some_iff.mp hk).1, hk]
  · simp [extractor, openings]
  · have hi : i < ls.length := by simpa using hi'
    have hone : (x.engine.hashed ++ ls)[x.engine.hashed.length + i]? = some ls[i] := by
      rw [List.getElem?_append_right (Nat.le_add_right _ _), Nat.add_sub_cancel_left]
      exact List.getElem?_eq_getElem hi
    have hopen := hx'.opened (x.engine.hashed.length + i) ls[i] hone
    simpa [extractor, openings] using hopen

/-! ## Programs on the claimed bits -/

/-- The bits on the wires are those of the plain state. -/
structure Claims (s : HalfState Extract Block) (p : BoolPlain) : Prop where
  /-- The wires. -/
  wires : s.wires.map lsb = p.vals
  /-- The outputs. -/
  out : s.out = p.outVer

namespace Claims

variable {s : HalfState Extract Block} {p : BoolPlain} (h : Claims s p)
include h

theorem push {ls : List Block} {vs : List Bool} (hls : ls.map lsb = vs) :
    Claims (s.push x ls) (p.push vs) := by
  refine ⟨?_, h.out⟩
  simp [HalfState.push, BoolPlain.push, h.wires, hls]

theorem labels {is : List ℕ} {ls : List Block} (hls : s.labels is = some ls) :
    p.values is = some (ls.map lsb) := by
  rw [BoolPlain.values, ← h.wires, Runs.mapM_getElem?_map]
  exact congrArg (Option.map (List.map lsb)) hls

end Claims

/-- After `op`, from the plain state `p` on, the bits are those of the plain operation, on the
claimed inputs. -/
def ClaimsAfter (p : BoolPlain) (op : BoolOp) (s' : HalfState Extract Block) : Prop :=
  ∃ op' p', BoolOp.SameShape op op' ∧ p.step op' = some p' ∧ Claims s' p'

theorem lsb_publicBlock (hC : C.Valid) (b : Bool) : lsb (C.pubLabelPrv b) = b :=
  (BoolConfig.publicBlock_auth hC b).lsb_eq

/-! ### One operation -/

section Operations

variable {s s' : HalfState Extract Block}

/-- What the operations have in common that append wires and nothing else. -/
theorem Claims.after_push {p : BoolPlain} (hp : Claims s p) {op : BoolOp} {v : List Bool}
    {ls : List Block} (hstep : p.step op = some (p.push v)) (hls : ls.map lsb = v) :
    ClaimsAfter p op (s.push x ls) :=
  ⟨op, p.push v, .refl op, hstep, hp.push hls⟩

theorem claims_feedBits (hC : C.Valid) {fromParty : Recipient} {input : List Bool}
    (h : (P.extractor C).step s (.feedBits fromParty input) = some s')
    (hs' : Honest P s'.engine) :
    Honest P s.engine ∧ ∀ p, Claims s p → ClaimsAfter p (.feedBits fromParty input) s' := by
  cases fromParty with
  | alice =>
    cases h
    refine ⟨⟨hs'.checked, hs'.buffered, hs'.opened⟩, fun p hp => ?_⟩
    refine ⟨.feedBits .alice ((List.range input.length).map fun i =>
      P.claim C (s.engine.engine.drawn + i)), _, .feedBits (by simp), rfl, hp.push ?_⟩
    simp [label, lsb_withLsb]
  | bob => cases h
  | pub =>
    cases h
    refine ⟨hs', fun p hp => hp.after_push rfl ?_⟩
    simp [extractor, lsb_publicBlock hC, Function.comp_def]

theorem claims_publicBlock (hC : C.Valid) {b : Bool}
    (h : (P.extractor C).step s (.publicBlock b) = some s') (hs' : Honest P s'.engine) :
    Honest P s.engine ∧ ∀ p, Claims s p → ClaimsAfter p (.publicBlock b) s' := by
  cases h
  refine ⟨hs', fun p hp => hp.after_push rfl ?_⟩
  simp [extractor, lsb_publicBlock hC]

theorem claims_xorBlock {i j : ℕ} (h : (P.extractor C).step s (.xorBlock i j) = some s')
    (hs' : Honest P s'.engine) :
    Honest P s.engine ∧ ∀ p, Claims s p → ClaimsAfter p (.xorBlock i j) s' := by
  obtain ⟨ls, hls, h⟩ := Option.bind_eq_some_iff.mp h
  obtain ⟨a, b, rfl⟩ := List.length_eq_two.mp (HalfState.length_labels hls)
  cases h
  refine ⟨hs', fun p hp => hp.after_push (v := [lsb a ^^ lsb b]) ?_ ?_⟩
  · rw [BoolPlain.step, hp.labels hls]
    rfl
  · simp [extractor, lsb_xor]

theorem claims_notBlock {i : ℕ} (h : (P.extractor C).step s (.notBlock i) = some s')
    (hs' : Honest P s'.engine) :
    Honest P s.engine ∧ ∀ p, Claims s p → ClaimsAfter p (.notBlock i) s' := by
  obtain ⟨ls, hls, h⟩ := Option.bind_eq_some_iff.mp h
  obtain ⟨a, rfl⟩ := List.length_eq_one_iff.mp (HalfState.length_labels hls)
  cases h
  refine ⟨hs', fun p hp => hp.after_push (v := [!lsb a]) ?_ ?_⟩
  · rw [BoolPlain.step, hp.labels hls]
    rfl
  · show [lsb (a ^^^ 1)] = [!lsb a]
    rw [lsb_xor, show lsb 1 = true from rfl, Bool.xor_true]

theorem claims_andBlock {i j : ℕ} (h : (P.extractor C).step s (.andBlock i j) = some s')
    (hs' : Honest P s'.engine) :
    Honest P s.engine ∧ ∀ p, Claims s p → ClaimsAfter p (.andBlock i j) s' := by
  obtain ⟨ls, hls, h⟩ := Option.bind_eq_some_iff.mp h
  obtain ⟨a, b, rfl⟩ := List.length_eq_two.mp (HalfState.length_labels hls)
  obtain ⟨⟨x, c⟩, hgate, rfl⟩ := Option.map_eq_some_iff.mp h
  obtain ⟨hx, hc⟩ := andBlock_honest hgate hs'
  refine ⟨hx, fun p hp => hp.after_push (v := [lsb a && lsb b]) ?_ (congrArg (fun v => [v]) hc)⟩
  rw [BoolPlain.step, hp.labels hls]
  rfl

theorem claims_andBlocks {ij : List (ℕ × ℕ)}
    (h : (P.extractor C).step s (.andBlocks ij) = some s') (hs' : Honest P s'.engine) :
    Honest P s.engine ∧ ∀ p, Claims s p → ClaimsAfter p (.andBlocks ij) s' := by
  obtain ⟨as, has, h⟩ := Option.bind_eq_some_iff.mp h
  obtain ⟨bs, hbs, h⟩ := Option.bind_eq_some_iff.mp h
  obtain ⟨⟨x, cs⟩, hgates, rfl⟩ := Option.map_eq_some_iff.mp h
  obtain ⟨hx, hcs⟩ := andBlocks_honest hgates hs'
  refine ⟨hx, fun p hp => hp.after_push ?_ hcs⟩
  rw [BoolPlain.step, hp.labels has, hp.labels hbs, Option.bind_some, Option.bind_some,
    List.zip_map, List.map_map]
  rfl

/-- What is opened to the verifier are the bits of the wires. -/
theorem claims_revealTo {is : List ℕ} {ls : List Block} (hls : s.labels is = some ls)
    (hs' : Honest P ((P.extractor C).revealTo s ls).engine) :
    Honest P s.engine ∧ ∀ p, Claims s p → p.values is = some (ls.map lsb) ∧
      Claims ((P.extractor C).revealTo s ls) { p with
        outPrv := p.outPrv ++ [ls.map lsb], outVer := p.outVer ++ [ls.map lsb] } := by
  obtain ⟨hx, hb⟩ := verifyOutput_honest (C := C) ls hs'
  refine ⟨hx, fun p hp => ⟨hp.labels hls, hp.wires, ?_⟩⟩
  exact congrArg₂ (· ++ [·]) hp.out hb

theorem claims_revealBits {toParty : Recipient} {is : List ℕ}
    (h : (P.extractor C).step s (.revealBits toParty is) = some s') (hs' : Honest P s'.engine) :
    Honest P s.engine ∧ ∀ p, Claims s p → ClaimsAfter p (.revealBits toParty is) s' := by
  cases toParty with
  | alice =>
    obtain ⟨ls, hls, rfl⟩ := Option.map_eq_some_iff.mp h
    refine ⟨hs', fun p hp => ⟨_, { p with outPrv := p.outPrv ++ [ls.map lsb] }, .refl _, ?_,
      hp.wires, hp.out⟩⟩
    rw [BoolPlain.step, hp.labels hls]
    rfl
  | bob =>
    obtain ⟨ls, hls, rfl⟩ := Option.map_eq_some_iff.mp h
    obtain ⟨hx, hplain⟩ := claims_revealTo hls hs'
    refine ⟨hx, fun p hp => ?_⟩
    obtain ⟨hvalues, hclaims⟩ := hplain p hp
    exact ⟨_, _, .refl _, congrArg (Option.map _) hvalues, hclaims⟩
  | pub =>
    obtain ⟨ls, hls, rfl⟩ := Option.map_eq_some_iff.mp h
    obtain ⟨hx, hplain⟩ := claims_revealTo hls hs'
    refine ⟨hx, fun p hp => ?_⟩
    obtain ⟨hvalues, hclaims⟩ := hplain p hp
    exact ⟨_, _, .refl _, congrArg (Option.map _) hvalues, hclaims⟩

/-- **One operation**: with honest claims, it is the plain operation, on the claimed inputs. -/
theorem claims_step (hC : C.Valid) {op : BoolOp} (h : (P.extractor C).step s op = some s')
    (hs' : Honest P s'.engine) : Honest P s.engine ∧ ∀ p, Claims s p → ClaimsAfter p op s' := by
  cases op with
  | feedBits fromParty input => exact claims_feedBits hC h hs'
  | publicBlock b => exact claims_publicBlock hC h hs'
  | xorBlock i j => exact claims_xorBlock h hs'
  | notBlock i => exact claims_notBlock h hs'
  | andBlock i j => exact claims_andBlock h hs'
  | andBlocks ij => exact claims_andBlocks h hs'
  | revealBits toParty is => exact claims_revealBits h hs'

end Operations

/-- A run with honest claims. -/
theorem claims_run (hC : C.Valid) (ops : List BoolOp) :
    ∀ {s s' : HalfState Extract Block}, Runs.run (P.extractor C).step s ops = some s' →
      Honest P s'.engine → Honest P s.engine ∧ ∀ p, Claims s p → ∃ ops' p',
        List.Forall₂ BoolOp.SameShape ops ops' ∧ Runs.run BoolPlain.step p ops' = some p' ∧
          Claims s' p' := by
  induction ops with
  | nil =>
    intro s s' h hs'
    cases h
    exact ⟨hs', fun p hp => ⟨[], p, .nil, rfl, hp⟩⟩
  | cons op ops ih =>
    intro s s' h hs'
    obtain ⟨s₁, hstep, hrun⟩ := Runs.run_cons_eq_some.mp h
    obtain ⟨hs₁, hrest⟩ := ih hrun hs'
    obtain ⟨hs, hone⟩ := claims_step hC hstep hs₁
    refine ⟨hs, fun p hp => ?_⟩
    obtain ⟨op', p₁, hop, hp₁, hclaims₁⟩ := hone p hp
    obtain ⟨ops', p', hops, hp', hclaims⟩ := hrest p₁ hclaims₁
    exact ⟨op' :: ops', p', .cons hop hops, Runs.run_cons_eq_some.mpr ⟨p₁, hp₁, hp'⟩, hclaims⟩

/-- Before the first operation. -/
def init : Extract := ⟨ZKBool.init, []⟩

/-- When the last batch has been checked, the buffers are right if the batches are. -/
theorem finish_buffered {s s' : HalfState Extract Block} (h : (P.extractor C).finish s = some s')
    (hchecked : ∀ p ∈ s'.engine.checked, p.GatesRight) :
    s'.engine.engine.GatesRight ∧ (Honest P s'.engine → Honest P s.engine) := by
  rw [BoolHalf.finish] at h
  split at h
  · cases h
    have hone : s.engine.engine.GatesRight :=
      hchecked s.engine.engine (List.mem_append_right _ (List.mem_singleton.mpr rfl))
    exact ⟨hone, fun h => ⟨fun p hp => h.checked p (List.mem_append_left _ hp), hone, h.opened⟩⟩
  · rename_i hcnt
    cases h
    have hzero : s.engine.engine.checkCnt = 0 := not_not.mp hcnt
    exact ⟨fun j hj => absurd (hzero ▸ hj) (Nat.not_lt_zero j), id⟩

/-- **A whole program with honest claims.** -/
theorem claims_program (hC : C.Valid) {ops : List BoolOp} {s : HalfState Extract Block}
    (h : (P.extractor C).program init ops = some s) (hs : Honest P s.engine) :
    ∃ ops' p, List.Forall₂ BoolOp.SameShape ops ops' ∧
      Runs.run BoolPlain.step BoolPlain.init ops' = some p ∧ s.out = p.outVer := by
  obtain ⟨s₁, hrun, hfinish⟩ := Option.bind_eq_some_iff.mp h
  have hs₁ := (finish_buffered hfinish hs.checked).2 hs
  obtain ⟨-, hclaims⟩ := claims_run hC ops hrun hs₁
  obtain ⟨ops', p, hshape, hp, hout⟩ := hclaims BoolPlain.init ⟨rfl, rfl⟩
  refine ⟨ops', p, hshape, hp, ?_⟩
  rw [← hout.out]
  rw [BoolHalf.finish] at hfinish
  split at hfinish <;> cases hfinish <;> rfl

/-! ## What gets through -/

theorem atKey_init (δ : Block) : AtKey C P δ init ZKBool.init := by
  refine ⟨?_, fun p hp => (nomatch hp)⟩
  refine congrArg (fun slots => ZKBool.mk _ _ slots _ _) (funext fun j => ?_)
  have hzero : keyUnder δ 0 = 0 := by simp [keyUnder, lsb]
  exact congrArg (fun k => GateSlot.mk k k k false) hzero.symm

/-- **A batch that more than two keys pass is right, combined.** -/
theorem gateError_eq_zero {R : Type*} [CommRing R] [IsDomain R] {φ : Block → R}
    (hG : C.G.Lawful φ) {p : ZKBool} {A : Block × Block} {S : Finset Block} (hcard : 2 < S.card)
    (hS : ∀ δ ∈ S, (checkManageRecv (C.withKey δ) (keysAt P δ p) A).isSome) :
    gateError (C.prg (C.digest p.transcript)) (outs p) p = 0 := by
  by_contra hne
  refine absurd ?_ (not_le.mpr hcard)
  refine BoolConfig.accepts_card_le_two hG (map_gateError hG (outs p) p _) hne fun δ hδ =>
    (BoolConfig.compare_iff hG (map_checkSum_keyAt hG C.threadsVer _ δ (outs p) p) p.drawn A).mp ?_
  exact checkManageRecv_isSome.mp (hS δ hδ)

/-- A wrong opening: the block that is hashed depends on the key. -/
theorem hashed_of_wrong {δ : Block} {p : ZKBool} {k : ℕ} {M : Block} (hM : p.hashed[k]? = some M)
    (hwrong : P.opened k ≠ lsb M) : (keysAt P δ p).hashed[k]? = some (M ^^^ δ) := by
  have hbit : P.opened k = !lsb M := Bool.eq_not.mpr hwrong
  show (p.hashed.mapIdx _)[k]? = _
  rw [List.getElem?_mapIdx, hM, Option.map_some, hbit, keyUnder, xorDeltaIf_eq, xorDeltaIf_eq]
  cases lsb M <;> simp

end BoolPeer

/-- A batch with a wrong gate, whose coefficients cancel. -/
def Extract.BadBatch (C : BoolConfig) (x : Extract) : Prop :=
  ∃ p ∈ x.checked, ¬ p.GatesRight ∧
    gateError (C.prg (C.digest p.transcript)) (outs p) p = 0

/-- The verifier gets through a program, and the digest it receives is its own. -/
def BoolPeer.Accepts {D : Type} (C : BoolConfig) (P : BoolPeer) (authHash : List Block → D)
    (digest : D) (ops : List BoolOp) (v : HalfState ZKBool Block) : Prop :=
  (P.verifier C).program ZKBool.init ops = some v ∧ authHash v.engine.hashed = digest

namespace BoolPeer

open Extract

variable {C : BoolConfig}

/-- **What a cheating prover gets through**, over a whole program.  It sends what it likes, and its
halves of the COTs are what they are; the keys of `S` are those under which the verifier accepts.
If there are more than two, then the outputs are those of the program on inputs of the prover,
unless two of the keys show a collision of `auth_hash`, or the coefficients of some batch with a
wrong gate cancel. -/
theorem program_sound {R : Type*} [CommRing R] [IsDomain R] {φ : Block → R} (hG : C.G.Lawful φ)
    (hC : C.Valid) (mask : ℕ → Bool) (A : ℕ → Block × Block) (opened : ℕ → Bool) {D : Type}
    (authHash : List Block → D) (digest : D) (ops : List BoolOp) (S : Finset Block)
    (hS : ∀ δ ∈ S, lsb δ = true ∧
      ∃ v, (blind mask A opened).Accepts (C.withKey δ) authHash digest ops v) :
    S.card ≤ 2 ∨
    (∃ δ ∈ S, ∃ δ' ∈ S, ∃ v v', (blind mask A opened).Accepts (C.withKey δ) authHash digest ops v ∧
      (blind mask A opened).Accepts (C.withKey δ') authHash digest ops v' ∧
      v.engine.hashed ≠ v'.engine.hashed) ∨
    (∃ x, ((blind mask A opened).extractor C).program init ops = some x ∧ x.engine.BadBatch C) ∨
    ∃ ops' p, List.Forall₂ BoolOp.SameShape ops ops' ∧
      Runs.run BoolPlain.step BoolPlain.init ops' = some p ∧
      ∀ δ ∈ S, ∀ v, (blind mask A opened).Accepts (C.withKey δ) authHash digest ops v →
        v.out = p.outVer := by
  by_cases hcard : S.card ≤ 2
  · exact .inl hcard
  rw [not_le] at hcard
  set P := blind mask A opened with hP
  have hblind : ∀ e e' : ZKBool, e.drawn = e'.drawn → P.check e = P.check e' := fun e e' h =>
    congrArg A h
  -- the labels are the same under all keys
  have hfollow : ∀ δ ∈ S, ∀ v, P.Accepts (C.withKey δ) authHash digest ops v →
      ∃ x, (P.extractor C).program init ops = some x ∧
        BoolHalf.Related (AtKey C P δ) (fun M K => keyUnder δ M = K) x v := fun δ hδ v hv =>
    (extractor_follows (hC.withKey (hS δ hδ).1) hblind).program (atKey_init δ) hv.1 trivial
  obtain ⟨δ₁, hδ₁, δ₂, hδ₂, hne⟩ := Finset.one_lt_card.mp (Nat.lt_of_succ_lt hcard)
  obtain ⟨v₁, hv₁⟩ := (hS δ₁ hδ₁).2
  obtain ⟨x, hx, hR₁⟩ := hfollow δ₁ hδ₁ v₁ hv₁
  have hall : ∀ δ ∈ S, ∀ v, P.Accepts (C.withKey δ) authHash digest ops v →
      BoolHalf.Related (AtKey C P δ) (fun M K => keyUnder δ M = K) x v := fun δ hδ v hv => by
    obtain ⟨x', hx', hR⟩ := hfollow δ hδ v hv
    exact Option.some_inj.mp (hx.symm.trans hx') ▸ hR
  rcases Classical.em (∃ k M, x.engine.engine.hashed[k]? = some M ∧ P.opened k ≠ lsb M) with
    ⟨k, M, hM, hwrong⟩ | hopened
  · obtain ⟨v₂, hv₂⟩ := (hS δ₂ hδ₂).2
    refine .inr (.inl ⟨δ₁, hδ₁, δ₂, hδ₂, v₁, v₂, hv₁, hv₂, fun heq => hne ?_⟩)
    have h₁ := hashed_of_wrong (δ := δ₁) hM hwrong
    have h₂ := hashed_of_wrong (δ := δ₂) hM hwrong
    rw [← hR₁.engine.engine, heq, (hall δ₂ hδ₂ v₂ hv₂).engine.engine, h₂, Option.some_inj] at h₁
    exact (BitVec.xor_right_inj M).mp h₁.symm
  rcases Classical.em (∃ p ∈ x.engine.checked, ¬ p.GatesRight) with ⟨p, hp, hwrong⟩ | hchecked
  · refine .inr (.inr (.inl ⟨x, hx, p, hp, hwrong, gateError_eq_zero (P := P) (A := A p.drawn) hG
      hcard fun δ hδ => ?_⟩))
    obtain ⟨v, hv⟩ := (hS δ hδ).2
    exact (hall δ hδ v hv).engine.checked p hp
  · -- everything is right
    have hchecked : ∀ p ∈ x.engine.checked, p.GatesRight := fun p hp =>
      not_not.mp fun hwrong => hchecked ⟨p, hp, hwrong⟩
    obtain ⟨s, -, hfinish⟩ := Option.bind_eq_some_iff.mp hx
    have hhonest : Honest P x.engine := ⟨hchecked, (finish_buffered hfinish hchecked).1,
      fun k M hM => not_not.mp fun hwrong => hopened ⟨k, M, hM, hwrong⟩⟩
    obtain ⟨ops', p, hshape, hrun, hout⟩ := claims_program hC hx hhonest
    exact .inr (.inr (.inr ⟨ops', p, hshape, hrun, fun δ hδ v hv =>
      (hall δ hδ v hv).out.symm.trans hout⟩))

/-- A prover that follows the protocol: two inputs, their conjunction, its opening. -/
def onePeer : BoolPeer :=
  blind (fun i => i != 1) (fun _ => (0x392, 0x55555555555555555555555555555555)) fun _ => true

/-- The program of `onePeer`. -/
def oneGate : List BoolOp := [.feedBits .alice [true, true], .andBlock 0 1, .revealBits .pub [2]]

/-- Three keys accept the opening 1, so there are inputs with that conjunction. -/
theorem program_sound_oneGate :
    ∃ ops' p, List.Forall₂ BoolOp.SameShape oneGate ops' ∧
      Runs.run BoolPlain.step BoolPlain.init ops' = some p ∧ p.outVer = [[true]] := by
  have hrun : ∀ δ ∈ ({3, 5, 7} : Finset Block),
      (((onePeer.verifier (BoolSession.smallConfig.withKey δ)).program ZKBool.init oneGate).map
        fun v => (v.out, v.engine.hashed)) = some ([[true]], [9]) := by
    simp only [Finset.mem_insert, Finset.mem_singleton, forall_eq_or_imp, forall_eq]
    exact ⟨by decide +kernel, by decide +kernel, by decide +kernel⟩
  have hright : (((onePeer.extractor BoolSession.smallConfig).program init oneGate).map fun x =>
      x.engine.checked.all fun p => (List.range p.checkCnt).all fun j =>
        lsb (p.slots j).out == (lsb (p.slots j).left && lsb (p.slots j).right)) = some true := by
    decide +kernel
  have hodd : ∀ δ ∈ ({3, 5, 7} : Finset Block), lsb δ = true := by
    simp only [Finset.mem_insert, Finset.mem_singleton, forall_eq_or_imp, forall_eq]
    decide
  have hS : ∀ δ ∈ ({3, 5, 7} : Finset Block), lsb δ = true ∧
      ∃ v, onePeer.Accepts (BoolSession.smallConfig.withKey δ) id [9] oneGate v := by
    intro δ hδ
    obtain ⟨v, hv, hval⟩ := Option.map_eq_some_iff.mp (hrun δ hδ)
    exact ⟨hodd δ hδ, v, hv, congrArg Prod.snd hval⟩
  rcases program_sound GfOps.std_lawful BoolSession.smallConfig_valid _ _ _ id [9] oneGate
      {3, 5, 7} hS with hcard | ⟨δ, -, δ', -, v, v', hv, hv', hne⟩ | ⟨x, hx, p, hp, hwrong, -⟩ |
      ⟨ops', p, hshape, hp, hout⟩
  · exact absurd hcard (by decide)
  · exact absurd (hv.2.trans hv'.2.symm) hne
  · refine absurd (fun j hj => ?_) hwrong
    obtain ⟨x', hx', hall⟩ := Option.map_eq_some_iff.mp hright
    cases Option.some_inj.mp (hx.symm.trans hx')
    simpa using List.all_eq_true.mp (List.all_eq_true.mp hall p hp) j (List.mem_range.mpr hj)
  · obtain ⟨v, hv⟩ := (hS 3 (by decide)).2
    obtain ⟨v', hv', hval⟩ := Option.map_eq_some_iff.mp (hrun 3 (by decide))
    cases Option.some_inj.mp (hv.1.symm.trans hv')
    exact ⟨ops', p, hshape, hp, (hout 3 (by decide) v hv).symm.trans (congrArg Prod.fst hval)⟩

end BoolPeer

end VoleZk
