import VoleZk.Arith.Pair
import VoleZk.Arith.ProgramSound
import VoleZk.Lib.Tape
import Mathlib.Data.Fintype.Pi

/-!
# What the verifier of the arithmetic engine learns

A word that reaches the verifier is masked by the value of a correlation that masks nothing else, or
is an opened output; the first word of a check follows from the second one, because the check
passes.  So all that the verifier sees can be made up from its own halves, the outputs and as many
random residues as there are correlations.

## What is here

* `FpConfig.withVals` — the same halves of the verifier, and any values of the prover;
* `FpConfig.simPeer`, `FpPeer.listener` — the simulator, and the verifier with all it hears;
* `FpPair.Clean` — no correlation masks two words;
* `FpConfig.decoder_follows` — the tape determines the values of the correlations;
* `FpConfig.listener_follows` — **the verifier hears what the simulator makes up**;
* `FpSession.fp_view_simulated` — **on a tape that is as random as the correlations.**
-/

set_option autoImplicit false

namespace VoleZk

open FpOSTriple

/-! ## Definitions -/

namespace FpConfig

variable (C : FpConfig)

/-- The set-up in which the prover's values of the correlations are `u`. -/
def withVals (u : ℕ → ZMod PR) : FpConfig :=
  { C with
    volePrv := fun i => ⟨(u i).val, ((C.voleVer i).mac + (u i).val * C.delta) % PR⟩ }

/-- The first word of a check that passes with the second word `V`. -/
def passing (e : FpOSTriple) (V : ℕ) : ℕ :=
  let sums := (slices C e.checkCnt).map fun (t, start, taskN) =>
    checkRecv C.F C.delta e (chi C e.checks t) start taskN
  let W := sums.foldl (fun W w => C.F.addMod W w) 0
  C.F.addMod (C.F.multMod V C.delta) (C.F.addMod W (C.voleVer e.drawn).mac)

/-- The simulator: corrections and second words from the tape, first words from what the verifier
expects, opened words from the outputs. -/
def simPeer (t : ℕ → ZMod PR) (outs : List ℕ) : FpPeer where
  correction i := (t i).val
  check e := (C.passing e (t e.drawn).val, (t e.drawn).val)
  opened k := outs.getD k 0

end FpConfig

/-- The verifier, and the words it has received. -/
@[ext]
structure FpHeard where
  /-- The verifier. -/
  verifier : FpVerifier
  /-- The words. -/
  words : List ℕ

namespace FpPeer

/-- The verifier, on what the prover sends, with all the words. -/
def listener (P : FpPeer) (C : FpConfig) : FpHalf FpHeard AuthVal where
  checkSz := C.checkSz
  checkCnt x := x.verifier.engine.checkCnt
  newBatch x := { x with verifier := (P.verifier C).newBatch x.verifier }
  pubLabel := (P.verifier C).pubLabel
  addGate := (P.verifier C).addGate
  subGate := (P.verifier C).subGate
  negGate := (P.verifier C).negGate
  mulConstGate := (P.verifier C).mulConstGate
  authenticatedValInput x w :=
    let (v, Ks) := (P.verifier C).authenticatedValInput x.verifier w
    (⟨v, x.words ++ P.corrections x.verifier.engine.drawn w.length⟩, Ks)
  checkManage x := ((P.verifier C).checkManage x.verifier).map fun v =>
    ⟨v, x.words ++ [(P.check x.verifier.engine).1, (P.check x.verifier.engine).2]⟩
  authComputeMul x a b :=
    let (v, K) := (P.verifier C).authComputeMul x.verifier a b
    (⟨v, x.words ++ [P.correction (x.verifier.base + x.verifier.engine.checkCnt)]⟩, K)
  mulBlock x ab :=
    let (v, Ks) := (P.verifier C).mulBlock x.verifier ab
    (⟨v, x.words ++ P.corrections (x.verifier.base + x.verifier.engine.checkCnt) ab.length⟩, Ks)
  reveal x ls :=
    let (v, value) := (P.verifier C).reveal x.verifier ls
    (⟨v, x.words ++ value⟩, value)
  revealCheckZero x ls := { x with verifier := (P.verifier C).revealCheckZero x.verifier ls }

end FpPeer

/-- The prover's engine, and its values of the correlations. -/
structure FpDecoded where
  /-- The engine. -/
  prover : FpOSTriple
  /-- Where the buffers of the batch were filled from. -/
  base : ℕ
  /-- The values; those of correlations that have not been used are on the tape. -/
  vals : ℕ → ZMod PR

namespace FpConfig

variable (C : FpConfig) (t : ℕ → ZMod PR)

/-- One product of a prover whose values are read off a tape. -/
def decodeMul (x : FpDecoded) (a b : AuthVal) : FpDecoded × AuthVal :=
  let i := x.base + x.prover.checkCnt
  let vals := Function.update x.vals i (t i - (PR - C.F.multMod a.val b.val : ℕ))
  let e := { x.prover with
    outBuf := Function.update x.prover.outBuf x.prover.checkCnt ((C.withVals vals).volePrv i) }
  let (p, M, _) := mulSend C.F e e.checkCnt a b
  (⟨{ p with checkCnt := p.checkCnt + 1 }, x.base, vals⟩, M)

/-- One product after the other. -/
def decodeBlock : FpDecoded → List (AuthVal × AuthVal) → FpDecoded × List AuthVal
  | x, [] => (x, [])
  | x, ab :: abs =>
    let (x, M) := C.decodeMul t x ab.1 ab.2
    let (x, Ms) := decodeBlock x abs
    (x, M :: Ms)

/-- The prover whose values of the correlations are read off a tape. -/
def decoder : FpHalf FpDecoded AuthVal where
  checkSz := C.checkSz
  checkCnt x := x.prover.checkCnt
  newBatch x :=
    { x with
      prover := fillVole C C.volePrv { x.prover with checkCnt := 0 }
      base := x.prover.drawn }
  pubLabel := Prv.pubLabel C.pubMac
  addGate := Prv.addGate C.F
  subGate := Prv.subGate C.F
  negGate := Prv.negGate C.F
  mulConstGate := Prv.mulConstGate C.F
  authenticatedValInput x w :=
    let d := x.prover.drawn
    let vals := fun i =>
      if d ≤ i ∧ i < d + w.length then t i - (PR - w.getD (i - d) 0 : ℕ) else x.vals i
    let (p, Ms, _) := authenticatedValInputSend C.F (C.withVals vals).volePrv x.prover w
    (⟨p, x.base, vals⟩, Ms)
  checkManage x :=
    let d := x.prover.drawn
    some { x with
      prover := { x.prover with drawn := d + 1, checks := x.prover.checks + 1 }
      vals := Function.update x.vals d
        (t d - (batchTerm C 0 x.prover x.prover.checkCnt).lin) }
  authComputeMul := C.decodeMul t
  mulBlock := C.decodeBlock t
  reveal x ls :=
    let (p, value) := revealSend x.prover ls
    ({ x with prover := p }, value)
  revealCheckZero x ls := { x with prover := FpOSTriple.revealCheckZero x.prover ls }

end FpConfig

/-- The counters of an engine. -/
structure FpCounts where
  /-- The correlations drawn. -/
  drawn : ℕ
  /-- The products of the current batch. -/
  checkCnt : ℕ
  /-- The opened words. -/
  opened : ℕ

namespace FpConfig

/-- A program on the counters, with given openings. -/
def counter (C : FpConfig) (outs : List ℕ) : FpHalf FpCounts Unit where
  checkSz := C.checkSz
  checkCnt := FpCounts.checkCnt
  newBatch c := { c with drawn := c.drawn + C.checkSz, checkCnt := 0 }
  pubLabel _ := ()
  addGate _ _ := ()
  subGate _ _ := ()
  negGate _ := ()
  mulConstGate _ _ := ()
  authenticatedValInput c w := ({ c with drawn := c.drawn + w.length }, w.map fun _ => ())
  checkManage c := some { c with drawn := c.drawn + 1 }
  authComputeMul c _ _ := ({ c with checkCnt := c.checkCnt + 1 }, ())
  mulBlock c ab := ({ c with checkCnt := c.checkCnt + ab.length }, ab.map fun _ => ())
  reveal c ls :=
    ({ c with opened := c.opened + ls.length },
      (List.range ls.length).map fun i => outs.getD (c.opened + i) 0)
  revealCheckZero c ls := { c with opened := c.opened + ls.length }

end FpConfig

/-! ## The prover's values -/

namespace FpOps.Canonical

variable {F : FpOps} (hF : F.Canonical) {u : ℕ} (hu : u < PR) (w : ℕ)
include hF hu

/-- A masked word is a residue. -/
theorem mask_lt : F.addMod u (PR - w) < PR := hF.addMod_lt hu.le (Nat.sub_le _ _) (by omega)

theorem mask_cast : (F.addMod u (PR - w) : ZMod PR) = u + (PR - w : ℕ) :=
  hF.addMod_cast hu.le (Nat.sub_le _ _) (by omega)

end FpOps.Canonical

namespace FpConfig

variable {C : FpConfig}

theorem Valid.withVals (hC : C.Valid) (u : ℕ → ZMod PR) : (C.withVals u).Valid where
  canonical := hC.canonical
  delta_lt := hC.delta_lt
  pubMac_lt := hC.pubMac_lt
  vole i := by
    obtain ⟨_, h⟩ := hC.vole i
    exact ⟨(u i).val, rfl, ZMod.val_lt _, h.key_val, Nat.mod_lt _ PR_pos, h.key_lt, rfl⟩
  checkSz_pos := hC.checkSz_pos
  prg_lt := hC.prg_lt

theorem withVals_congr {u u' : ℕ → ZMod PR} {i : ℕ} (h : u i = u' i) :
    (C.withVals u).volePrv i = (C.withVals u').volePrv i := by
  simp only [withVals, h]

end FpConfig

theorem Carries.own {a : AuthVal} {x : ℕ} (h : Carries a x) : Carries a a.val :=
  ⟨rfl, h.val_eq ▸ h.val_lt, h.mac_lt⟩

/-! ## What was sent -/

theorem map_fst_numbered (d : ℕ) (words : List ℕ) :
    (numbered d words).map Prod.fst = List.range' d words.length :=
  List.map_fst_zip (by simp)

theorem mem_numbered {d : ℕ} {words : List ℕ} {m : ℕ × ℕ} (h : m ∈ numbered d words) :
    (d ≤ m.1 ∧ m.1 < d + words.length) ∧ m.2 ∈ words :=
  ⟨List.mem_range'_1.mp (List.of_mem_zip h).1, (List.of_mem_zip h).2⟩

/-- **No correlation masks two words**: the ones that were used are not those of the buffer that are
still free, and all values are residues. -/
structure FpPair.Clean (C : FpConfig) (x : FpPair) : Prop where
  /-- The slots of the batch. -/
  reduced : x.prover.Reduced x.prover.checkCnt
  /-- The free slots. -/
  fresh : ∀ j, x.prover.checkCnt ≤ j → x.prover.outBuf j = C.volePrv (x.base + j)
  /-- The batch is not over full. -/
  cnt_le : x.prover.checkCnt ≤ C.checkSz
  /-- The buffer was drawn. -/
  room : x.base + C.checkSz ≤ x.prover.drawn
  /-- The words are residues. -/
  words : ∀ m ∈ x.sent, m.2 < PR
  /-- Each word has a correlation of its own. -/
  nodup : (x.sent.map Prod.fst).Nodup
  /-- The free slots have not masked anything. -/
  spare : ∀ m ∈ x.sent, m.1 < x.base + x.prover.checkCnt ∨
    x.base + C.checkSz ≤ m.1 ∧ m.1 < x.prover.drawn

namespace FpPair.Clean

variable {C : FpConfig} {x : FpPair} (h : x.Clean C)
include h

theorem lt_drawn {m : ℕ × ℕ} (hm : m ∈ x.sent) : m.1 < x.prover.drawn := by
  have := h.spare m hm
  have := h.room
  have := h.cnt_le
  omega

/-- More words, under new correlations. -/
theorem draw (words : List ℕ) {tr : List ℕ} (hwords : ∀ w ∈ words, w < PR) {p v : FpOSTriple}
    (hdrawn : p.drawn = x.prover.drawn + words.length) (hcnt : p.checkCnt = x.prover.checkCnt)
    (hleft : p.leftBuf = x.prover.leftBuf) (hright : p.rightBuf = x.prover.rightBuf)
    (hout : p.outBuf = x.prover.outBuf) :
    FpPair.Clean C { x with
      prover := p
      verifier := v
      sent := x.sent ++ numbered x.prover.drawn words
      transcript := tr } where
  reduced := by
    simp only [hcnt]
    exact ⟨hleft ▸ h.reduced.left, hright ▸ h.reduced.right, hout ▸ h.reduced.out⟩
  fresh := by
    simp only [hcnt, hout]
    exact h.fresh
  cnt_le := hcnt.trans_le h.cnt_le
  room := h.room.trans (hdrawn ▸ Nat.le_add_right _ _)
  words m hm := by
    rcases List.mem_append.mp hm with hm | hm
    · exact h.words m hm
    · exact hwords _ (mem_numbered hm).2
  nodup := by
    rw [List.map_append, map_fst_numbered]
    refine h.nodup.append List.nodup_range' fun i hi hi' => ?_
    obtain ⟨m, hm, rfl⟩ := List.mem_map.mp hi
    exact absurd (List.mem_range'_1.mp hi').1 (Nat.not_le.mpr (h.lt_drawn hm))
  spare m hm := by
    have hroom := h.room
    simp only [hcnt, hdrawn]
    rcases List.mem_append.mp hm with hm | hm
    · have := h.spare m hm
      omega
    · have := (mem_numbered hm).1
      omega

theorem newBatch : (C.pair.newBatch x).Clean C where
  reduced := ⟨fun _ hi => (Nat.not_lt_zero _ hi).elim, fun _ hi => (Nat.not_lt_zero _ hi).elim,
    fun _ hi => (Nat.not_lt_zero _ hi).elim⟩
  fresh _ _ := rfl
  cnt_le := Nat.zero_le _
  room := le_rfl
  words := h.words
  nodup := h.nodup
  spare _ hm := .inl (h.lt_drawn hm)

theorem authenticatedValInput (hC : C.Valid) {w : List ℕ} :
    (C.pair.authenticatedValInput x w).1.Clean C := by
  have hlen : (authenticatedValInputSend C.F C.volePrv x.prover w).2.2.length = w.length := by
    simp [authenticatedValInputSend, drawVole]
  refine h.draw _ (fun s hs => ?_) (congrArg (_ + ·) hlen.symm) rfl rfl rfl rfl
  obtain ⟨i, -, rfl⟩ := List.mem_iff_getElem.mp hs
  simp only [List.getElem_zipWith, List.getElem_map]
  exact hC.canonical.mask_lt (hC.volePrv_lt _).1 _

theorem checkManage (hC : C.Valid) {x₁ : FpPair} (hcheck : C.pair.checkManage x = some x₁) :
    x₁.Clean C := by
  obtain ⟨v, -, rfl⟩ := Option.map_eq_some_iff.mp hcheck
  have hword := (checkManageSend_cast (c := 0) hC h.reduced).2.1
  exact h.draw [(checkManageSend C x.prover).2.2]
    (fun w hw => List.mem_singleton.mp hw ▸ hword) rfl rfl rfl rfl rfl

theorem authComputeMul (hC : C.Valid) {a b : Label} (ha : Carries a.prover a.prover.val)
    (hb : Carries b.prover b.prover.val) (hcnt : x.prover.checkCnt ≠ C.checkSz) :
    (C.pair.authComputeMul x a b).1.Clean C ∧
      Carries (C.pair.authComputeMul x a b).2.prover
        (C.pair.authComputeMul x a b).2.prover.val := by
  have hlt : x.prover.checkCnt < C.checkSz := h.cnt_le.lt_of_ne hcnt
  have hroom := h.room
  have hslot : x.prover.outBuf x.prover.checkCnt = C.volePrv (x.base + x.prover.checkCnt) :=
    h.fresh _ le_rfl
  obtain ⟨hval, hmac⟩ := hC.volePrv_lt (x.base + x.prover.checkCnt)
  have hprod : C.F.multMod a.prover.val b.prover.val < PR :=
    hC.canonical.multMod_lt ha.val_lt hb.val_lt
  refine ⟨⟨⟨?_, ?_, ?_⟩, ?_, hlt, hroom, ?_, ?_, ?_⟩, ⟨rfl, hprod, ?_⟩⟩
  · intro i (hi : i < x.prover.checkCnt + 1)
    simp only [FpConfig.pair, mulSend, Function.update_apply]
    split
    · exact ⟨ha.val_lt, ha.mac_lt⟩
    · exact h.reduced.left i (by omega)
  · intro i (hi : i < x.prover.checkCnt + 1)
    simp only [FpConfig.pair, mulSend, Function.update_apply]
    split
    · exact ⟨hb.val_lt, hb.mac_lt⟩
    · exact h.reduced.right i (by omega)
  · intro i (hi : i < x.prover.checkCnt + 1)
    simp only [FpConfig.pair, mulSend, Function.update_apply]
    split
    · exact hslot ▸ hmac
    · exact h.reduced.out i (by omega)
  · intro j (hj : x.prover.checkCnt + 1 ≤ j)
    exact (Function.update_of_ne (by omega) _ _).trans (h.fresh j (by omega))
  · intro m hm
    rcases List.mem_append.mp hm with hm | hm
    · exact h.words m hm
    · rw [List.mem_singleton.mp hm]
      exact hC.canonical.mask_lt (hslot ▸ hval) _
  · simp only [FpConfig.pair, List.map_append, List.map_cons, List.map_nil]
    refine h.nodup.append (List.nodup_singleton _) fun i hi hi' => ?_
    obtain ⟨m, hm, rfl⟩ := List.mem_map.mp hi
    have hkey : m.1 = x.base + x.prover.checkCnt := List.mem_singleton.mp hi'
    have := h.spare m hm
    omega
  · intro m hm
    simp only [FpConfig.pair, mulSend]
    rcases List.mem_append.mp hm with hm | hm
    · have := h.spare m hm
      omega
    · rw [List.mem_singleton.mp hm]
      exact .inl (by omega)
  · have hmac' : (x.prover.outBuf x.prover.checkCnt).mac < PR := hslot ▸ hmac
    exact hmac'

theorem reveal (ls : List Label) : (C.pair.reveal x ls).1.Clean C :=
  ⟨⟨h.reduced.left, h.reduced.right, h.reduced.out⟩, h.fresh, h.cnt_le, h.room, h.words, h.nodup,
    h.spare⟩

theorem revealCheckZero (ls : List Label) : (C.pair.revealCheckZero x ls).Clean C :=
  ⟨⟨h.reduced.left, h.reduced.right, h.reduced.out⟩, h.fresh, h.cnt_le, h.room, h.words, h.nodup,
    h.spare⟩

end FpPair.Clean

/-! ## Lists of labels -/

theorem mem_numbered_getElem (d : ℕ) (words : List ℕ) {i : ℕ} (hi : i < words.length) :
    (d + i, words[i]) ∈ numbered d words :=
  List.mem_iff_getElem.mpr ⟨i, by simpa [numbered] using hi, by simp [numbered]⟩

theorem forall₂_unit_of_mem {α β : Type*} {Q : β → Prop} {l : List α} {ls : List β}
    (hlen : l.length = ls.length) (h : ∀ b ∈ ls, Q b) :
    List.Forall₂ (fun (_ : Unit) b => Q b) (l.map fun _ => ()) ls :=
  List.forall₂_iff_get.mpr ⟨by simp [hlen], fun _ _ hi => h _ (List.get_mem _ ⟨_, hi⟩)⟩

theorem forall₂_zipWith_label {Ms Ks : List AuthVal} (hlen : Ms.length = Ks.length)
    (hMs : ∀ M ∈ Ms, Carries M M.val) :
    List.Forall₂ (fun M (l : Label) => M = l.prover ∧ Carries M M.val) Ms
      (List.zipWith Label.mk Ms Ks) :=
  List.forall₂_iff_get.mpr ⟨by simp [hlen], fun i hi _ => ⟨by simp, hMs _ (List.get_mem _ ⟨i, hi⟩)⟩⟩

theorem forall₂_zipWith_key {Ms Ks : List AuthVal} (hlen : Ms.length = Ks.length) :
    List.Forall₂ (fun K (l : Label) => K = l.verifier) Ks (List.zipWith Label.mk Ms Ks) :=
  List.forall₂_iff_get.mpr ⟨by simp [hlen], fun i _ _ => by simp⟩

/-- Fed labels are residues. -/
theorem authenticatedValInputSend_carries {C : FpConfig} (hC : C.Valid) (p : FpOSTriple)
    {w : List ℕ} (hw : ∀ v ∈ w, v < PR) :
    ∀ M ∈ (authenticatedValInputSend C.F C.volePrv p w).2.1, Carries M M.val := by
  intro M hM
  obtain ⟨i, hi, rfl⟩ := List.mem_iff_getElem.mp hM
  simp only [authenticatedValInputSend, drawVole, List.getElem_zipWith, List.getElem_map]
  exact ⟨rfl, hw _ (List.getElem_mem _), (hC.volePrv_lt _).2⟩

/-! ## How many correlations a program draws -/

namespace FpConfig

variable {C : FpConfig} {S : List (ℕ × ℕ)} {outs : List ℕ}

/-- The counters of the two parties, no correlation of which masks two words. -/
structure Counted (C : FpConfig) (c : FpCounts) (x : FpPair) : Prop where
  /-- The counters. -/
  counts : c = ⟨x.prover.drawn, x.prover.checkCnt, x.opened.length⟩
  /-- The correlations. -/
  clean : x.Clean C

theorem counter_iterates (C : FpConfig) (outs : List ℕ) : (C.counter outs).Iterates where
  nil _ := rfl
  cons c a b ab := by
    simp only [counter, List.length_cons, List.map_cons]
    rw [Nat.add_comm ab.length, Nat.add_assoc]
  checkCnt _ _ _ := rfl

/-- **The counters do not depend on the values.** -/
theorem counter_follows (hC : C.Valid) (S : List (ℕ × ℕ)) (outs : List ℕ) :
    (C.counter outs).Follows C.pair (FpPair.Within S outs) (Counted C)
      fun _ l => Carries l.prover l.prover.val := by
  have hmul : ∀ (c : FpCounts) (x : FpPair) (_ _ : Unit) (a b : Label),
      C.pair.checkCnt x ≠ C.pair.checkSz → Counted C c x → Carries a.prover a.prover.val →
      Carries b.prover b.prover.val → FpPair.Within S outs (C.pair.authComputeMul x a b).1 →
      Counted C ((C.counter outs).authComputeMul c () ()).1 (C.pair.authComputeMul x a b).1 ∧
        Carries (C.pair.authComputeMul x a b).2.prover
          (C.pair.authComputeMul x a b).2.prover.val := by
    rintro _ x - - a b hroom ⟨rfl, hclean⟩ ha hb -
    obtain ⟨hclean', hc⟩ := hclean.authComputeMul hC ha hb hroom
    exact ⟨⟨rfl, hclean'⟩, hc⟩
  exact {
    persists := pair_persists C S outs
    good_newBatch := fun _ h => ⟨h.sent, h.opened⟩
    checkSz := rfl
    checkCnt := by
      rintro _ x ⟨rfl, -⟩
      rfl
    newBatch := by
      rintro _ x ⟨rfl, hclean⟩
      exact ⟨rfl, hclean.newBatch⟩
    newBatch_room := fun _ => hC.checkSz_pos.ne
    pubLabel := fun a ha => Carries.pubLabel hC ha
    addGate := fun _ _ _ _ hl hr => (Carries.addGate hC hl hr).own
    subGate := fun _ _ _ _ hl hr => (Carries.subGate hC hl hr).own
    negGate := fun _ _ hl => (Carries.negGate hC hl).own
    mulConstGate := fun _ _ c hc hl => (Carries.mulConstGate hC hl hc).own
    authenticatedValInput := by
      rintro _ x w hw ⟨rfl, hclean⟩ -
      refine ⟨⟨rfl, hclean.authenticatedValInput hC⟩, forall₂_unit_of_mem ?_ fun l hl => ?_⟩
      · simp [pair, authenticatedValInputSend, authenticatedValInputRecv, drawVole]
      · obtain ⟨i, hi, rfl⟩ := List.mem_iff_getElem.mp hl
        simp only [pair, List.getElem_zipWith]
        exact authenticatedValInputSend_carries hC x.prover hw _ (List.getElem_mem _)
    checkManage := by
      rintro _ x x₁ ⟨rfl, hclean⟩ hcheck -
      refine ⟨_, rfl, ?_, hclean.checkManage hC hcheck⟩
      obtain ⟨v, -, rfl⟩ := Option.map_eq_some_iff.mp hcheck
      rfl
    authComputeMul := fun c x _ _ a b => hmul c x () () a b
    mulBlock := fun c x _ ab hroom hR hab hgood =>
      (counter_iterates C outs).follows (pair_iterates C) (pair_persists C S outs)
        (fun c x _ _ a b => hmul c x () () a b) hroom hR hab hgood
    reveal := by
      rintro _ x us ls ⟨rfl, hclean⟩ hls hwithin
      have hlen := hls.length_eq
      refine ⟨⟨?_, hclean.reveal ls⟩, Tape.map_getD_of_append_prefix _ hwithin.opened rfl ?_⟩
      · simp [counter, pair, revealSend, hlen]
      · simp [hlen]
    revealCheckZero := by
      rintro _ x us ls ⟨rfl, hclean⟩ hls -
      refine ⟨?_, hclean.revealCheckZero ls⟩
      simp [counter, pair, FpOSTriple.revealCheckZero, hls.length_eq] }

/-! ## The simulator -/

section Simulator

variable {u t : ℕ → ZMod PR} (hT : ∀ m ∈ S, m.2 = (t m.1).val)

/-- The verifier on its own, and the two parties. -/
structure Sees (e : FpHeard) (x : FpPair) : Prop where
  /-- The verifier. -/
  verifier : e.verifier = ⟨x.verifier, x.base⟩
  /-- The words. -/
  words : e.words = x.transcript
  /-- The parties have drawn the same correlations. -/
  drawn : x.verifier.drawn = x.prover.drawn
  /-- The parties are at the same place in the batch. -/
  checkCnt : x.verifier.checkCnt = x.prover.checkCnt
  /-- One opening for each word that was hashed. -/
  opened : x.opened.length = x.verifier.hashed.length

theorem passing_of_accept {e v : FpOSTriple} {A : ℕ × ℕ} (h : checkManageRecv C e A = some v) :
    (C.passing e A.2, A.2) = A ∧ v = { e with drawn := e.drawn + 1, checks := e.checks + 1 } := by
  rw [checkManageRecv] at h
  dsimp only at h
  split at h
  · rename_i heq
    exact ⟨Prod.ext heq.symm rfl, (Option.some_inj.mp h).symm⟩
  · cases h

include hT

/-- What is read off the tape is what was sent. -/
theorem corrections_of_sent {sent : List (ℕ × ℕ)} {d : ℕ} {words : List ℕ}
    (h : sent ++ numbered d words <+: S) {n : ℕ} (hn : words.length = n) :
    (C.simPeer t outs).corrections d n = words := by
  subst hn
  refine List.ext_getElem (by simp [FpPeer.corrections]) fun i _ hi => ?_
  simp only [FpPeer.corrections, simPeer, List.getElem_map, List.getElem_range]
  exact (hT _ (h.subset (List.mem_append_right _ (mem_numbered_getElem d words hi)))).symm

namespace Sees

variable {x : FpPair} {words : List ℕ}
  (h : Sees ⟨⟨x.verifier, x.base⟩, words⟩ x)
include h

theorem authenticatedValInput (w : List ℕ)
    (hwithin : FpPair.Within S outs ((C.withVals u).pair.authenticatedValInput x w).1) :
    Sees (((C.simPeer t outs).listener C).authenticatedValInput
        ⟨⟨x.verifier, x.base⟩, words⟩ w).1 ((C.withVals u).pair.authenticatedValInput x w).1 ∧
      List.Forall₂ (fun K (l : Label) => K = l.verifier)
        (((C.simPeer t outs).listener C).authenticatedValInput
          ⟨⟨x.verifier, x.base⟩, words⟩ w).2
        ((C.withVals u).pair.authenticatedValInput x w).2 := by
  set lam := (authenticatedValInputSend C.F (C.withVals u).volePrv x.prover w).2.2 with hlam
  have hlen : lam.length = w.length := by simp [hlam, authenticatedValInputSend, drawVole]
  have hread : (C.simPeer t outs).corrections x.verifier.drawn w.length = lam := by
    rw [h.drawn]
    exact corrections_of_sent hT hwithin.sent hlen
  have hrecv : ((C.simPeer t outs).listener C).authenticatedValInput
      ⟨⟨x.verifier, x.base⟩, words⟩ w
        = (⟨⟨(authenticatedValInputRecv C.F C.voleVer C.delta x.verifier lam).1, x.base⟩,
            words ++ lam⟩, (authenticatedValInputRecv C.F C.voleVer C.delta x.verifier lam).2) := by
    simp only [FpPeer.listener, FpPeer.verifier, hread]
  rw [hrecv]
  refine ⟨⟨rfl, congrArg (· ++ lam) h.words, ?_, h.checkCnt, h.opened⟩, ?_⟩
  · exact congrArg₂ (· + ·) h.drawn hlen
  · refine forall₂_zipWith_key ?_
    simp [authenticatedValInputRecv, drawVole, hlen]

theorem checkManage {x₁ : FpPair} (hcheck : (C.withVals u).pair.checkManage x = some x₁)
    (hwithin : FpPair.Within S outs x₁) :
    ∃ e₁, ((C.simPeer t outs).listener C).checkManage ⟨⟨x.verifier, x.base⟩, words⟩ = some e₁ ∧
      Sees e₁ x₁ := by
  obtain ⟨v, hrecv, rfl⟩ := Option.map_eq_some_iff.mp hcheck
  set A := (checkManageSend (C.withVals u) x.prover).2 with hA
  obtain ⟨hpass, hv⟩ := passing_of_accept (C := C) (A := A) hrecv
  have hword : A.2 = (t x.verifier.drawn).val := by
    rw [h.drawn]
    exact hT (x.prover.drawn, A.2)
      (hwithin.sent.subset (List.mem_append_right _ (List.mem_singleton_self _)))
  have hread : (C.simPeer t outs).check x.verifier = A := by
    show (C.passing x.verifier (t x.verifier.drawn).val, (t x.verifier.drawn).val) = A
    rw [← hword, hpass]
  have hsome : ((C.simPeer t outs).listener C).checkManage ⟨⟨x.verifier, x.base⟩, words⟩
      = some ⟨⟨v, x.base⟩, words ++ [A.1, A.2]⟩ := by
    have hrecv' : checkManageRecv C x.verifier A = some v := hrecv
    simp only [FpPeer.listener, FpPeer.verifier, hread, hrecv', Option.map_some]
  refine ⟨_, hsome, rfl, congrArg (· ++ [A.1, A.2]) h.words, ?_, ?_, ?_⟩
  · rw [hv]
    exact congrArg (· + 1) h.drawn
  · rw [hv]
    exact h.checkCnt
  · rw [hv]
    exact h.opened

theorem authComputeMul (a b : Label)
    (hwithin : FpPair.Within S outs ((C.withVals u).pair.authComputeMul x a b).1) :
    Sees (((C.simPeer t outs).listener C).authComputeMul ⟨⟨x.verifier, x.base⟩, words⟩
        a.verifier b.verifier).1 ((C.withVals u).pair.authComputeMul x a b).1 ∧
      (((C.simPeer t outs).listener C).authComputeMul ⟨⟨x.verifier, x.base⟩, words⟩
        a.verifier b.verifier).2 = ((C.withVals u).pair.authComputeMul x a b).2.verifier := by
  set d := (mulSend C.F x.prover x.prover.checkCnt a.prover b.prover).2.2 with hd
  have hread : (C.simPeer t outs).correction (x.base + x.verifier.checkCnt) = d := by
    rw [h.checkCnt]
    exact (hT (x.base + x.prover.checkCnt, d)
      (hwithin.sent.subset (List.mem_append_right _ (List.mem_singleton_self _)))).symm
  have hrecv : ((C.simPeer t outs).listener C).authComputeMul ⟨⟨x.verifier, x.base⟩, words⟩
      a.verifier b.verifier
        = (⟨⟨{ (mulRecv C.F C.delta x.verifier x.verifier.checkCnt a.verifier b.verifier d).1 with
              checkCnt := x.verifier.checkCnt + 1 }, x.base⟩, words ++ [d]⟩,
            (mulRecv C.F C.delta x.verifier x.verifier.checkCnt a.verifier b.verifier d).2) := by
    simp only [FpPeer.listener, FpPeer.verifier, hread]
    rfl
  rw [hrecv]
  exact ⟨⟨rfl, congrArg (· ++ [d]) h.words, h.drawn, congrArg (· + 1) h.checkCnt, h.opened⟩, rfl⟩

omit hT in
theorem reveal (ls : List Label)
    (hwithin : FpPair.Within S outs ((C.withVals u).pair.reveal x ls).1) :
    Sees (((C.simPeer t outs).listener C).reveal ⟨⟨x.verifier, x.base⟩, words⟩
        (ls.map Label.verifier)).1 ((C.withVals u).pair.reveal x ls).1 ∧
      (((C.simPeer t outs).listener C).reveal ⟨⟨x.verifier, x.base⟩, words⟩
        (ls.map Label.verifier)).2 = ((C.withVals u).pair.reveal x ls).2 := by
  set value := (revealSend x.prover (ls.map Label.prover)).2 with hvalue
  have hlen : value.length = (ls.map Label.verifier).length := by simp [hvalue, revealSend]
  have hread : (C.simPeer t outs).openings x.verifier.hashed.length (ls.map Label.verifier).length
      = value := by
    rw [← h.opened]
    exact Tape.map_getD_of_append_prefix _ hwithin.opened rfl hlen
  have hrecv : ((C.simPeer t outs).listener C).reveal ⟨⟨x.verifier, x.base⟩, words⟩
      (ls.map Label.verifier)
        = (⟨⟨revealRecv C.F C.delta x.verifier (ls.map Label.verifier) value, x.base⟩,
            words ++ value⟩, value) := by
    simp only [FpPeer.listener, FpPeer.verifier, hread]
  rw [hrecv]
  refine ⟨⟨rfl, congrArg (· ++ value) h.words, h.drawn, h.checkCnt, ?_⟩, rfl⟩
  show (x.opened ++ value).length = (x.verifier.hashed ++ List.zipWith _ _ _).length
  rw [List.length_append, List.length_append, h.opened, hlen]
  simp

end Sees

omit hT in
theorem listener_iterates (C : FpConfig) (P : FpPeer) : (P.listener C).Iterates where
  nil x := by simp [FpPeer.listener, FpPeer.verifier, FpPeer.corrections, mulBlockRecv]
  cons x a b ab := by
    simp only [FpPeer.listener, P.verifier_mulBlock_cons, List.length_cons, P.corrections_succ]
    rw [List.append_assoc]
    rfl
  checkCnt _ _ _ := rfl

/-- **What the simulator makes up is what the verifier hears**, one operation after the other. -/
theorem listener_follows (hC : C.Valid) (u : ℕ → ZMod PR) (outs : List ℕ) :
    ((C.simPeer t outs).listener C).Follows (C.withVals u).pair (FpPair.Within S outs) Sees
      fun K l => K = l.verifier := by
  have hmul : ∀ (e : FpHeard) (x : FpPair) (Ka Kb : AuthVal) (a b : Label),
      (C.withVals u).pair.checkCnt x ≠ (C.withVals u).pair.checkSz → Sees e x → Ka = a.verifier →
      Kb = b.verifier → FpPair.Within S outs ((C.withVals u).pair.authComputeMul x a b).1 →
      Sees (((C.simPeer t outs).listener C).authComputeMul e Ka Kb).1
          ((C.withVals u).pair.authComputeMul x a b).1 ∧
        (((C.simPeer t outs).listener C).authComputeMul e Ka Kb).2
          = ((C.withVals u).pair.authComputeMul x a b).2.verifier := by
    rintro ⟨v, words⟩ x _ _ a b - h rfl rfl hwithin
    obtain rfl : v = _ := h.verifier
    exact h.authComputeMul hT a b hwithin
  exact {
    persists := pair_persists _ S outs
    good_newBatch := fun _ h => ⟨h.sent, h.opened⟩
    checkSz := rfl
    checkCnt := by
      rintro ⟨v, words⟩ x h
      obtain rfl : v = _ := h.verifier
      exact h.checkCnt
    newBatch := by
      rintro ⟨v, words⟩ x h
      obtain rfl : v = _ := h.verifier
      refine ⟨?_, h.words, congrArg (· + C.checkSz) h.drawn, rfl, h.opened⟩
      exact congrArg (FpVerifier.mk _) h.drawn
    newBatch_room := fun _ => hC.checkSz_pos.ne
    pubLabel := fun _ _ => rfl
    addGate := by
      rintro _ _ l r rfl rfl
      rfl
    subGate := by
      rintro _ _ l r rfl rfl
      rfl
    negGate := by
      rintro _ l rfl
      rfl
    mulConstGate := by
      rintro _ l c - rfl
      rfl
    authenticatedValInput := by
      rintro ⟨v, words⟩ x w - h hwithin
      obtain rfl : v = _ := h.verifier
      exact h.authenticatedValInput hT w hwithin
    checkManage := by
      rintro ⟨v, words⟩ x x₁ h hcheck hwithin
      obtain rfl : v = _ := h.verifier
      exact h.checkManage hT hcheck hwithin
    authComputeMul := hmul
    mulBlock := fun e x _ _ hroom hR hab hgood =>
      (listener_iterates C _).follows (pair_iterates _) (pair_persists _ S outs) hmul hroom hR hab
        hgood
    reveal := by
      rintro ⟨v, words⟩ x Ks ls h hls hwithin
      obtain rfl : v = _ := h.verifier
      obtain rfl : Ks = ls.map Label.verifier := by
        rw [← List.forall₂_eq_eq_eq, List.forall₂_map_right_iff]
        exact hls
      exact h.reveal ls hwithin
    revealCheckZero := by
      rintro ⟨v, words⟩ x Ks ls h hls hwithin
      obtain rfl : v = _ := h.verifier
      obtain rfl : Ks = ls.map Label.verifier := by
        rw [← List.forall₂_eq_eq_eq, List.forall₂_map_right_iff]
        exact hls
      refine ⟨rfl, h.words, h.drawn, h.checkCnt, ?_⟩
      simp [pair, FpOSTriple.revealCheckZero, h.opened] }

end Simulator

/-! ## The tape determines the values -/

section Decoder

variable {u t : ℕ → ZMod PR}

/-- The decoder and the two parties: the correlations that were used have their values, the others
are on the tape. -/
structure Decodes (C : FpConfig) (u t : ℕ → ZMod PR) (d : FpDecoded) (x : FpPair) : Prop where
  /-- The prover's engine, up to the slots of the buffer that are free. -/
  prover : d.prover = { x.prover with outBuf := d.prover.outBuf }
  /-- Where the buffers of the batch were filled from. -/
  base : d.base = x.base
  /-- The slots of the batch. -/
  out : ∀ j < x.prover.checkCnt, d.prover.outBuf j = x.prover.outBuf j
  /-- The values that masked a word. -/
  used : ∀ m ∈ x.sent, d.vals m.1 = u m.1
  /-- The other values. -/
  unused : ∀ i, (∀ m ∈ x.sent, m.1 ≠ i) → d.vals i = t i
  /-- The correlations. -/
  clean : x.Clean (C.withVals u)

/-- Unmasking. -/
theorem tape_sub (hF : C.F.Canonical) {w : ℕ} {r s : ZMod PR}
    (h : C.F.addMod r.val (PR - w) = s.val) : s - (PR - w : ℕ) = r := by
  have hcast := congrArg (Nat.cast : ℕ → ZMod PR) h
  rw [hF.mask_cast (ZMod.val_lt r), ZMod.natCast_zmod_val, ZMod.natCast_zmod_val] at hcast
  rw [← hcast, add_sub_cancel_right]

theorem batchTerm_congr (p p' : FpOSTriple) {n : ℕ} (hleft : p.leftBuf = p'.leftBuf)
    (hright : p.rightBuf = p'.rightBuf) (hchecks : p.checks = p'.checks)
    (hout : ∀ j < n, p.outBuf j = p'.outBuf j) :
    (batchTerm C 0 p n).lin = (batchTerm (C.withVals u) 0 p' n).lin := by
  simp only [batchTerm, KeyCheck.Term.sum]
  refine Finset.sum_congr rfl fun i hi => ?_
  rw [mulTerm, mulTerm, hleft, hright, hchecks, hout i (Finset.mem_range.mp hi)]
  rfl

variable (hT : ∀ m ∈ S, m.2 = (t m.1).val)

namespace Decodes

variable {x : FpPair} {ob : ℕ → AuthVal} {vals : ℕ → ZMod PR}
  (h : Decodes C u t ⟨{ x.prover with outBuf := ob }, x.base, vals⟩ x)
include hT h

theorem authenticatedValInput (hC : C.Valid) {w : List ℕ} (hw : ∀ v ∈ w, v < PR)
    (hwithin : FpPair.Within S outs ((C.withVals u).pair.authenticatedValInput x w).1) :
    Decodes C u t ((C.decoder t).authenticatedValInput
        ⟨{ x.prover with outBuf := ob }, x.base, vals⟩ w).1
        ((C.withVals u).pair.authenticatedValInput x w).1 ∧
      List.Forall₂ (fun M (l : Label) => M = l.prover ∧ Carries M M.val)
        ((C.decoder t).authenticatedValInput ⟨{ x.prover with outBuf := ob }, x.base, vals⟩ w).2
        ((C.withVals u).pair.authenticatedValInput x w).2 := by
  set d := x.prover.drawn with hd
  set sent := authenticatedValInputSend C.F (C.withVals u).volePrv x.prover w with hsent
  have hlen : sent.2.2.length = w.length := by simp [hsent, authenticatedValInputSend, drawVole]
  -- what the decoder reads off the tape
  set rd : ℕ → ZMod PR := fun i =>
    if d ≤ i ∧ i < d + w.length then t i - (PR - w.getD (i - d) 0 : ℕ) else vals i with hrd
  have hval : ∀ i < w.length, rd (d + i) = u (d + i) := fun i hi => by
    have hword := hT _ (hwithin.sent.subset (List.mem_append_right _
      (mem_numbered_getElem d sent.2.2 (hlen ▸ hi))))
    simp only [hrd]
    rw [if_pos ⟨Nat.le_add_right _ _, Nat.add_lt_add_left hi _⟩, Nat.add_sub_cancel_left,
      List.getD_eq_getElem _ _ hi]
    refine tape_sub hC.canonical (Eq.trans ?_ hword)
    simp [hsent, authenticatedValInputSend, drawVole, withVals, hd]
  have hvole : ((List.range w.length).map fun i => (C.withVals rd).volePrv (d + i))
      = (List.range w.length).map fun i => (C.withVals u).volePrv (d + i) :=
    List.map_congr_left fun i hi => withVals_congr (hval i (List.mem_range.mp hi))
  have hdec : (C.decoder t).authenticatedValInput
      ⟨{ x.prover with outBuf := ob }, x.base, vals⟩ w
        = (⟨{ x.prover with drawn := d + w.length, outBuf := ob }, x.base, rd⟩, sent.2.1) := by
    simp only [decoder, authenticatedValInputSend, drawVole, hsent, ← hd, ← hrd, hvole]
  rw [hdec]
  refine ⟨⟨rfl, rfl, h.out, fun m hm => ?_, fun i hi => ?_,
    h.clean.authenticatedValInput (hC.withVals u)⟩, ?_⟩
  · rcases List.mem_append.mp hm with hm | hm
    · have hlt := h.clean.lt_drawn hm
      exact (if_neg fun hin => Nat.not_le.mpr hlt hin.1).trans (h.used m hm)
    · obtain ⟨⟨hle, hlt⟩, -⟩ := mem_numbered hm
      have hlt : m.1 < d + sent.2.2.length := hlt
      obtain ⟨k, hk⟩ := Nat.exists_eq_add_of_le hle
      rw [hk]
      exact hval k (by omega)
  · have hout : ¬(d ≤ i ∧ i < d + w.length) := fun hin => by
      have hmem := mem_numbered_getElem d sent.2.2 (i := i - d) (by omega)
      exact hi _ (List.mem_append_right _ hmem) (Nat.add_sub_cancel' hin.1)
    exact (if_neg hout).trans (h.unused i fun m hm => hi m (List.mem_append_left _ hm))
  · refine forall₂_zipWith_label ?_ (authenticatedValInputSend_carries (hC.withVals u) _ hw)
    simp [hsent, authenticatedValInputSend, drawVole]

theorem checkManage (hC : C.Valid) {x₁ : FpPair}
    (hcheck : (C.withVals u).pair.checkManage x = some x₁) (hwithin : FpPair.Within S outs x₁) :
    ∃ e₁, (C.decoder t).checkManage ⟨{ x.prover with outBuf := ob }, x.base, vals⟩ = some e₁ ∧
      Decodes C u t e₁ x₁ := by
  refine ⟨_, rfl, ?_⟩
  have hclean := h.clean.checkManage (hC.withVals u) hcheck
  obtain ⟨v, -, rfl⟩ := Option.map_eq_some_iff.mp hcheck
  set d := x.prover.drawn with hd
  set V := (checkManageSend (C.withVals u) x.prover).2.2 with hV
  have hword : V = (t d).val :=
    hT (d, V) (hwithin.sent.subset (List.mem_append_right _ (List.mem_singleton_self _)))
  have hcast := (checkManageSend_cast (c := 0) (hC.withVals u) h.clean.reduced).2.2
  rw [← hV, hword, ZMod.natCast_zmod_val] at hcast
  have hmask : (((C.withVals u).volePrv x.prover.drawn).val : ZMod PR) = u d :=
    ZMod.natCast_zmod_val (u d)
  have hval : t d - (batchTerm C 0 { x.prover with outBuf := ob } x.prover.checkCnt).lin
      = u d := by
    have hterm := batchTerm_congr (C := C) (u := u) { x.prover with outBuf := ob } x.prover rfl
      rfl rfl h.out
    rw [hterm, hcast, hmask, add_sub_cancel_left]
  refine ⟨rfl, rfl, h.out, fun m hm => ?_, fun i hi => ?_, hclean⟩
  · rcases List.mem_append.mp hm with hm | hm
    · exact (Function.update_of_ne (h.clean.lt_drawn hm).ne _ _).trans (h.used m hm)
    · rw [List.mem_singleton.mp hm]
      exact (Function.update_self _ _ _).trans hval
  · have hne : i ≠ d := fun heq =>
      hi (d, V) (List.mem_append_right _ (List.mem_singleton_self _)) heq.symm
    exact (Function.update_of_ne hne _ _).trans
      (h.unused i fun m hm => hi m (List.mem_append_left _ hm))

theorem authComputeMul (hC : C.Valid) {a b : Label} (ha : Carries a.prover a.prover.val)
    (hb : Carries b.prover b.prover.val) (hcnt : x.prover.checkCnt ≠ C.checkSz)
    (hwithin : FpPair.Within S outs ((C.withVals u).pair.authComputeMul x a b).1) :
    Decodes C u t (C.decodeMul t ⟨{ x.prover with outBuf := ob }, x.base, vals⟩ a.prover
        b.prover).1 ((C.withVals u).pair.authComputeMul x a b).1 ∧
      (C.decodeMul t ⟨{ x.prover with outBuf := ob }, x.base, vals⟩ a.prover b.prover).2
        = ((C.withVals u).pair.authComputeMul x a b).2.prover ∧
      Carries ((C.withVals u).pair.authComputeMul x a b).2.prover
        ((C.withVals u).pair.authComputeMul x a b).2.prover.val := by
  obtain ⟨hclean, hc⟩ := h.clean.authComputeMul (hC.withVals u) ha hb hcnt
  set i := x.base + x.prover.checkCnt with hi
  have hslot : x.prover.outBuf x.prover.checkCnt = (C.withVals u).volePrv i :=
    h.clean.fresh _ le_rfl
  have hword : C.F.addMod (x.prover.outBuf x.prover.checkCnt).val
      (PR - C.F.multMod a.prover.val b.prover.val) = (t i).val :=
    hT (i, _) (hwithin.sent.subset (List.mem_append_right _ (List.mem_singleton_self _)))
  rw [hslot] at hword
  have hval : t i - (PR - C.F.multMod a.prover.val b.prover.val : ℕ) = u i :=
    tape_sub hC.canonical hword
  set rd := Function.update vals i (u i) with hrd
  have hlabel : (C.withVals rd).volePrv i = x.prover.outBuf x.prover.checkCnt := by
    rw [hslot]
    exact withVals_congr (Function.update_self _ _ _)
  have hdec : C.decodeMul t ⟨{ x.prover with outBuf := ob }, x.base, vals⟩ a.prover b.prover
      = (⟨{ ((C.withVals u).pair.authComputeMul x a b).1.prover with
            outBuf := Function.update
              (Function.update ob x.prover.checkCnt (x.prover.outBuf x.prover.checkCnt))
              x.prover.checkCnt ((C.withVals u).pair.authComputeMul x a b).2.prover },
          x.base, rd⟩, ((C.withVals u).pair.authComputeMul x a b).2.prover) := by
    simp only [decodeMul, mulSend, ← hi, hval, ← hrd, hlabel, Function.update_self]
    rfl
  rw [hdec]
  refine ⟨⟨rfl, rfl, fun j (hj : j < x.prover.checkCnt + 1) => ?_, fun m hm => ?_, fun k hk => ?_,
    hclean⟩, rfl, hc⟩
  · rcases Nat.lt_succ_iff_lt_or_eq.mp hj with hlt | rfl
    · have hne : j ≠ x.prover.checkCnt := hlt.ne
      refine (Function.update_of_ne hne _ _).trans ((Function.update_of_ne hne _ _).trans ?_)
      exact (h.out j hlt).trans (Function.update_of_ne hne _ _).symm
    · refine (Function.update_self _ _ _).trans ?_
      show _ = Function.update x.prover.outBuf x.prover.checkCnt
        ((C.withVals u).pair.authComputeMul x a b).2.prover x.prover.checkCnt
      rw [Function.update_self]
  · by_cases hkey : m.1 = i
    · rw [hkey]
      exact Function.update_self _ _ _
    · refine (Function.update_of_ne hkey _ _).trans ?_
      rcases List.mem_append.mp hm with hm | hm
      · exact h.used m hm
      · exact absurd (congrArg Prod.fst (List.mem_singleton.mp hm)) hkey
  · have hne : k ≠ i := fun heq =>
      hk _ (List.mem_append_right _ (List.mem_singleton_self _)) heq.symm
    exact (Function.update_of_ne hne _ _).trans
      (h.unused k fun m hm => hk m (List.mem_append_left _ hm))

end Decodes

theorem decoder_iterates (C : FpConfig) (t : ℕ → ZMod PR) : (C.decoder t).Iterates where
  nil _ := rfl
  cons _ _ _ _ := rfl
  checkCnt _ _ _ := rfl

include hT

/-- **The tape determines the values of the correlations**, one operation after the other. -/
theorem decoder_follows (hC : C.Valid) (outs : List ℕ) :
    (C.decoder t).Follows (C.withVals u).pair (FpPair.Within S outs) (Decodes C u t)
      fun M l => M = l.prover ∧ Carries M M.val := by
  have hmul : ∀ (d : FpDecoded) (x : FpPair) (Ma Mb : AuthVal) (a b : Label),
      (C.withVals u).pair.checkCnt x ≠ (C.withVals u).pair.checkSz → Decodes C u t d x →
      Ma = a.prover ∧ Carries Ma Ma.val → Mb = b.prover ∧ Carries Mb Mb.val →
      FpPair.Within S outs ((C.withVals u).pair.authComputeMul x a b).1 →
      Decodes C u t ((C.decoder t).authComputeMul d Ma Mb).1
          ((C.withVals u).pair.authComputeMul x a b).1 ∧
        ((C.decoder t).authComputeMul d Ma Mb).2
            = ((C.withVals u).pair.authComputeMul x a b).2.prover ∧
          Carries ((C.decoder t).authComputeMul d Ma Mb).2
            ((C.decoder t).authComputeMul d Ma Mb).2.val := by
    rintro ⟨p, base, vals⟩ x _ _ a b hroom h ⟨rfl, ha⟩ ⟨rfl, hb⟩ hwithin
    obtain rfl : base = x.base := h.base
    have hp : p = { x.prover with outBuf := p.outBuf } := h.prover
    rw [hp] at h ⊢
    obtain ⟨hdec, hc, hcarries⟩ := h.authComputeMul hT hC ha hb hroom hwithin
    have hc : ((C.decoder t).authComputeMul ⟨{ x.prover with outBuf := p.outBuf }, x.base, vals⟩
      a.prover b.prover).2 = ((C.withVals u).pair.authComputeMul x a b).2.prover := hc
    exact ⟨hdec, hc, by rw [hc]; exact hcarries⟩
  exact {
    persists := pair_persists _ S outs
    good_newBatch := fun _ h => ⟨h.sent, h.opened⟩
    checkSz := rfl
    checkCnt := by
      rintro ⟨p, base, vals⟩ x h
      have hp : p = { x.prover with outBuf := p.outBuf } := h.prover
      show p.checkCnt = x.prover.checkCnt
      rw [hp]
    newBatch := by
      rintro ⟨p, base, vals⟩ x h
      have hp : p = { x.prover with outBuf := p.outBuf } := h.prover
      rw [hp] at h ⊢
      exact ⟨rfl, rfl, fun _ hj => (Nat.not_lt_zero _ hj).elim, h.used, h.unused,
        h.clean.newBatch⟩
    newBatch_room := fun _ => hC.checkSz_pos.ne
    pubLabel := fun a ha => ⟨rfl, Carries.pubLabel hC ha⟩
    addGate := by
      rintro _ _ l r ⟨rfl, hl⟩ ⟨rfl, hr⟩
      exact ⟨rfl, (Carries.addGate hC hl hr).own⟩
    subGate := by
      rintro _ _ l r ⟨rfl, hl⟩ ⟨rfl, hr⟩
      exact ⟨rfl, (Carries.subGate hC hl hr).own⟩
    negGate := by
      rintro _ l ⟨rfl, hl⟩
      exact ⟨rfl, (Carries.negGate hC hl).own⟩
    mulConstGate := by
      rintro _ l c hc ⟨rfl, hl⟩
      exact ⟨rfl, (Carries.mulConstGate hC hl hc).own⟩
    authenticatedValInput := by
      rintro ⟨p, base, vals⟩ x w hw h hwithin
      obtain rfl : base = x.base := h.base
      have hp : p = { x.prover with outBuf := p.outBuf } := h.prover
      rw [hp] at h ⊢
      exact h.authenticatedValInput hT hC hw hwithin
    checkManage := by
      rintro ⟨p, base, vals⟩ x x₁ h hcheck hwithin
      obtain rfl : base = x.base := h.base
      have hp : p = { x.prover with outBuf := p.outBuf } := h.prover
      rw [hp] at h ⊢
      exact h.checkManage hT hC hcheck hwithin
    authComputeMul := hmul
    mulBlock := fun d x _ _ hroom hR hab hgood =>
      (decoder_iterates C t).follows (pair_iterates _) (pair_persists _ S outs) hmul hroom hR hab
        hgood
    reveal := by
      rintro ⟨p, base, vals⟩ x Ms ls h hls hwithin
      have hp : p = { x.prover with outBuf := p.outBuf } := h.prover
      obtain rfl : Ms = ls.map Label.prover := by
        rw [← List.forall₂_eq_eq_eq, List.forall₂_map_right_iff]
        exact hls.imp fun _ _ hM => hM.1
      rw [hp] at h ⊢
      exact ⟨⟨rfl, h.base, h.out, h.used, h.unused, h.clean.reveal ls⟩, rfl⟩
    revealCheckZero := by
      rintro ⟨p, base, vals⟩ x Ms ls h hls hwithin
      have hp : p = { x.prover with outBuf := p.outBuf } := h.prover
      obtain rfl : Ms = ls.map Label.prover := by
        rw [← List.forall₂_eq_eq_eq, List.forall₂_map_right_iff]
        exact hls.imp fun _ _ hM => hM.1
      rw [hp] at h ⊢
      exact ⟨rfl, h.base, h.out, h.used, h.unused, h.clean.revealCheckZero ls⟩ }

end Decoder

end FpConfig

/-! ## What the verifier sees -/

/-- The words that were sent make up a tape; where nothing was sent it is `u`. -/
theorem exists_tape_of_nodup {S : List (ℕ × ℕ)} (hlt : ∀ m ∈ S, m.2 < PR)
    (hnodup : (S.map Prod.fst).Nodup) (u : ℕ → ZMod PR) :
    ∃ T : ℕ → ZMod PR, (∀ m ∈ S, m.2 = (T m.1).val) ∧
      ∀ i, (∀ m ∈ S, m.1 ≠ i) → T i = u i := by
  classical
  refine ⟨fun i => if h : ∃ w, (i, w) ∈ S then (h.choose : ZMod PR) else u i, fun m hm => ?_,
    fun i hi => dif_neg fun ⟨w, hw⟩ => hi (i, w) hw rfl⟩
  have h : ∃ w, (m.1, w) ∈ S := ⟨m.2, hm⟩
  have hsame : (m.1, h.choose) = m := List.inj_on_of_nodup_map hnodup h.choose_spec hm rfl
  have hword : h.choose = m.2 := congrArg Prod.snd hsame
  simp only [dif_pos h, hword]
  rw [ZMod.val_natCast_of_lt (hlt m hm)]

namespace FpSession

variable {C : FpConfig}

/-- What the verifier holds, with all the words it has received. -/
def heard (x : FpHalfState FpPair Label) : FpHalfState FpHeard AuthVal where
  engine := ⟨⟨x.engine.verifier, x.engine.base⟩, x.engine.transcript⟩
  wires := x.wires.map Label.verifier
  out := x.out

/-- The values of the first `n` correlations, and any values after them. -/
def fillVals {n : ℕ} (vals : Fin n → ZMod PR) (rest : ℕ → ZMod PR) (i : ℕ) : ZMod PR :=
  if h : i < n then vals ⟨i, h⟩ else rest i

theorem finish_outVer {s s' : FpSession} (h : finish C s = some s') : s'.outVer = s.outVer := by
  rw [finish] at h
  split at h
  · obtain ⟨v, -, rfl⟩ := Option.map_eq_some_iff.mp h
    rfl
  · split at h
    · cases h
    · cases h
      rfl

theorem clean_pairInit (C : FpConfig) : (pairInit C).Clean C where
  reduced := ⟨fun _ hi => (Nat.not_lt_zero _ hi).elim, fun _ hi => (Nat.not_lt_zero _ hi).elim,
    fun _ hi => (Nat.not_lt_zero _ hi).elim⟩
  fresh _ _ := rfl
  cnt_le := Nat.zero_le _
  room := le_rfl
  words _ hm := (List.not_mem_nil hm).elim
  nodup := List.nodup_nil
  spare _ hm := (List.not_mem_nil hm).elim

section Run

variable {ops : List FpOp} {p : FpPlain}

/-- What the tape `T` of an honest run under the values `u` gives, for a program that draws `n`
correlations. -/
structure Taped (C : FpConfig) (ops : List FpOp) (p : FpPlain) (u : ℕ → ZMod PR) (n : ℕ)
    (T : ℕ → ZMod PR) : Prop where
  /-- The parties get through, and the simulator makes up what the verifier hears. -/
  simulated : ∃ s x outPrv, Runs.run (step (C.withVals u)) (init (C.withVals u)) ops = some s ∧
    finish (C.withVals u) s = some (ofPair x outPrv) ∧
    (C.withVals u).pair.program (pairInit (C.withVals u)) ops = some x ∧
    x.engine.prover.hashed = x.engine.verifier.hashed ∧
    ∀ t : ℕ → ZMod PR, (∀ i < n, t i = T i) →
      ((C.simPeer t (openedWords ops p.outs)).listener C).program ⟨FpPeer.start C, []⟩ ops
        = some (heard x)
  /-- The tape determines the values. -/
  decoded : ∃ d, (C.decoder T).program ⟨FpOSTriple.init C C.volePrv, 1, T⟩ ops = some d ∧
    d.engine.vals = u
  /-- After the correlations that are drawn the tape is `u`. -/
  rest : ∀ i, n ≤ i → T i = u i
  /-- The correlations that are drawn. -/
  counted : ∃ c, (C.counter (openedWords ops p.outs)).program ⟨1 + C.checkSz, 0, 0⟩ ops = some c ∧
    c.engine.drawn = n

/-- **An honest run leaves a tape.** -/
theorem exists_tape (hC : C.Valid) (hops : ∀ op ∈ ops, op.Canonical)
    (hplain : Runs.run FpPlain.step FpPlain.init ops = some p) (hzeros : ∀ z ∈ p.zeros, z = 0)
    (u : ℕ → ZMod PR) : ∃ n T, Taped C ops p u n T := by
  have hrun := run_complete (hC.withVals u) hops
  rw [hplain] at hrun
  obtain ⟨s, s', hrun, hfinish, -, -, hout, hhash, -⟩ := hrun
  have hhash := hhash.mpr (.inl hzeros)
  have hout := (finish_outVer hfinish).trans hout
  obtain ⟨x, outPrv, hx, rfl, hopened⟩ := pair_program hrun hfinish
  rw [hout] at hopened
  have hwithin : FpPair.Within x.engine.sent (openedWords ops p.outs) x.engine :=
    ⟨List.prefix_rfl, hopened ▸ List.prefix_rfl⟩
  have hclean := clean_pairInit (C.withVals u)
  obtain ⟨c, hc, hcounted⟩ := (FpConfig.counter_follows (hC.withVals u) x.engine.sent
    (openedWords ops p.outs)).program (e := ⟨1 + C.checkSz, 0, 0⟩) hops ⟨rfl, hclean⟩ hx hwithin
  have hcounted := hcounted.engine
  obtain ⟨T, hT, hu⟩ := exists_tape_of_nodup hcounted.clean.words hcounted.clean.nodup u
  have hdrawn : c.engine.drawn = x.engine.prover.drawn := congrArg FpCounts.drawn hcounted.counts
  obtain ⟨d, hd, hdecodes⟩ := (FpConfig.decoder_follows hT hC
    (openedWords ops p.outs)).program (e := ⟨FpOSTriple.init C C.volePrv, 1, T⟩) hops
      ⟨rfl, rfl, fun _ hj => (Nat.not_lt_zero _ hj).elim, fun _ hm => (List.not_mem_nil hm).elim,
        fun _ _ => rfl, hclean⟩ hx hwithin
  refine ⟨x.engine.prover.drawn, T, ⟨s, x, outPrv, hrun, hfinish, hx, hhash, fun t ht => ?_⟩,
    ⟨d, hd, funext fun i => ?_⟩, fun i hi => hu i fun m hm => ?_, c, hc, hdrawn⟩
  · have hT' : ∀ m ∈ x.engine.sent, m.2 = (t m.1).val := fun m hm => by
      rw [ht m.1 (hcounted.clean.lt_drawn hm)]
      exact hT m hm
    obtain ⟨v, hv, hsees⟩ := (FpConfig.listener_follows hT' hC u
      (openedWords ops p.outs)).program (e := ⟨FpPeer.start C, []⟩) hops ⟨rfl, rfl, rfl, rfl, rfl⟩
      hx hwithin
    have hwires : v.wires = x.wires.map Label.verifier := by
      rw [← List.forall₂_eq_eq_eq, List.forall₂_map_right_iff]
      exact hsees.wires
    have hengine : v.engine = ⟨⟨x.engine.verifier, x.engine.base⟩, x.engine.transcript⟩ :=
      FpHeard.ext hsees.engine.verifier hsees.engine.words
    exact hv.trans (congrArg some (FpHalfState.ext hengine hwires hsees.out))
  · by_cases hsent : ∃ m ∈ x.engine.sent, m.1 = i
    · obtain ⟨m, hm, rfl⟩ := hsent
      exact hdecodes.engine.used m hm
    · have hfree : ∀ m ∈ x.engine.sent, m.1 ≠ i := fun m hm heq => hsent ⟨m, hm, heq⟩
      rw [hdecodes.engine.unused i hfree, hu i hfree]
  · exact ((hcounted.clean.lt_drawn hm).trans_le hi).ne

/-- **The verifier learns the outputs and nothing else.**  A program draws `n` correlations,
whatever their values are.  Whatever the inputs, the key and the verifier's halves of the
correlations, there is a bijection between the prover's values of these correlations and the tapes
of length `n`, such that the honest parties get through, and all that the verifier holds at the end,
its engine, every word it has received, its wires and its outputs, is what the simulator makes up
from the tape and the openings, running the program on any inputs of the same lengths.  If the
wires given to `reveal_zero` are 0, the digest it receives at the end is its own. -/
theorem fp_view_simulated (hC : C.Valid) (hops : ∀ op ∈ ops, op.Canonical)
    (hplain : Runs.run FpPlain.step FpPlain.init ops = some p) (hzeros : ∀ z ∈ p.zeros, z = 0) :
    ∃ n, ∀ rest : ℕ → ZMod PR, ∃ tape : (Fin n → ZMod PR) ≃ (Fin n → ZMod PR),
      ∀ vals : Fin n → ZMod PR, ∃ s x outPrv,
        Runs.run (step (C.withVals (fillVals vals rest))) (init (C.withVals (fillVals vals rest)))
            ops = some s ∧
        finish (C.withVals (fillVals vals rest)) s = some (ofPair x outPrv) ∧
        (C.withVals (fillVals vals rest)).pair.program
            (pairInit (C.withVals (fillVals vals rest))) ops = some x ∧
        x.engine.prover.hashed = x.engine.verifier.hashed ∧
        ∀ ops', List.Forall₂ FpOp.SameShape ops ops' →
          ((C.simPeer (fillVals (tape vals) fun _ => 0) (openedWords ops p.outs)).listener
            C).program ⟨FpPeer.start C, []⟩ ops' = some (heard x) := by
  obtain ⟨n, T₀, hT₀⟩ := exists_tape hC hops hplain hzeros fun _ => 0
  obtain ⟨c, hc, hn⟩ := hT₀.counted
  refine ⟨n, fun rest => ?_⟩
  have htaped : ∀ vals : Fin n → ZMod PR, ∃ T, Taped C ops p (fillVals vals rest) n T :=
    fun vals => by
      obtain ⟨n', T, hT⟩ := exists_tape hC hops hplain hzeros (fillVals vals rest)
      obtain ⟨c', hc', hn'⟩ := hT.counted
      have hsame : c' = c := Option.some_inj.mp (hc'.symm.trans hc)
      rw [hsame, hn] at hn'
      exact ⟨T, hn' ▸ hT⟩
  choose T hT using htaped
  -- equal tapes decode to equal values
  have hinj : Function.Injective fun (vals : Fin n → ZMod PR) (i : Fin n) => T vals i := by
    intro vals vals' htape
    have hTT : T vals = T vals' := funext fun i => by
      by_cases hi : i < n
      · exact congrFun htape ⟨i, hi⟩
      · rw [(hT vals).rest i (Nat.not_lt.mp hi), (hT vals').rest i (Nat.not_lt.mp hi), fillVals,
          fillVals, dif_neg hi, dif_neg hi]
    obtain ⟨d, hd, hvals⟩ := (hT vals).decoded
    obtain ⟨d', hd', hvals'⟩ := (hT vals').decoded
    rw [hTT] at hd
    rw [Option.some_inj.mp (hd.symm.trans hd'), hvals'] at hvals
    funext i
    have hone := congrFun hvals i
    simpa [fillVals] using hone.symm
  refine ⟨Equiv.ofBijective _ (Finite.injective_iff_bijective.mp hinj), fun vals => ?_⟩
  obtain ⟨s, x, outPrv, hrun, hfinish, hx, hhash, hsim⟩ := (hT vals).simulated
  refine ⟨s, x, outPrv, hrun, hfinish, hx, hhash, fun ops' hshape => ?_⟩
  rw [← FpHalf.program_sameShape ?_ hshape]
  · exact hsim _ fun i hi => dif_pos hi
  · intro e w w' hsame
    simp only [FpPeer.listener, FpPeer.verifier, hsame]

end Run

/-- The verifier that learns `3 * 4 = 12` hears what could come from `2 * 6`. -/
theorem fp_view_simulated_product :
    ∃ n, ∀ rest : ℕ → ZMod PR, ∃ tape : (Fin n → ZMod PR) ≃ (Fin n → ZMod PR),
      ∀ vals : Fin n → ZMod PR, ∃ s x outPrv,
        Runs.run (step (small.withVals (fillVals vals rest)))
            (init (small.withVals (fillVals vals rest))) (FpPeer.productOf 3 4) = some s ∧
        finish (small.withVals (fillVals vals rest)) s = some (ofPair x outPrv) ∧
        ((small.simPeer (fillVals (tape vals) fun _ => 0) [12]).listener small).program
          ⟨FpPeer.start small, []⟩ (FpPeer.productOf 2 6) = some (heard x) := by
  have hplain : Runs.run FpPlain.step FpPlain.init (FpPeer.productOf 3 4)
      = some ⟨[3, 4, 12], [[12]], []⟩ := rfl
  have hops : ∀ op ∈ FpPeer.productOf 3 4, op.Canonical := by
    simp [FpPeer.productOf, FpOp.Canonical, PR]
  obtain ⟨n, hn⟩ := fp_view_simulated small_valid hops hplain fun _ hz => (List.not_mem_nil hz).elim
  refine ⟨n, fun rest => ?_⟩
  obtain ⟨tape, htape⟩ := hn rest
  refine ⟨tape, fun vals => ?_⟩
  obtain ⟨s, x, outPrv, hrun, hfinish, -, -, hsim⟩ := htape vals
  exact ⟨s, x, outPrv, hrun, hfinish,
    hsim (FpPeer.productOf 2 6) (.cons (.feed rfl) (.cons (.refl _) (.cons (.refl _) .nil)))⟩

end FpSession

end VoleZk
