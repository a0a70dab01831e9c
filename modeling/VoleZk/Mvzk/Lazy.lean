import VoleZk.Mvzk.IntFp

/-!
# Lazy evaluation is transparent

Whatever the program and wherever the batches end, a verifier's slots hold the shares that they
would hold if every packed share arrived at once.  A slot that is needed while the loop of a batch
runs was created before the wire that is filled; all wires before it are filled, so that only
linear combinations are left to evaluate.

## What is here

* `SlotDef`, what a program says of a slot, and `SlotsOk` — **the slots of one verifier**;
* `materialize_ok` — **`materialize` ends**, without its error, and keeps what is ready;
* `fillAll_ok`, `checkClaimed_ok` — the same of the loop of `shareBatch` and of opened wires;
* `ExecData`, the slots of all parties, `execData_fills` — **a batch**, and
  `ExecData.ready_shared` — **slots that are ready are shared**;
* `eager`, the shares without delay, and `SlotsOk.sh_eq_eager` — **slots that are ready hold them**.
-/

set_option autoImplicit false

open Finset

namespace VoleZk.Mvzk

/-! ## The slots of a program -/

/-- What a program says of a slot. -/
inductive SlotDef (F : Type*) where
  /-- An input or a product. -/
  | wire
  /-- A public constant. -/
  | pub (c : F)
  /-- A linear combination. -/
  | linear (terms : List (F × ℕ)) (c : F)

namespace Op

variable {F : Type*}

/-- The slot that an operation creates. -/
def slotDef : Op F → Option (SlotDef F)
  | .feed _ => some .wire
  | .pub v => some (.pub v)
  | .linear terms c => some (.linear terms c)
  | .mult _ _ => some .wire
  | _ => none

/-- The slots that an operation uses are among the first `count`. -/
def Scoped (count : ℕ) : Op F → Prop
  | .linear terms _ => ∀ t ∈ terms, t.2 < count
  | .mult a b => a < count ∧ b < count
  | .reveal w => ∀ s ∈ w, s < count
  | .revealCheck claims => ∀ c ∈ claims, c.1 < count
  | _ => True

/-- Every operation of a program uses slots that exist. -/
def ScopedAll : List (Op F) → ℕ → Prop
  | [], _ => True
  | op :: ops, count => op.Scoped count ∧ ScopedAll ops (count + op.slotDef.toList.length)

end Op

variable {F : Type*} [Field F] {C : BackendConfig F} {i : ℕ}

theorem evalLinear_congr {sh sh' : ℕ → AuthShare F} {terms : List (F × ℕ)}
    (h : ∀ t ∈ terms, sh t.2 = sh' t.2) (c : F) :
    evalLinear C i sh terms c = evalLinear C i sh' terms c := by
  refine List.foldl_ext _ _ _ fun acc t ht => ?_
  rw [h t ht]

/-! ## One verifier -/

/-- What is true of slot `s`. -/
def SlotOk (C : BackendConfig F) (i : ℕ) (pending : List ℕ) (m : Slots F) (s : ℕ) :
    SlotDef F → Prop
  | .wire => (m.slot s).ready = true ↔ s ∉ pending
  | .pub c => (m.slot s).ready = true ∧ (m.slot s).sh = pubShare C i c
  | .linear terms c => (∀ t ∈ terms, t.2 < s) ∧
    ((m.slot s).ready = false →
      (m.slot s).lin = terms ∧ (m.slot s).pub = c ∧ terms ≠ []) ∧
    ((m.slot s).ready = true → (∀ t ∈ terms, (m.slot t.2).ready = true) ∧
      (m.slot s).sh = evalLinear C i (fun t => (m.slot t).sh) terms c)

/-- **The slots of verifier `i`**, while the wires of `pending` are not filled. -/
structure SlotsOk (C : BackendConfig F) (i : ℕ) (defs : List (SlotDef F)) (pending : List ℕ)
    (m : Slots F) : Prop where
  /-- There are those that the program created. -/
  count : m.count = defs.length
  /-- They hold what the program says. -/
  slot : ∀ s d, defs[s]? = some d → SlotOk C i pending m s d
  /-- The wires are pending in the order of the program. -/
  sorted : pending.Pairwise (· < ·)
  /-- Only wires are pending. -/
  pendingWire : ∀ s ∈ pending, defs[s]? = some .wire
  /-- No slot was written twice. -/
  nodup : m.filled.Nodup
  /-- The ready slots are those that were written. -/
  mem_filled : ∀ s, s ∈ m.filled ↔ s < m.count ∧ (m.slot s).ready = true

/-- Ready slots stay what they are. -/
def Slots.Extends (m m' : Slots F) : Prop := ∀ s, (m.slot s).ready = true → m'.slot s = m.slot s

namespace Slots.Extends

omit [Field F] in
theorem refl (m : Slots F) : m.Extends m := fun _ _ => rfl

omit [Field F] in
theorem ready {m m' : Slots F} (h : m.Extends m') {s : ℕ} (hs : (m.slot s).ready = true) :
    (m'.slot s).ready = true := by
  rw [h s hs]
  exact hs

omit [Field F] in
theorem trans {m m' m'' : Slots F} (h : m.Extends m') (h' : m'.Extends m'') : m.Extends m'' :=
  fun s hs => (h' s (h.ready hs)).trans (h s hs)

omit [Field F] in
/-- A write to a slot that is not ready. -/
theorem write (m : Slots F) {s : ℕ} (hs : (m.slot s).ready = false) (x : Slot F) :
    m.Extends (m.write s x) := fun t ht => by
  have hne : t ≠ s := fun heq => by
    rw [heq, hs] at ht
    exact Bool.false_ne_true ht
  exact m.slot_write_of_ne x hne

end Slots.Extends

namespace SlotsOk

variable {defs : List (SlotDef F)} {pending : List ℕ} {m : Slots F}

theorem exists_def (h : SlotsOk C i defs pending m) {s : ℕ} (hs : s < m.count) :
    ∃ d, defs[s]? = some d ∧ SlotOk C i pending m s d := by
  obtain ⟨d, hd⟩ : ∃ d, defs[s]? = some d := by
    rw [← Option.isSome_iff_exists, Option.isSome_iff_ne_none, Ne, List.getElem?_eq_none_iff,
      not_le, ← h.count]
    exact hs
  exact ⟨d, hd, h.slot s d hd⟩

theorem lt_of_mem_pending (h : SlotsOk C i defs pending m) {s : ℕ} (hs : s ∈ pending) :
    s < m.count := by
  rw [h.count]
  exact (List.getElem?_eq_some_iff.mp (h.pendingWire s hs)).1

/-- **A write to a slot that is not ready**, which takes a wire off the pending ones. -/
theorem write (h : SlotsOk C i defs pending m) {s : ℕ} (hs : (m.slot s).ready = false)
    {d : SlotDef F} (hd : defs[s]? = some d) {x : Slot F} (hx : x.ready = true)
    {pending' : List ℕ} (hpending : ∀ t, t ∈ pending' ↔ t ∈ pending ∧ t ≠ s)
    (hsorted : pending'.Pairwise (· < ·)) (hok : SlotOk C i pending' (m.write s x) s d) :
    SlotsOk C i defs pending' (m.write s x) := by
  have hext := Slots.Extends.write m hs x
  refine
    { count := h.count
      slot := fun t d' ht => ?_
      sorted := hsorted
      pendingWire := fun t ht => h.pendingWire t ((hpending t).mp ht).1
      nodup := ?_
      mem_filled := fun t => ?_ }
  · by_cases hts : t = s
    · rw [hts, hd, Option.some_inj] at ht
      rw [hts, ← ht]
      exact hok
    · have hsame := m.slot_write_of_ne x hts
      have hold := h.slot t d' ht
      cases d' with
      | wire =>
        rw [SlotOk, hsame, hpending t, and_iff_left hts]
        exact hold
      | pub c =>
        rw [SlotOk, hsame]
        exact hold
      | linear terms c =>
        obtain ⟨hlt, hwait, hready⟩ := hold
        rw [SlotOk, hsame]
        refine ⟨hlt, hwait, fun hr => ?_⟩
        obtain ⟨hall, hsh⟩ := hready hr
        refine ⟨fun t' ht' => hext.ready (hall t' ht'), ?_⟩
        rw [hsh]
        exact evalLinear_congr (fun t' ht' => by rw [hext _ (hall t' ht')]) c
  · refine List.nodup_append.mpr ⟨h.nodup, List.nodup_singleton s, fun a ha b hb heq => ?_⟩
    rw [heq, List.mem_singleton.mp hb] at ha
    rw [((h.mem_filled s).mp ha).2] at hs
    cases hs
  · show t ∈ m.filled ++ [s] ↔ t < m.count ∧ _
    rw [List.mem_append, List.mem_singleton, h.mem_filled t]
    by_cases hts : t = s
    · rw [hts, Slots.slot_write_self, hx, h.count]
      simp [(List.getElem?_eq_some_iff.mp hd).1]
    · rw [m.slot_write_of_ne x hts, or_iff_left hts]

/-- **A linear combination is evaluated.** -/
theorem resolve (h : SlotsOk C i defs pending m) {s : ℕ} (hs : (m.slot s).ready = false)
    {terms : List (F × ℕ)} {c : F} (hd : defs[s]? = some (.linear terms c))
    (hready : ∀ t ∈ terms, (m.slot t.2).ready = true) :
    SlotsOk C i defs pending (VoleZk.Mvzk.resolve C i m s) := by
  obtain ⟨hlt, hwait, -⟩ := h.slot s _ hd
  obtain ⟨hlin, hpub, -⟩ := hwait hs
  have hnot : s ∉ pending := fun hmem => by
    have := h.pendingWire s hmem
    rw [hd] at this
    cases this
  refine h.write hs hd rfl (fun t => ?_) h.sorted ?_
  · exact ⟨fun ht => ⟨ht, fun heq => hnot (heq ▸ ht)⟩, fun ht => ht.1⟩
  · have hext := Slots.Extends.write m hs
    refine ⟨hlt, fun hr => ?_, fun _ => ⟨fun t ht => (hext _).ready (hready t ht), ?_⟩⟩
    · rw [Slots.slot_write_self] at hr
      cases hr
    · rw [Slots.slot_write_self, hlin, hpub]
      show evalLinear C i (fun t => (m.slot t).sh) terms c = _
      exact evalLinear_congr (fun t ht => by rw [hext _ _ (hready t ht)]) c

end SlotsOk

/-- **`materialize` ends**, for a slot that was created before all pending wires: it makes the slot
ready, and changes no slot that is. -/
theorem materialize_ok {defs : List (SlotDef F)} {pending : List ℕ} {m : Slots F}
    (h : SlotsOk C i defs pending m) {a : ℕ} (ha : a < m.count) (hbefore : ∀ s ∈ pending, a < s) :
    ∃ m', materialize C i a m = some m' ∧ SlotsOk C i defs pending m' ∧ m.Extends m' ∧
      (m'.slot a).ready = true := by
  by_cases hready : (m.slot a).ready = true
  · exact ⟨m, if_pos hready, h, .refl m, hready⟩
  · rw [Bool.not_eq_true] at hready
    -- what is not ready up to `a` is a linear combination
    have hlinear : ∀ m', SlotsOk C i defs pending m' ∧ m.Extends m' → ∀ t ≤ a,
        (m'.slot t).ready = false → ∃ terms c, defs[t]? = some (.linear terms c) ∧
          (m'.slot t).lin = terms ∧ terms ≠ [] ∧ ∀ u ∈ terms, u.2 < t := by
      rintro m' ⟨hm', -⟩ t hta hr
      have ht : t < m'.count := by
        rw [hm'.count, ← h.count]
        exact hta.trans_lt ha
      obtain ⟨d, hd, hok⟩ := hm'.exists_def ht
      cases d with
      | wire =>
        rw [hok.mpr fun hmem => absurd (hbefore t hmem) (not_lt.mpr hta)] at hr
        cases hr
      | pub c =>
        rw [hok.1] at hr
        cases hr
      | linear terms c =>
        obtain ⟨hlin, -, hne⟩ := hok.2.1 hr
        exact ⟨terms, c, hd, hlin, hne, hok.1⟩
    have hevaluable : LazyDag.Evaluable (fun (m : Slots F) t => (m.slot t).ready)
        (fun m t => (m.slot t).lin.map Prod.snd) (resolve C i) a
        fun m' => SlotsOk C i defs pending m' ∧ m.Extends m' :=
      { waits := fun m' hm' t hta hr => by
          obtain ⟨terms, c, -, hlin, hne, -⟩ := hlinear m' hm' t hta hr
          rw [hlin, Ne, List.map_eq_nil_iff]
          exact hne
        lt := fun m' hm' t hta hr child hchild => by
          obtain ⟨terms, c, -, hlin, -, hlt⟩ := hlinear m' hm' t hta hr
          rw [hlin] at hchild
          obtain ⟨u, hu, rfl⟩ := List.mem_map.mp hchild
          exact hlt u hu
        step := fun m' hm' t hta hr hchildren => by
          obtain ⟨terms, c, hd, hlin, -, -⟩ := hlinear m' hm' t hta hr
          rw [hlin] at hchildren
          refine ⟨⟨hm'.1.resolve hr hd fun u hu => hchildren _ (List.mem_map_of_mem hu),
            hm'.2.trans (.write m' hr _)⟩, fun x => ?_⟩
          show ((m'.write t _).slot x).ready = true ↔ _
          by_cases hx : x = t
          · rw [hx, Slots.slot_write_self]
            simp
          · rw [m'.slot_write_of_ne _ hx, or_iff_right hx] }
    obtain ⟨m', hrun, ⟨hm', hext⟩, hready', -⟩ := LazyDag.run_ok hevaluable ⟨h, .refl m⟩ hready
    refine ⟨m', ?_, hm', hext, hready'⟩
    rw [materialize, if_neg (by rw [hready]; decide)]
    exact hrun

/-! ## A batch -/

section Batch

variable {defs : List (SlotDef F)} {m : Slots F}

theorem SlotsOk.ready_eq_false {pending : List ℕ} (h : SlotsOk C i defs pending m) {s : ℕ}
    (hs : s ∈ pending) : (m.slot s).ready = false := by
  rw [← Bool.not_eq_true]
  exact fun hready => (h.slot s _ (h.pendingWire s hs)).mp hready hs

/-- The first pending wire is filled. -/
theorem SlotsOk.fill {s : ℕ} {rest : List ℕ} (h : SlotsOk C i defs (s :: rest) m)
    (sh : AuthShare F) :
    SlotsOk C i defs rest (m.write s { m.slot s with sh := sh, ready := true }) := by
  obtain ⟨hlt, hsorted⟩ := List.pairwise_cons.mp h.sorted
  have hnot : s ∉ rest := fun hmem => lt_irrefl s (hlt s hmem)
  refine h.write (h.ready_eq_false List.mem_cons_self) (h.pendingWire s List.mem_cons_self) rfl
    (fun t => ?_) hsorted ?_
  · rw [List.mem_cons]
    constructor
    · exact fun ht => ⟨Or.inr ht, fun heq => hnot (heq ▸ ht)⟩
    · exact fun ht => ht.1.resolve_left ht.2
  · rw [SlotOk, Slots.slot_write_self]
    exact iff_of_true rfl hnot

/-- **A wire of a batch**, when those before it are filled: what its resolver reads was created
before it. -/
theorem fillSlot_ok {w : SlotWire} {rest : List ℕ} (h : SlotsOk C i defs (w.slot :: rest) m)
    (hinputs : ∀ ab ∈ w.inputs, ab.1 < w.slot ∧ ab.2 < w.slot) (sh : AuthShare F) :
    ∃ m' t, fillSlot C i w sh m = some (m', t) ∧ SlotsOk C i defs rest m' ∧ m.Extends m' ∧
      (m'.slot w.slot).ready = true ∧ (m'.slot w.slot).sh = sh := by
  have hlast : ∀ {m₁ : Slots F}, SlotsOk C i defs (w.slot :: rest) m₁ → m.Extends m₁ →
      let m' := m₁.write w.slot { m₁.slot w.slot with sh := sh, ready := true }
      SlotsOk C i defs rest m' ∧ m.Extends m' ∧ (m'.slot w.slot).ready = true ∧
        (m'.slot w.slot).sh = sh := fun {m₁} h₁ hext => by
    refine ⟨h₁.fill sh, hext.trans (.write m₁ (h₁.ready_eq_false List.mem_cons_self) _), ?_, ?_⟩
    · rw [Slots.slot_write_self]
    · rw [Slots.slot_write_self]
  cases hw : w.inputs with
  | none =>
    refine ⟨_, none, ?_, hlast h (.refl m)⟩
    rw [fillSlot, hw]
  | some ab =>
    obtain ⟨ha, hb⟩ := hinputs ab hw
    have hcount := h.lt_of_mem_pending List.mem_cons_self
    have hbefore : ∀ {a}, a < w.slot → ∀ s ∈ w.slot :: rest, a < s := fun {a} ha s hs => by
      rcases List.mem_cons.mp hs with rfl | hs
      · exact ha
      · exact ha.trans ((List.pairwise_cons.mp h.sorted).1 s hs)
    obtain ⟨m₁, hrun₁, h₁, hext₁, -⟩ := materialize_ok h (ha.trans hcount) (hbefore ha)
    have hcount₁ : m₁.count = m.count := h₁.count.trans h.count.symm
    obtain ⟨m₂, hrun₂, h₂, hext₂, -⟩ :=
      materialize_ok h₁ (hcount₁ ▸ hb.trans hcount) (hbefore hb)
    refine ⟨_, some ⟨(m₂.slot ab.1).sh, (m₂.slot ab.2).sh, sh⟩, ?_,
      hlast h₂ (hext₁.trans hext₂)⟩
    rw [fillSlot, hw]
    show (materialize C i ab.1 m).bind _ = _
    rw [hrun₁, Option.bind_some, hrun₂]
    rfl

/-- **The loop of `shareBatch`** fills every wire of the batch, with its own share. -/
theorem fillAll_ok (shares : ℕ → AuthShare F) {ws : List SlotWire} (slot : ℕ) {m : Slots F}
    (h : SlotsOk C i defs (ws.map SlotWire.slot) m)
    (hinputs : ∀ w ∈ ws, ∀ ab ∈ w.inputs, ab.1 < w.slot ∧ ab.2 < w.slot) :
    ∃ r, fillAll (fillSlot C i) shares ws slot m = some r ∧ SlotsOk C i defs [] r.1 ∧
      m.Extends r.1 ∧ ∀ j w, ws[j]? = some w → (r.1.slot w.slot).sh = shares (slot + j) := by
  induction ws generalizing slot m with
  | nil =>
    exact ⟨_, rfl, h, .refl m, fun j w hw => by
      rw [List.getElem?_nil] at hw
      cases hw⟩
  | cons w ws ih =>
    obtain ⟨m₁, t, hfill, h₁, hext₁, hready, hsh⟩ :=
      fillSlot_ok h (hinputs w List.mem_cons_self) (shares slot)
    obtain ⟨r, hrest, h', hext, hshares⟩ :=
      ih (slot + 1) h₁ fun w hw => hinputs w (List.mem_cons_of_mem _ hw)
    refine ⟨(r.1, (t.toList.map fun t => (w, t)) ++ r.2), ?_, h', hext₁.trans hext,
      fun j w' hw' => ?_⟩
    · rw [fillAll, hfill, Option.bind_some, hrest]
      rfl
    · cases j with
      | zero =>
        rw [List.getElem?_cons_zero, Option.some_inj] at hw'
        rw [← hw', hext _ hready]
        exact hsh
      | succ j =>
        rw [List.getElem?_cons_succ] at hw'
        rw [hshares j w' hw', Nat.add_right_comm, Nat.add_assoc]

theorem isSome_fillSlot {w : SlotWire} {sh : AuthShare F}
    {r : Slots F × Option (Triple (AuthShare F))} (h : fillSlot C i w sh m = some r) :
    r.2.isSome = w.isMult := by
  rw [SlotWire.isMult]
  cases hw : w.inputs with
  | none =>
    rw [fillSlot, hw] at h
    cases h
    rfl
  | some ab =>
    rw [fillSlot, hw] at h
    obtain ⟨m₁, -, h⟩ := Option.bind_eq_some_iff.mp h
    obtain ⟨m₂, -, rfl⟩ := Option.map_eq_some_iff.mp h
    rfl

/-- **Opened wires**, after a flush. -/
theorem checkClaimed_ok {claims : List (ℕ × F)} {m : Slots F} (h : SlotsOk C i defs [] m)
    (hclaims : ∀ c ∈ claims, c.1 < m.count) :
    ∃ m', checkClaimed C i claims m
        = some (m', claims.map fun c => ((m'.slot c.1).sh, c.2)) ∧
      SlotsOk C i defs [] m' ∧ m.Extends m' ∧
      ∀ c ∈ claims, (m'.slot c.1).ready = true := by
  induction claims generalizing m with
  | nil => exact ⟨m, rfl, h, .refl m, fun c hc => absurd hc List.not_mem_nil⟩
  | cons c claims ih =>
    obtain ⟨s, val⟩ := c
    obtain ⟨m₁, hrun, h₁, hext₁, hready⟩ :=
      materialize_ok h (hclaims _ List.mem_cons_self) fun s hs => absurd hs List.not_mem_nil
    obtain ⟨m', hrest, h', hext, hall⟩ := ih h₁ fun c hc => by
      rw [h₁.count, ← h.count]
      exact hclaims c (List.mem_cons_of_mem _ hc)
    refine ⟨m', ?_, h', hext₁.trans hext, fun c hc => ?_⟩
    · rw [checkClaimed, hrun, Option.bind_some, hrest, List.map_cons, hext _ hready]
      rfl
    · rcases List.mem_cons.mp hc with rfl | hc
      · exact hext.ready hready
      · exact hall c hc

end Batch

/-! ## Without delay -/

section Eager

/-- The share of a slot, from those of the slots before it, when the shares of the wires are
there. -/
def SlotDef.share (C : BackendConfig F) (i : ℕ) (arrive : ℕ → AuthShare F)
    (before : List (AuthShare F)) : SlotDef F → AuthShare F
  | .wire => arrive before.length
  | .pub c => pubShare C i c
  | .linear terms c => evalLinear C i (fun s => before.getD s 0) terms c

/-- The shares of all slots, each evaluated when it is created. -/
def eager (C : BackendConfig F) (i : ℕ) (arrive : ℕ → AuthShare F) (defs : List (SlotDef F)) :
    List (AuthShare F) :=
  defs.foldl (fun before d => before ++ [d.share C i arrive before]) []

variable (arrive : ℕ → AuthShare F)

theorem eager_concat (defs : List (SlotDef F)) (d : SlotDef F) :
    eager C i arrive (defs ++ [d])
      = eager C i arrive defs ++ [d.share C i arrive (eager C i arrive defs)] := by
  rw [eager, List.foldl_append]
  rfl

theorem length_eager (defs : List (SlotDef F)) :
    (eager C i arrive defs).length = defs.length := by
  induction defs using List.reverseRecOn with
  | nil => rfl
  | append_singleton defs d ih =>
    rw [eager_concat, List.length_append, List.length_append, ih]
    rfl

/-- Only the shares of wires arrive. -/
theorem eager_congr {arrive' : ℕ → AuthShare F} {defs : List (SlotDef F)}
    (h : ∀ s, defs[s]? = some .wire → arrive s = arrive' s) :
    eager C i arrive defs = eager C i arrive' defs := by
  induction defs using List.reverseRecOn with
  | nil => rfl
  | append_singleton defs d ih =>
    have hbefore := ih fun s hs => h s <| by
      rw [List.getElem?_append_left (List.getElem?_eq_some_iff.mp hs).1]
      exact hs
    rw [eager_concat, eager_concat, hbefore]
    cases d with
    | wire =>
      rw [SlotDef.share, SlotDef.share, length_eager, h _ List.getElem?_concat_length]
    | pub c => rfl
    | linear terms c => rfl

/-- **Slots that are ready hold the shares of an evaluation without delay.** -/
theorem SlotsOk.sh_eq_eager {defs : List (SlotDef F)} {pending : List ℕ} {m : Slots F}
    (h : SlotsOk C i defs pending m) {s : ℕ} (hs : s < defs.length)
    (hready : (m.slot s).ready = true) :
    (m.slot s).sh = (eager C i (fun t => (m.slot t).sh) defs).getD s 0 := by
  -- the slots of the first operations
  have htake : ∀ len, ∀ t < (defs.take len).length, (m.slot t).ready = true →
      (m.slot t).sh = (eager C i (fun t => (m.slot t).sh) (defs.take len)).getD t 0 := by
    intro len
    induction len with
    | zero =>
      intro t ht
      rw [List.take_zero] at ht
      exact absurd ht (Nat.not_lt_zero t)
    | succ len ih =>
      intro t ht htready
      rw [List.take_add_one] at ht ⊢
      cases hd : defs[len]? with
      | none =>
        rw [hd] at ht
        rw [Option.toList_none, List.append_nil] at ht ⊢
        exact ih t ht htready
      | some d =>
        rw [hd, Option.toList_some] at ht
        rw [Option.toList_some, eager_concat]
        have hlen : (eager C i (fun t => (m.slot t).sh) (defs.take len)).length = len := by
          rw [length_eager, List.length_take]
          exact min_eq_left (List.getElem?_eq_some_iff.mp hd).1.le
        have hlen' : (defs.take len).length = len := (length_eager _ _).symm.trans hlen
        rw [List.length_append, List.length_singleton, hlen', Nat.lt_succ_iff] at ht
        rcases ht.lt_or_eq with hlt | rfl
        · rw [List.getD_append _ _ _ _ (hlen.symm ▸ hlt)]
          exact ih t (hlen'.symm ▸ hlt) htready
        · rw [List.getD_append_right _ _ _ _ hlen.le, hlen, Nat.sub_self]
          have hok := h.slot t d hd
          cases d with
          | wire =>
            show _ = (m.slot (eager C i _ _).length).sh
            rw [hlen]
          | pub c => exact hok.2
          | linear terms c =>
            obtain ⟨hlt, -, hterms⟩ := hok
            obtain ⟨hall, hsh⟩ := hterms htready
            rw [List.getD_cons_zero, hsh, SlotDef.share]
            exact evalLinear_congr (fun u hu => ih u.2 (hlen'.symm ▸ hlt u hu) (hall u hu)) c
  have hall := htake defs.length s (by rwa [List.take_length]) hready
  rwa [List.take_length] at hall

end Eager

/-! ## The prover and all verifiers -/

/-- What the prover's value of slot `s` is. -/
def SlotDef.ValOk (pv : ℕ → F) (s : ℕ) : SlotDef F → Prop
  | .wire => True
  | .pub c => pv s = c
  | .linear terms c => pv s = terms.foldl (fun acc t => acc + t.1 * pv t.2) c

/-- **The slots of all parties.** -/
structure ExecData (C : BackendConfig F) (defs : List (SlotDef F)) (pv : ℕ → F)
    (ws : List SlotWire) (vals : List F) (m : ℕ → Slots F) : Prop where
  /-- The slots of the verifiers. -/
  slots : ∀ i, SlotsOk C i defs (ws.map SlotWire.slot) (m i)
  /-- A product was created after its factors. -/
  inputs : ∀ w ∈ ws, ∀ ab ∈ w.inputs, ab.1 < w.slot ∧ ab.2 < w.slot
  /-- The pending values. -/
  vals : ∀ j w, ws[j]? = some w → vals.getD j 0 = pv w.slot
  /-- The wires that are filled are shared. -/
  shared : C.Right → ∀ s, defs[s]? = some .wire → s ∉ ws.map SlotWire.slot →
    Shared C.poly.n C.delta (fun i => ((m i).slot s).sh) (pv s)

section Joint

variable {defs : List (SlotDef F)} {pv : ℕ → F} {ws : List SlotWire} {vals : List F}
  {m : ℕ → Slots F}

/-- **A batch.** -/
theorem execData_fills (defs : List (SlotDef F)) (pv : ℕ → F) :
    Fills C (fillSlot C) SlotWire.isMult (ExecData C defs pv) where
  isSome i _ _ _ _ hr := isSome_fillSlot (C := C) (i := i) hr
  batch p ws m hlen hle hdata := by
    choose filled hfill hok hext hsh using fun i =>
      fillAll_ok (batchShares C p i) 0 (hdata.slots i) hdata.inputs
    refine ⟨filled, hfill, hok, fun w hw => absurd hw List.not_mem_nil, fun j w hw => ?_,
      fun hR s hs _ => ?_⟩
    · rw [List.getElem?_nil] at hw
      cases hw
    · by_cases hmem : s ∈ ws.map SlotWire.slot
      · obtain ⟨w, hw, rfl⟩ := List.mem_map.mp hmem
        obtain ⟨j, hj⟩ := List.mem_iff_getElem?.mp hw
        have hjk : j < C.poly.k := (List.getElem?_eq_some_iff.mp hj).1.trans_le hle
        rw [← hdata.vals j w hj]
        refine (batchShares_shared hR p hjk).congr fun i _ => ?_
        rw [hsh i j w hj, Nat.zero_add]
      · refine (hdata.shared hR s hs hmem).congr fun i _ => ?_
        rw [hext i s (((hdata.slots i).slot s _ hs).mpr hmem)]

theorem pubShare_shared (C : BackendConfig F) (c : F) :
    Shared C.poly.n C.delta (fun i => pubShare C i c) c where
  share_sum := by
    simp only [pubShare]
    rw [sum_ite_eq_of_mem' _ _ _ (mem_range.mpr (Poly.n_pos C.poly))]
  mac_sum := by
    simp only [pubShare]
    rw [sum_const_zero, sum_neg_distrib, ← mul_sum]
    ring

theorem evalLinear_shared (sh : ℕ → ℕ → AuthShare F) {terms : List (F × ℕ)}
    (h : ∀ t ∈ terms, Shared C.poly.n C.delta (fun i => sh i t.2) (pv t.2)) (c : F) :
    Shared C.poly.n C.delta (fun i => evalLinear C i (sh i) terms c)
      (terms.foldl (fun acc t => acc + t.1 * pv t.2) c) := by
  have hacc : ∀ (acc : ℕ → AuthShare F) (v : F), Shared C.poly.n C.delta acc v →
      Shared C.poly.n C.delta
        (fun i => terms.foldl (fun acc t => acc + t.1 • sh i t.2) (acc i))
        (terms.foldl (fun acc t => acc + t.1 * pv t.2) v) := by
    induction terms with
    | nil => exact fun _ _ hacc => hacc
    | cons t terms ih =>
      intro acc v hacc
      exact ih (fun u hu => h u (List.mem_cons_of_mem t hu)) (fun i => acc i + t.1 • sh i t.2) _
        (hacc.add ((h t List.mem_cons_self).smul t.1))
  exact hacc _ c (pubShare_shared C c)

/-- Linear combinations are evaluated. -/
theorem ExecData.extends (h : ExecData C defs pv ws vals m) {m' : ℕ → Slots F}
    (hok : ∀ i, SlotsOk C i defs (ws.map SlotWire.slot) (m' i)) (hext : ∀ i, (m i).Extends (m' i)) :
    ExecData C defs pv ws vals m' :=
  { slots := hok
    inputs := h.inputs
    vals := h.vals
    shared := fun hR s hs hnot => by
      refine (h.shared hR s hs hnot).congr fun i _ => ?_
      rw [hext i s (((h.slots i).slot s _ hs).mpr hnot)] }

/-- **Slots that are ready are shared.** -/
theorem ExecData.ready_shared (h : ExecData C defs pv ws vals m) (hR : C.Right)
    (hvals : ∀ s (d : SlotDef F), defs[s]? = some d → d.ValOk pv s) {s : ℕ} (hs : s < defs.length)
    (hready : ∀ i < C.poly.n, ((m i).slot s).ready = true) :
    Shared C.poly.n C.delta (fun i => ((m i).slot s).sh) (pv s) := by
  induction s using Nat.strong_induction_on with
  | _ s ih =>
    obtain ⟨d, hd⟩ : ∃ d, defs[s]? = some d := ⟨defs.get ⟨s, hs⟩, List.getElem?_eq_getElem hs⟩
    have hok := fun i => (h.slots i).slot s d hd
    have hval := hvals s d hd
    cases d with
    | wire => exact h.shared hR s hd ((hok 0).mp (hready 0 (Poly.n_pos C.poly)))
    | pub c =>
      rw [show pv s = c from hval]
      exact (pubShare_shared C c).congr fun i _ => (hok i).2
    | linear terms c =>
      rw [show pv s = _ from hval]
      refine (evalLinear_shared (fun i t => ((m i).slot t).sh) (fun t ht => ?_) c).congr
        fun i hi => ((hok i).2.2 (hready i hi)).2
      have hlt := (hok 0).1 t ht
      exact ih t.2 hlt (hlt.trans hs) fun i hi => ((hok i).2.2 (hready i hi)).1 t ht

end Joint

end VoleZk.Mvzk
