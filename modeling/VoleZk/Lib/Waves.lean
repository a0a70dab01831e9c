import Mathlib.Data.List.Perm.Basic
import Mathlib.Data.Option.Basic
import Mathlib.Logic.Function.Basic

/-!
# One item at a time, or in waves

A machine processes items into a buffer of `cap` places, and makes room when the buffer is full.  A
scalar call makes room if it has to and processes one item.  A vectorized call takes as many items
as there is room for in one wave, again and again until its items are done.  A wave may leave traces
of its own in scratch memory; `erase` is what one sees of a state without them.

## What is here

* `Waves.Machine`, `Waves.Machine.scalar`, `Waves.Machine.vector`, `Waves.Machine.calls` — the two
  kinds of calls, and a sequence of them;
* `Waves.Machine.Lawful` — a wave is what its items are, one after the other, up to scratch memory;
* `Waves.Machine.calls_eq_scalar` — **however the items are cut into calls**, the outcome is that of
  scalar calls;
* `Waves.write` — a stretch of an array, written place by place;
* `Waves.foldl_perm_range` — loops whose iterations do not see each other.
-/

set_option autoImplicit false

namespace Waves

/-- A machine that processes items into a buffer. -/
structure Machine (σ : Type*) where
  /-- The places of the buffer. -/
  cap : ℕ
  /-- The places in use. -/
  cnt : σ → ℕ
  /-- Make room, if the buffer is full. -/
  ready : σ → Option σ
  /-- Process an item, when there is room. -/
  item : ℕ → σ → σ
  /-- Process the items from a given one on, when there is room for them. -/
  wave : ℕ → ℕ → σ → σ

/-- A call: of the next item, or of the next `n` items. -/
inductive Call where
  | scalar
  | vector (n : ℕ)

/-- The items of a call. -/
def Call.len : Call → ℕ
  | .scalar => 1
  | .vector n => n

/-- The items of several calls. -/
def Call.total : List Call → ℕ
  | [] => 0
  | c :: cs => c.len + total cs

namespace Machine

variable {σ : Type*} (M : Machine σ)

/-- Scalar calls of `n` items from `lo` on. -/
def scalar (lo : ℕ) : ℕ → σ → Option σ
  | 0, s => some s
  | n + 1, s => (M.ready s).bind fun s => scalar (lo + 1) n (M.item lo s)

/-- The loop of a vectorized call. -/
def vector (lo n : ℕ) (s : σ) : Option σ :=
  if _h : n = 0 then some s
  else
    (M.ready s).bind fun s =>
      let take := min (M.cap - M.cnt s) n
      if _h : take = 0 then none else vector (lo + take) (n - take) (M.wave lo take s)
termination_by n
decreasing_by omega

/-- A call of the items from `lo` on. -/
def call (lo : ℕ) : Call → σ → Option σ
  | .scalar, s => M.scalar lo 1 s
  | .vector n, s => M.vector lo n s

/-- Calls, one after the other. -/
def calls (lo : ℕ) : List Call → σ → Option σ
  | [], s => some s
  | c :: cs, s => (M.call lo c s).bind fun s => calls (lo + c.len) cs s

/-- Items one after the other, without making room. -/
def items (lo n : ℕ) (s : σ) : σ := (List.range n).foldl (fun s i => M.item (lo + i) s) s

/-- What the machine has to meet, for items below `bound`: the invariant is kept, the buffer fills
item by item, scratch memory does not matter, and **a wave is what its items are**. -/
structure Lawful (Inv : σ → Prop) (erase : σ → σ) (bound : ℕ) : Prop where
  /-- Making room makes room. -/
  ready_lt : ∀ {s t}, Inv s → M.ready s = some t → Inv t ∧ M.cnt t < M.cap
  /-- Where there is room, nothing happens. -/
  ready_of_lt : ∀ {s}, Inv s → M.cnt s < M.cap → M.ready s = some s
  /-- An item takes a place. -/
  item : ∀ {s} i, Inv s → M.cnt s < M.cap → Inv (M.item i s) ∧ M.cnt (M.item i s) = M.cnt s + 1
  /-- Erasing does not touch the count. -/
  inv_erase : ∀ {s t}, erase s = erase t → Inv s → Inv t
  /-- Making room does not look at scratch memory. -/
  ready_erase : ∀ s, M.ready (erase s) = (M.ready s).map erase
  /-- Nor does an item. -/
  item_erase : ∀ i s, M.item i (erase s) = erase (M.item i s)
  /-- A wave is its items. -/
  wave : ∀ {s} lo take, Inv s → M.cnt s + take ≤ M.cap → lo + take ≤ bound →
    erase (M.wave lo take s) = erase (M.items lo take s)

variable {M} {Inv : σ → Prop} {erase : σ → σ} {bound : ℕ}

theorem items_succ (lo n : ℕ) (s : σ) :
    M.items lo (n + 1) s = M.item (lo + n) (M.items lo n s) := by
  simp [items, List.range_succ]

theorem scalar_add (lo a b : ℕ) (s : σ) :
    M.scalar lo (a + b) s = (M.scalar lo a s).bind (M.scalar (lo + a) b) := by
  induction a generalizing lo s with
  | zero => rw [Nat.zero_add]; rfl
  | succ a ih =>
    rw [Nat.succ_add_eq_add_succ, Nat.add_succ, scalar, scalar, Option.bind_assoc]
    refine congrArg (Option.bind _) (funext fun t => ?_)
    rw [ih, Nat.add_assoc, Nat.add_comm 1 a]

namespace Lawful

variable (h : M.Lawful Inv erase bound)
include h

/-- Items for which there is room. -/
theorem items_inv (lo n : ℕ) {s : σ} (hs : Inv s) (hroom : M.cnt s + n ≤ M.cap) :
    Inv (M.items lo n s) ∧ M.cnt (M.items lo n s) = M.cnt s + n := by
  induction n with
  | zero => exact ⟨hs, rfl⟩
  | succ n ih =>
    obtain ⟨hinv, hcnt⟩ := ih (by omega)
    obtain ⟨hinv', hcnt'⟩ := h.item (lo + n) hinv (by omega)
    rw [items_succ, hcnt', hcnt]
    exact ⟨hinv', rfl⟩

/-- Scalar calls for which there is room. -/
theorem scalar_eq_items {lo n : ℕ} {s : σ} (hs : Inv s) (hroom : M.cnt s + n ≤ M.cap) :
    M.scalar lo n s = some (M.items lo n s) := by
  induction n with
  | zero => rfl
  | succ n ih =>
    obtain ⟨hinv, hcnt⟩ := h.items_inv lo n hs (by omega)
    rw [scalar_add, ih (by omega), Option.bind_some, scalar, h.ready_of_lt hinv (by omega),
      items_succ]
    rfl

/-- Scalar calls do not look at scratch memory. -/
theorem scalar_erase (lo n : ℕ) (s : σ) :
    M.scalar lo n (erase s) = (M.scalar lo n s).map erase := by
  induction n generalizing lo s with
  | zero => rfl
  | succ n ih =>
    rw [scalar, scalar, h.ready_erase, Option.map_bind, Option.bind_map]
    refine congrArg (Option.bind _) (funext fun t => ?_)
    rw [Function.comp, Function.comp, h.item_erase, ih]

/-- **A vectorized call** is scalar calls of its items.  The induction is on the items left, a wave
at a time. -/
theorem vector_eq_scalar {n : ℕ} : ∀ {lo : ℕ} {s : σ}, Inv s → lo + n ≤ bound →
    (M.vector lo n s).map erase = (M.scalar lo n s).map erase := by
  induction n using Nat.strongRecOn with
  | ind n ih =>
    intro lo s hs hbound
    rw [vector]
    split
    · rename_i hn
      rw [hn, scalar]
    · rename_i hn
      have hsplit : ∀ t, M.ready s = some t → M.scalar lo n s = M.scalar lo n t := fun t ht => by
        obtain ⟨hinv, hlt⟩ := h.ready_lt hs ht
        obtain ⟨m, rfl⟩ := Nat.exists_eq_succ_of_ne_zero hn
        rw [scalar, scalar, ht, h.ready_of_lt hinv hlt]
      cases ht : M.ready s with
      | none =>
        obtain ⟨m, rfl⟩ := Nat.exists_eq_succ_of_ne_zero hn
        rw [scalar, ht]
        rfl
      | some t =>
        obtain ⟨hinv, hlt⟩ := h.ready_lt hs ht
        have htake : min (M.cap - M.cnt t) n ≠ 0 := by omega
        have hle : min (M.cap - M.cnt t) n ≤ n := Nat.min_le_right _ _
        have hroom : M.cnt t + min (M.cap - M.cnt t) n ≤ M.cap := by omega
        rw [hsplit t ht, Option.bind_some, dif_neg htake]
        generalize min (M.cap - M.cnt t) n = take at htake hle hroom ⊢
        obtain ⟨hinv', -⟩ := h.items_inv lo take hinv hroom
        have hwave := h.wave lo take hinv hroom (by omega)
        rw [ih (n - take) (by omega) (h.inv_erase hwave.symm hinv') (by omega),
          ← h.scalar_erase, hwave, h.scalar_erase]
        conv_rhs => rw [← Nat.add_sub_of_le hle, scalar_add, h.scalar_eq_items hinv hroom]
        rfl

/-- Scalar calls keep the invariant. -/
theorem scalar_inv {n : ℕ} : ∀ {lo : ℕ} {s t : σ}, Inv s → M.scalar lo n s = some t → Inv t := by
  induction n with
  | zero =>
    intro lo s t hs ht
    exact Option.some.inj ht ▸ hs
  | succ n ih =>
    intro lo s t hs ht
    obtain ⟨r, hr, ht⟩ := Option.bind_eq_some_iff.mp ht
    obtain ⟨hinv, hlt⟩ := h.ready_lt hs hr
    exact ih (h.item lo hinv hlt).1 ht

/-- **However the items are cut into calls**, the outcome is that of scalar calls. -/
theorem calls_eq_scalar {cs : List Call} : ∀ {lo : ℕ} {s : σ}, Inv s →
    lo + Call.total cs ≤ bound →
    (M.calls lo cs s).map erase = (M.scalar lo (Call.total cs) s).map erase := by
  induction cs with
  | nil => exact fun _ _ => rfl
  | cons c cs ih =>
    intro lo s hs hbound
    rw [Call.total] at hbound ⊢
    have hcall : (M.call lo c s).map erase = (M.scalar lo c.len s).map erase := by
      cases c with
      | scalar => rfl
      | vector n =>
        exact h.vector_eq_scalar hs
          (Nat.le_trans (Nat.add_le_add_left (Nat.le_add_right n _) lo) hbound)
    rw [calls, scalar_add]
    cases hs' : M.scalar lo c.len s with
    | none =>
      rw [hs', Option.map_none, Option.map_eq_none_iff] at hcall
      rw [hcall]
      rfl
    | some t =>
      rw [hs', Option.map_some, Option.map_eq_some_iff] at hcall
      obtain ⟨u, hu, heq⟩ := hcall
      have ht : Inv t := h.scalar_inv hs hs'
      have hrest : lo + c.len + Call.total cs ≤ bound := by rwa [Nat.add_assoc]
      rw [hu, Option.bind_some, Option.bind_some, ih (h.inv_erase heq.symm ht) hrest,
        ← h.scalar_erase, heq, h.scalar_erase]

end Lawful

end Machine

/-! ## Stretches of an array -/

section Write

variable {α : Type*}

/-- The array with `n` places from `base` on replaced. -/
def write (f : ℕ → α) (base n : ℕ) (v : ℕ → α) : ℕ → α := fun x =>
  if base ≤ x ∧ x < base + n then v (x - base) else f x

@[simp] theorem write_zero (f : ℕ → α) (base : ℕ) (v : ℕ → α) : write f base 0 v = f := by
  funext x
  exact if_neg (by omega)

theorem write_succ (f : ℕ → α) (base n : ℕ) (v : ℕ → α) :
    write f base (n + 1) v = Function.update (write f base n v) (base + n) (v n) := by
  funext x
  simp only [write, Function.update_apply]
  by_cases hx : x = base + n
  · rw [if_pos (by omega), if_pos hx, hx, Nat.add_sub_cancel_left]
  · by_cases hlt : base ≤ x ∧ x < base + n
    · rw [if_pos (by omega), if_neg hx, if_pos hlt]
    · rw [if_neg (by omega), if_neg hx, if_neg hlt]

theorem write_of_lt {f v : ℕ → α} {base n i : ℕ} (hi : i < n) :
    write f base n v (base + i) = v i := by
  rw [write, if_pos (by omega), Nat.add_sub_cancel_left]

theorem write_of_ne {f v : ℕ → α} {base n x : ℕ} (hx : ∀ i < n, x ≠ base + i) :
    write f base n v x = f x := by
  refine if_neg fun h => hx (x - base) (by omega) (by omega)

/-- Writing a stretch twice. -/
theorem write_write (f : ℕ → α) (base n : ℕ) (v w : ℕ → α) :
    write (write f base n v) base n w = write f base n w := by
  funext x
  simp only [write]
  split <;> rfl

theorem write_congr {f v w : ℕ → α} {base n : ℕ} (h : ∀ i < n, v i = w i) :
    write f base n v = write f base n w := by
  funext x
  simp only [write]
  split
  · exact h _ (by omega)
  · rfl

end Write

/-- A loop whose iterations do not see each other may be run in any order. -/
theorem foldl_perm_range {σ : Type*} {work : ℕ → σ → σ} {l : List ℕ} {n : ℕ}
    (hl : l.Perm (List.range n))
    (hcomm : ∀ i < n, ∀ j < n, i ≠ j → ∀ s, work i (work j s) = work j (work i s)) (s : σ) :
    l.foldl (fun s i => work i s) s = (List.range n).foldl (fun s i => work i s) s := by
  refine hl.foldl_eq' (fun i hi j hj s => ?_) s
  have hi' : i < n := List.mem_range.mp (hl.mem_iff.mp hi)
  have hj' : j < n := List.mem_range.mp (hl.mem_iff.mp hj)
  by_cases hij : i = j
  · rw [hij]
  · exact hcomm j hj' i hi' (Ne.symm hij) s

/-! ## Loops that write where they read -/

section InPlace

variable {α β γ S : Type*} (po pa pb : ℕ) (get : ℕ → S → β) (put : ℕ → γ → S → S) (out : γ → α)
  (f : α → α → α → β → γ)

/-- Iteration `i` reads place `i` of three arrays in memory, and of a state beside it; it stores
what it computes at place `i` of the state, and a part of that at place `i` of the first array. -/
def inPlace (i : ℕ) (x : (ℕ → α) × S) : (ℕ → α) × S :=
  let g := f (x.1 (po + i)) (x.1 (pa + i)) (x.1 (pb + i)) (get i x.2)
  (Function.update x.1 (po + i) (out g), put i g x.2)

variable {po pa pb} {n : ℕ} (ha : ∀ i < n, ∀ j < n, i ≠ j → pa + i ≠ po + j)
  (hb : ∀ i < n, ∀ j < n, i ≠ j → pb + i ≠ po + j)
  (hget : ∀ i j g s, i ≠ j → get i (put j g s) = get i s)
  (hput : ∀ i j g g' s, i ≠ j → put i g (put j g' s) = put j g' (put i g s))
include ha hb hget hput

/-- **Any order**, and the arrays may be the same, as long as no iteration reads what another one
writes: every iteration sees what was there before. -/
theorem foldl_inPlace {l : List ℕ} (hl : l.Perm (List.range n)) (m : ℕ → α) (s : S) :
    let g := fun i => f (m (po + i)) (m (pa + i)) (m (pb + i)) (get i s)
    l.foldl (fun x i => inPlace po pa pb get put out f i x) (m, s)
      = (write m po n fun i => out (g i), (List.range n).foldl (fun s i => put i (g i) s) s) := by
  intro g
  have hne : ∀ {i j : ℕ}, i ≠ j → po + i ≠ po + j := fun h h' => h (Nat.add_left_cancel h')
  have hcomm : ∀ i < n, ∀ j < n, i ≠ j → ∀ x,
      inPlace po pa pb get put out f i (inPlace po pa pb get put out f j x)
        = inPlace po pa pb get put out f j (inPlace po pa pb get put out f i x) := by
    intro i hi j hj hij x
    simp only [inPlace, Function.update_of_ne (ha i hi j hj hij),
      Function.update_of_ne (hb i hi j hj hij), Function.update_of_ne (hne hij),
      Function.update_of_ne (ha j hj i hi hij.symm), Function.update_of_ne (hb j hj i hi hij.symm),
      Function.update_of_ne (hne hij.symm), hget _ _ _ _ hij, hget _ _ _ _ hij.symm]
    rw [Function.update_comm (hne hij), hput i j _ _ _ hij]
  rw [foldl_perm_range hl hcomm]
  -- in order: the iterations still to come find their places as they were
  have hloop : ∀ k ≤ n, (List.range k).foldl (fun x i => inPlace po pa pb get put out f i x) (m, s)
      = (write m po k fun i => out (g i), (List.range k).foldl (fun s i => put i (g i) s) s) := by
    intro k
    induction k with
    | zero =>
      intro _
      rw [write_zero]
      rfl
    | succ k ih =>
      intro hk
      have hstate : ∀ j ≤ k,
          get k ((List.range j).foldl (fun s i => put i (g i) s) s) = get k s := by
        intro j hj
        induction j with
        | zero => rfl
        | succ j ih =>
          rw [List.range_succ, List.foldl_append]
          exact (hget _ _ _ _ (by omega)).trans (ih (by omega))
      rw [List.range_succ, List.foldl_append, ih (by omega), List.foldl_append, write_succ]
      simp only [List.foldl_cons, List.foldl_nil, inPlace, hstate k (Nat.le_refl k),
        write_of_ne fun i (hi : i < k) => hne (by omega : k ≠ i),
        write_of_ne fun i (hi : i < k) => ha k (by omega) i (by omega) (by omega),
        write_of_ne fun i (hi : i < k) => hb k (by omega) i (by omega) (by omega), g]
  exact hloop n (Nat.le_refl n)

end InPlace

end Waves
