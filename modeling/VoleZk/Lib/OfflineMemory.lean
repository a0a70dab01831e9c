import Mathlib.Algebra.BigOperators.Group.Finset.Basic
import Mathlib.Algebra.Order.Group.Multiset
import Mathlib.Tactic.Abel

/-!
# Offline memory checking

A memory is checked *offline* by two logs.  Every access logs the record it claims to have found
(value, address, time of the write) and the record it leaves behind, stamped with a public clock;
setup logs one write per cell and teardown one read per cell.  The check is that the two logs are
equal as multisets, and everything in this file is about what that equality forces.

## What is here

* `Access`, `Access.read`, `Access.write`, `writes` — the two logs of a list of accesses;
* `live` — the records a memory currently holds, one per cell, and `live_update`, which says what
  one access does to them;
* `Replays` — the accesses behave as on a real memory, each one consuming exactly the record its
  cell holds;
* `replays_of_balanced` — **if every access reads from the past, balanced logs replay.**  The
  induction runs forwards over the accesses, the live records being the invariant;
* `mem_of_balanced` — without the freshness hypothesis all that is left is a pointer: a record
  read is a live one or the one some access, earlier or later, left behind;
* `val_of_reaches` — if no access changes the value, a pointer chain that arrives at a setup
  record pins the value read.
-/

set_option autoImplicit false

namespace OfflineMemory

variable {ι ν : Type*}

/-! ## Records and logs -/

/-- A logged record: a value, the address it belongs to, and the time it was written. -/
@[ext] structure Rec (ι ν : Type*) where
  /-- The value. -/
  val : ν
  /-- The address. -/
  addr : ι
  /-- The time of the write. -/
  time : ℕ
  deriving DecidableEq

/-- One access: the address, the value and time it claims to find there, and the value it leaves
behind. -/
structure Access (ι ν : Type*) where
  /-- The address accessed. -/
  addr : ι
  /-- The value claimed to be there. -/
  old : ν
  /-- The time at which that value was claimed to be written. -/
  told : ℕ
  /-- The value left behind. -/
  new : ν

/-- The record an access logs as read. -/
def Access.read (a : Access ι ν) : Rec ι ν := ⟨a.old, a.addr, a.told⟩

/-- The record an access at time `t` logs as written. -/
def Access.write (t : ℕ) (a : Access ι ν) : Rec ι ν := ⟨a.new, a.addr, t⟩

/-- The write log of a list of accesses when the clock starts at `t`. -/
def writes : ℕ → List (Access ι ν) → List (Rec ι ν)
  | _, [] => []
  | t, a :: as => a.write t :: writes (t + 1) as

@[simp] theorem writes_nil (t : ℕ) : writes t ([] : List (Access ι ν)) = [] := rfl

@[simp] theorem writes_cons (t : ℕ) (a : Access ι ν) (as : List (Access ι ν)) :
    writes t (a :: as) = a.write t :: writes (t + 1) as := rfl

/-- A record of the write log is the one some access left behind, stamped with its own time. -/
theorem mem_writes {t : ℕ} {as : List (Access ι ν)} {r : Rec ι ν} :
    r ∈ writes t as ↔ ∃ j, ∃ h : j < as.length, r = as[j].write (t + j) := by
  induction as generalizing t with
  | nil => simp
  | cons a as ih =>
    rw [writes_cons, List.mem_cons, ih]
    constructor
    · rintro (rfl | ⟨j, hj, rfl⟩)
      · exact ⟨0, by simp, by simp⟩
      · exact ⟨j + 1, by simpa using hj, by simp [Nat.add_comm, Nat.add_left_comm]⟩
    · rintro ⟨j, hj, rfl⟩
      cases j with
      | zero => exact Or.inl (by simp)
      | succ j => exact Or.inr ⟨j, by simpa using hj, by simp [Nat.add_comm, Nat.add_left_comm]⟩

theorem le_time_of_mem_writes {t : ℕ} {as : List (Access ι ν)} {r : Rec ι ν}
    (h : r ∈ writes t as) : t ≤ r.time := by
  obtain ⟨j, _, rfl⟩ := mem_writes.mp h
  exact Nat.le_add_right t j

/-! ## The live records of a memory -/

/-- The records a memory holds: one per cell of `dom`, with the cell's value and the time it was
last written. -/
def live (dom : Finset ι) (m : ι → ν × ℕ) : Multiset (Rec ι ν) :=
  ∑ i ∈ dom, {⟨(m i).1, i, (m i).2⟩}

theorem mem_live {dom : Finset ι} {m : ι → ν × ℕ} {r : Rec ι ν} :
    r ∈ live dom m ↔ r.addr ∈ dom ∧ m r.addr = (r.val, r.time) := by
  rw [live, Multiset.mem_sum]
  constructor
  · rintro ⟨i, hi, hr⟩
    rw [Multiset.mem_singleton.mp hr]
    exact ⟨hi, rfl⟩
  · rintro ⟨hdom, hm⟩
    exact ⟨r.addr, hdom, by rw [hm]; exact Multiset.mem_singleton_self r⟩

/-- The live records of an initial segment of cells, listed in order. -/
theorem live_range (n : ℕ) (m : ℕ → ν × ℕ) :
    live (Finset.range n) m
      = ((List.range n).map fun i => (⟨(m i).1, i, (m i).2⟩ : Rec ℕ ν) : List (Rec ℕ ν)) := by
  induction n with
  | zero => rfl
  | succ n ih =>
    rw [live, Finset.sum_range_succ, ← live, ih, List.range_succ, List.map_append,
      ← Multiset.coe_add]
    rfl

/-- **What one access does to the live records**: the record of its cell is exchanged for the new
one, the rest stays. -/
theorem live_update [DecidableEq ι] {dom : Finset ι} {m : ι → ν × ℕ} {i : ι} (hi : i ∈ dom)
    (c : ν × ℕ) :
    live dom (Function.update m i c) + {⟨(m i).1, i, (m i).2⟩} = live dom m + {⟨c.1, i, c.2⟩} := by
  have hrest : ∑ j ∈ dom.erase i, ({⟨(Function.update m i c j).1, j,
        (Function.update m i c j).2⟩} : Multiset (Rec ι ν))
      = ∑ j ∈ dom.erase i, {⟨(m j).1, j, (m j).2⟩} := by
    refine Finset.sum_congr rfl fun j hj => ?_
    rw [Function.update_of_ne (Finset.ne_of_mem_erase hj)]
  rw [live, live, ← Finset.add_sum_erase dom _ hi, ← Finset.add_sum_erase dom _ hi, hrest,
    Function.update_self]
  abel

/-- The same with the writes listed: if they are the reads and the live records, listed by `l`, they
still are after an access that exchanges one of these. -/
theorem perm_exchange {α β : Type*} [DecidableEq α] {l : List α} (hl : l.Nodup) {i : α} (hi : i ∈ l)
    {f g : α → β} (h : ∀ j, j ≠ i → f j = g j) {reads writes : List β}
    (hbalance : writes.Perm (reads ++ l.map g)) :
    (writes ++ [f i]).Perm (reads ++ [g i] ++ l.map f) := by
  have hsplit : ∀ f : α → β, (l.map f).Perm (f i :: (l.erase i).map f) := fun f =>
    (List.perm_cons_erase hi).map f
  have hrest : (l.erase i).map f = (l.erase i).map g :=
    List.map_congr_left fun j hj => h j (hl.mem_erase_iff.mp hj).1
  have hswap : (l.map g ++ [f i]).Perm (g i :: l.map f) := by
    calc (l.map g ++ [f i]).Perm (f i :: l.map g) := List.perm_append_singleton _ _
      _ |>.Perm (f i :: g i :: (l.erase i).map g) := (hsplit g).cons _
      _ |>.Perm (g i :: f i :: (l.erase i).map g) := List.Perm.swap _ _ _
      _ |>.Perm (g i :: l.map f) := by rw [← hrest]; exact ((hsplit f).symm).cons _
  rw [List.append_assoc, List.singleton_append]
  refine (hbalance.append_right _).trans ?_
  rw [List.append_assoc]
  exact hswap.append_left _

/-! ## BalancedLogs logs replay -/

/-- The logs balance: the setup records (those of the memory `m`) and the accesses' writes are,
as a multiset, the accesses' reads and the teardown records. -/
def BalancedLogs (dom : Finset ι) (t : ℕ) (m : ι → ν × ℕ) (as : List (Access ι ν))
    (fin : Multiset (Rec ι ν)) : Prop :=
  live dom m + (writes t as : Multiset (Rec ι ν)) = (as.map Access.read : List (Rec ι ν)) + fin

/-- A first access that reads from the past reads a live record: the write log holds nothing
older than the clock. -/
theorem BalancedLogs.head_live {dom : Finset ι} {t : ℕ} {m : ι → ν × ℕ} {a : Access ι ν}
    {as : List (Access ι ν)} {fin : Multiset (Rec ι ν)} (h : BalancedLogs dom t m (a :: as) fin)
    (hfresh : a.told < t) : a.addr ∈ dom ∧ m a.addr = (a.old, a.told) := by
  have hmem : a.read ∈ live dom m + (writes t (a :: as) : Multiset (Rec ι ν)) := by
    rw [h]
    simp
  rcases Multiset.mem_add.mp hmem with hl | hw
  · exact mem_live.mp hl
  · have ht : t ≤ a.told := le_time_of_mem_writes (Multiset.mem_coe.mp hw)
    omega

section Replay

variable [DecidableEq ι]

/-- The accesses behave as on a real memory: each names a cell of `dom` and finds there exactly
the value and the time that cell holds, and its own record is what the cell holds next. -/
def Replays (dom : Finset ι) : ℕ → (ι → ν × ℕ) → List (Access ι ν) → Prop
  | _, _, [] => True
  | t, m, a :: as =>
    a.addr ∈ dom ∧ m a.addr = (a.old, a.told) ∧
      Replays dom (t + 1) (Function.update m a.addr (a.new, t)) as

/-- Once the first access has consumed the live record of its cell, the logs of the remaining
accesses balance over the updated memory. -/
theorem BalancedLogs.tail {dom : Finset ι} {t : ℕ} {m : ι → ν × ℕ} {a : Access ι ν}
    {as : List (Access ι ν)} {fin : Multiset (Rec ι ν)} (h : BalancedLogs dom t m (a :: as) fin)
    (hdom : a.addr ∈ dom) (hm : m a.addr = (a.old, a.told)) :
    BalancedLogs dom (t + 1) (Function.update m a.addr (a.new, t)) as fin := by
  have hswap := live_update hdom (m := m) (a.new, t)
  rw [hm] at hswap
  have h' : live dom m + {a.write t} + (writes (t + 1) as : Multiset (Rec ι ν))
      = {a.read} + ((as.map Access.read : List (Rec ι ν)) + fin) := by
    rw [BalancedLogs, writes_cons, List.map_cons, ← Multiset.cons_coe, ← Multiset.cons_coe,
      ← Multiset.singleton_add, ← Multiset.singleton_add] at h
    rw [add_assoc, h, add_assoc]
  have hread : a.read = ⟨a.old, a.addr, a.told⟩ := rfl
  have hwrite : a.write t = ⟨a.new, a.addr, t⟩ := rfl
  rw [hread, hwrite, ← hswap] at h'
  have hcancel : ({⟨a.old, a.addr, a.told⟩} : Multiset (Rec ι ν)) +
      (live dom (Function.update m a.addr (a.new, t)) + (writes (t + 1) as : Multiset (Rec ι ν)))
      = {⟨a.old, a.addr, a.told⟩} + ((as.map Access.read : List (Rec ι ν)) + fin) := by
    rw [← h']
    abel
  exact add_left_cancel hcancel

/-- **BalancedLogs logs replay, if every access reads from the past.**  The live records are the
invariant: an access that reads from the past can only have read one of them. -/
theorem replays_of_balanced {dom : Finset ι} {t : ℕ} {m : ι → ν × ℕ} {as : List (Access ι ν)}
    {fin : Multiset (Rec ι ν)} (h : BalancedLogs dom t m as fin)
    (hfresh : ∀ k (hk : k < as.length), as[k].told < t + k) : Replays dom t m as := by
  induction as generalizing t m with
  | nil => trivial
  | cons a as ih =>
    obtain ⟨hdom, hm⟩ := h.head_live (hfresh 0 (Nat.succ_pos _))
    refine ⟨hdom, hm, ih (h.tail hdom hm) fun k hk => ?_⟩
    have hk1 := hfresh (k + 1) (by simpa using hk)
    simp only [List.getElem_cons_succ] at hk1
    omega

end Replay

/-! ## BalancedLogs logs without freshness

An access may then name a record that has not been written yet, its own included, and what is
left of the argument is a pointer from each access to the writer of the record it names. -/

/-- **Every record read was written**: it is live at the start, or some access left it behind. -/
theorem mem_of_balanced {dom : Finset ι} {t : ℕ} {m : ι → ν × ℕ} {as : List (Access ι ν)}
    {fin : Multiset (Rec ι ν)} (h : BalancedLogs dom t m as fin) {k : ℕ} (hk : k < as.length) :
    (as[k].addr ∈ dom ∧ m as[k].addr = (as[k].old, as[k].told)) ∨
      ∃ j, ∃ hj : j < as.length, as[k].told = t + j ∧ as[j].addr = as[k].addr ∧
        as[j].new = as[k].old := by
  have hmem : as[k].read ∈ live dom m + (writes t as : Multiset (Rec ι ν)) := by
    rw [h]
    exact Multiset.mem_add.mpr
      (Or.inl (Multiset.mem_coe.mpr (List.mem_map_of_mem (List.getElem_mem hk))))
  rcases Multiset.mem_add.mp hmem with hl | hw
  · exact Or.inl (mem_live.mp hl)
  · obtain ⟨j, hj, he⟩ := mem_writes.mp (Multiset.mem_coe.mp hw)
    rw [Access.read, Access.write, Rec.mk.injEq] at he
    exact Or.inr ⟨j, hj, he.2.2, he.2.1.symm, he.1.symm⟩

/-- The time a chain of old times arrives at: from time `t + k` of access `k` it goes on to the
old time that access named, and it stays where no access is. -/
def chase (t : ℕ) (as : List (Access ι ν)) (s : ℕ) : ℕ :=
  if h : t ≤ s ∧ s - t < as.length then (as.get ⟨s - t, h.2⟩).told else s

theorem chase_add {t : ℕ} {as : List (Access ι ν)} {k : ℕ} (hk : k < as.length) :
    chase t as (t + k) = as[k].told := by
  rw [chase, dif_pos ⟨Nat.le_add_right t k, by simpa using hk⟩]
  simp

/-- **A chain of old times that arrives at setup pins the value**, as long as no access changes
what it reads: all the records along the chain carry one address and one value. -/
theorem val_of_reaches {dom : Finset ι} {t : ℕ} {m : ι → ν × ℕ} {as : List (Access ι ν)}
    {fin : Multiset (Rec ι ν)} (h : BalancedLogs dom t m as fin)
    (hconst : ∀ a ∈ as, a.new = a.old) {j : ℕ} :
    ∀ {k : ℕ} (hk : k < as.length), (chase t as)^[j] (t + k) < t →
      as[k].addr ∈ dom ∧ (m as[k].addr).1 = as[k].old := by
  induction j with
  | zero =>
    intro k hk hlt
    exact absurd hlt (Nat.not_lt.mpr (Nat.le_add_right t k))
  | succ j ih =>
    intro k hk hlt
    rcases mem_of_balanced h hk with ⟨hdom, hm⟩ | ⟨i, hi, htold, haddr, hnew⟩
    · exact ⟨hdom, by rw [hm]⟩
    · rw [Function.iterate_succ_apply, chase_add hk, htold] at hlt
      obtain ⟨hdom, hval⟩ := ih hi hlt
      rw [haddr] at hdom hval
      exact ⟨hdom, by rw [hval, ← hnew, hconst _ (List.getElem_mem hi)]⟩

end OfflineMemory
