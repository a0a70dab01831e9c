import Mathlib.Data.BitVec
import Mathlib.Data.List.Basic
import Mathlib.Tactic.Ring

/-!
# Zero-knowledge memory: `ZKSet` and `ZKRam`

The read/write RAM, the read-only memory and the membership set of `emp-zk-bool`, at the level of
the cleartext records their gadgets hand to the permutation proof.  A `ZKUInt` of width `w` is a
`BitVec w`, a public input is `BitVec.ofNat`, and a witness is whatever the prover commits: every
`zk.input(ALICE, …)` of `access_`, `prove_member` and of the two teardowns is an argument here,
so that a statement about all of them is a statement about every prover.

What is kept of `ZKPermProof` is the pair of lists it is given.  The check it runs on them is
`PermLists.checkEq`, equality as multisets.

## What is here

* `ramzkBitsFor` and its bound `lt_two_pow_ramzkBitsFor`;
* `ZKSet.setup`, `ZKSet.proveMember`, `ZKSet.check`;
* `ZKRam.setup`, `ZKRam.init`, `ZKRam.access`, `ZKRam.check`, and `ZKRam.run`, a list of reads and
  writes;
* the closed forms `ZKRam.run_eq_some` and `ZKRam.check_listA` of what a run leaves in the lists.
-/

set_option autoImplicit false

namespace VoleZk

/-! ## Widths -/

/-- The loop of `ramzk_bits_for`, with the number of iterations it may still make. -/
def bitsFrom (hi : ℕ) : ℕ → ℕ → ℕ
  | 0, b => b
  | fuel + 1, b => if 2 ^ b ≤ hi then bitsFrom hi fuel (b + 1) else b

/-- `ramzk_bits_for`: the smallest width `b ≥ 1` with `2 ^ b > hi`.  As `hi < 2 ^ hi`, `hi`
iterations are always enough. -/
def ramzkBitsFor (hi : ℕ) : ℕ := bitsFrom hi hi 1

theorem lt_two_pow_bitsFrom (hi : ℕ) : ∀ (fuel b : ℕ), hi < 2 ^ (b + fuel) →
    hi < 2 ^ bitsFrom hi fuel b
  | 0, _, h => h
  | fuel + 1, b, h => by
    rw [bitsFrom]
    split
    · exact lt_two_pow_bitsFrom hi fuel (b + 1) (by rwa [Nat.add_right_comm])
    · rename_i hlt
      exact Nat.lt_of_not_le hlt

/-- Every timestamp in `{0, …, hi}` fits in `ramzkBitsFor hi` bits. -/
theorem lt_two_pow_ramzkBitsFor (hi : ℕ) : hi < 2 ^ ramzkBitsFor hi :=
  lt_two_pow_bitsFrom hi hi 1 (Nat.lt_two_pow_self.trans_le
    (Nat.pow_le_pow_right (by decide) (Nat.le_add_left hi 1)))

theorem bitsFrom_pos (hi : ℕ) : ∀ (fuel b : ℕ), 0 < b → 0 < bitsFrom hi fuel b
  | 0, _, h => h
  | fuel + 1, b, h => by
    rw [bitsFrom]
    split
    · exact bitsFrom_pos hi fuel (b + 1) (Nat.succ_pos b)
    · exact h

theorem ramzkBitsFor_pos (hi : ℕ) : 0 < ramzkBitsFor hi := bitsFrom_pos hi hi 1 Nat.one_pos

/-! ## The two lists of a permutation proof -/

/-- The two lists a `ZKPermProof` is fed: `A` collects reads, `B` collects writes. -/
structure PermLists (R : Type) where
  /-- The elements added by `add_A`. -/
  listA : List R := []
  /-- The elements added by `add_B`. -/
  listB : List R := []

section PermLists

variable {R : Type}

/-- `emit_`: append a record to `A` or to `B`. -/
def PermLists.emit (p : PermLists R) (toA : Bool) (r : R) : PermLists R :=
  if toA then { p with listA := p.listA ++ [r] } else { p with listB := p.listB ++ [r] }

@[simp] theorem PermLists.emit_true_listA (p : PermLists R) (r : R) :
    (p.emit true r).listA = p.listA ++ [r] := rfl

@[simp] theorem PermLists.emit_true_listB (p : PermLists R) (r : R) :
    (p.emit true r).listB = p.listB := rfl

@[simp] theorem PermLists.emit_false_listA (p : PermLists R) (r : R) :
    (p.emit false r).listA = p.listA := rfl

@[simp] theorem PermLists.emit_false_listB (p : PermLists R) (r : R) :
    (p.emit false r).listB = p.listB ++ [r] := rfl

/-- The statement `check_eq` proves: `A` is a permutation of `B`. -/
def PermLists.checkEq (p : PermLists R) : Prop := p.listA.Perm p.listB

instance [DecidableEq R] (p : PermLists R) : Decidable p.checkEq :=
  inferInstanceAs (Decidable (p.listA.Perm p.listB))

theorem PermLists.foldl_emit_true {ι : Type} (f : ι → R) (l : List ι) (p : PermLists R) :
    l.foldl (fun q i => q.emit true (f i)) p
      = { listA := p.listA ++ l.map f, listB := p.listB } := by
  induction l generalizing p with
  | nil => simp
  | cons i l ih => rw [List.foldl_cons, ih]; simp

theorem PermLists.foldl_emit_false {ι : Type} (f : ι → R) (l : List ι) (p : PermLists R) :
    l.foldl (fun q i => q.emit false (f i)) p
      = { listA := p.listA, listB := p.listB ++ l.map f } := by
  induction l generalizing p with
  | nil => simp
  | cons i l ih => rw [List.foldl_cons, ih]; simp

end PermLists

/-! ## `ZKSet`: membership in `{1, …, T}` -/

/-- A record of `ZKSet`: an element and its version. -/
structure SetRecord (elemSz verSz : ℕ) where
  /-- The element. -/
  element : BitVec elemSz
  /-- How often the element has been queried before. -/
  version : BitVec verSz
  deriving DecidableEq

/-- `ZKSet` over the public range `{1, …, T}`, elements being `elemSz` bits wide. -/
structure ZKSet (T elemSz : ℕ) where
  /-- ALICE: the latest version of each element, indexed by value. -/
  ver : List ℕ
  /-- `A` holds the reads (queries and teardown), `B` the writes (setup and queries). -/
  perm : PermLists (SetRecord elemSz (ramzkBitsFor T))

namespace ZKSet

variable {T elemSz : ℕ}

/-- The constructor: version 0 of every element of the range is written. -/
def setup (T elemSz : ℕ) : ZKSet T elemSz where
  ver := List.replicate (T + 1) 0
  perm := (List.range' 1 T).foldl (fun p e => p.emit false ⟨BitVec.ofNat _ e, 0⟩) {}

/-- `prove_member`: read version `verOld` of the queried value and write the next one. -/
def proveMember (s : ZKSet T elemSz) (v : BitVec elemSz) (verOld : BitVec (ramzkBitsFor T)) :
    ZKSet T elemSz where
  ver := if v.toNat ≤ T then s.ver.set v.toNat (s.ver.getD v.toNat 0 + 1) else s.ver
  perm := (s.perm.emit true ⟨v, verOld⟩).emit false ⟨v, verOld + BitVec.ofNat _ 1⟩

/-- `check`: every element is read at the version the prover commits. -/
def check (s : ZKSet T elemSz) (vers : ℕ → BitVec (ramzkBitsFor T)) : ZKSet T elemSz :=
  { s with
    perm := (List.range' 1 T).foldl (fun p e => p.emit true ⟨BitVec.ofNat _ e, vers e⟩) s.perm }

/-- The values queried so far, in order. -/
def queries (s : ZKSet T elemSz) : List (BitVec elemSz) := s.perm.listA.map SetRecord.element

@[simp] theorem queries_setup : (setup T elemSz).queries = [] := by
  simp only [queries, setup, PermLists.foldl_emit_false, List.map_nil]

@[simp] theorem queries_proveMember (s : ZKSet T elemSz) (v : BitVec elemSz)
    (verOld : BitVec (ramzkBitsFor T)) :
    (s.proveMember v verOld).queries = s.queries ++ [v] := by
  simp [queries, proveMember]

end ZKSet

/-! ## `ZKRam` -/

/-- The width of a timestamp, `time_sz`. -/
abbrev timeSz (T : ℕ) : ℕ := ramzkBitsFor T

/-- A record of shuffle 1: a value, the cell it belongs to and the time it was written. -/
structure RamRecord (indexSz valSz T : ℕ) where
  /-- The value. -/
  value : BitVec valSz
  /-- The cell. -/
  index : BitVec indexSz
  /-- The time of the write. -/
  time : BitVec (timeSz T)
  deriving DecidableEq

/-- `ZKRam`: the public parameters and counters, the prover's local table, and the lists of the
two shuffles.  `diffs` is `none` for a read-only memory, which has no second shuffle. -/
structure ZKRam (indexSz valSz T : ℕ) where
  /-- Whether this is a `ZKROM`. -/
  readOnly : Bool
  /-- The number of cells. -/
  n : ℕ := 0
  /-- The public clock; setup writes are at time 0. -/
  clock : ℕ := 1
  /-- ALICE: the current value of each cell. -/
  mem : List (BitVec 64) := []
  /-- ALICE: the time each cell was last written. -/
  lastT : List ℕ := []
  /-- Shuffle 1: reads against writes. -/
  perm : PermLists (RamRecord indexSz valSz T) := {}
  /-- Shuffle 2: `clock - t` lies in `{1, …, T}`. -/
  diffs : Option (ZKSet T (timeSz T))

/-- What the prover commits during one access: the old value, the old time, and the old version
for the membership query. -/
structure Commit (valSz T : ℕ) where
  /-- The value committed as the old contents. -/
  old : BitVec valSz
  /-- The time committed for the last write. -/
  timeOld : BitVec (timeSz T)
  /-- The version committed to the membership proof of `clock - timeOld`. -/
  verOld : BitVec (ramzkBitsFor T)

/-- An access: a load, or a store of a committed value. -/
inductive Op (indexSz valSz : ℕ) where
  /-- `read(index)`. -/
  | read (index : BitVec indexSz)
  /-- `write(index, value)`. -/
  | write (index : BitVec indexSz) (value : BitVec valSz)

/-- The index an access names. -/
def Op.index {indexSz valSz : ℕ} : Op indexSz valSz → BitVec indexSz
  | .read i => i
  | .write i _ => i

/-- The contents an access leaves behind: a load rewrites the old value. -/
def Op.newv {indexSz valSz : ℕ} (old : BitVec valSz) : Op indexSz valSz → BitVec valSz
  | .read _ => old
  | .write _ v => v

namespace ZKRam

variable {indexSz valSz T : ℕ}

/-- The constructor. -/
def setup (indexSz valSz T : ℕ) (readOnly : Bool) : ZKRam indexSz valSz T where
  readOnly := readOnly
  diffs := if readOnly then none else some (ZKSet.setup T (timeSz T))

/-- `init`: commit the initial contents and write one record per cell at time 0. -/
def init (r : ZKRam indexSz valSz T) (content : List (BitVec valSz)) : ZKRam indexSz valSz T :=
  { r with
    n := content.length
    mem := content.map (BitVec.setWidth 64)
    lastT := List.replicate content.length 0
    perm := (List.range content.length).foldl
      (fun p i => p.emit false ⟨content.getD i 0, BitVec.ofNat _ i, 0⟩) r.perm }

/-- `access_`: one access at the current clock.  The old value is what the prover commits, and it
is what a load returns. -/
def access (r : ZKRam indexSz valSz T) (index : BitVec indexSz) (value : BitVec valSz)
    (isWrite : Bool) (c : Commit valSz T) : ZKRam indexSz valSz T × BitVec valSz :=
  let ci := index.toNat
  let inRange := ci < r.n
  let diff := BitVec.ofNat (timeSz T) r.clock - c.timeOld
  let newv := if isWrite then value else c.old
  -- the prover's own table follows what it knows of the cell, not what it committed
  let nv := if isWrite then value.setWidth 64 else r.mem.getD ci 0
  ({ r with
      clock := r.clock + 1
      mem := if inRange then r.mem.set ci nv else r.mem
      lastT := if inRange then r.lastT.set ci r.clock else r.lastT
      perm := (r.perm.emit true ⟨c.old, index, c.timeOld⟩).emit false
        ⟨newv, index, BitVec.ofNat _ r.clock⟩
      diffs := r.diffs.map fun s => s.proveMember diff c.verOld }, c.old)

/-- `read` and `write`; `write` is an error on a read-only memory.  A load passes its index as a
placeholder for the value. -/
def step (r : ZKRam indexSz valSz T) (o : Op indexSz valSz) (c : Commit valSz T) :
    Option (ZKRam indexSz valSz T × BitVec valSz) :=
  match o with
  | .read index => some (r.access index (index.setWidth valSz) false c)
  | .write index value => if r.readOnly then none else some (r.access index value true c)

/-- A list of accesses, each with what the prover commits for it; the values returned, in
order. -/
def run (r : ZKRam indexSz valSz T) :
    List (Op indexSz valSz × Commit valSz T) → Option (ZKRam indexSz valSz T × List (BitVec valSz))
  | [] => some (r, [])
  | a :: as => (r.step a.1 a.2).bind fun p => (p.1.run as).map fun q => (q.1, p.2 :: q.2)

/-- `check`: every cell is read at the value and time the prover commits, and so is every element
of the membership set. -/
def check (r : ZKRam indexSz valSz T) (cell : ℕ → BitVec valSz × BitVec (timeSz T))
    (vers : ℕ → BitVec (ramzkBitsFor T)) : ZKRam indexSz valSz T :=
  { r with
    perm := (List.range r.n).foldl
      (fun p i => p.emit true ⟨(cell i).1, BitVec.ofNat _ i, (cell i).2⟩) r.perm
    diffs := r.diffs.map fun s => s.check vers }

/-- Shuffle 2 as it stands before the teardown: every difference queried is in `{1, …, T}`. -/
def DiffsInRange (r : ZKRam indexSz valSz T) : Prop :=
  ∀ s, r.diffs = some s → ∀ d ∈ s.queries, 1 ≤ d.toNat ∧ d.toNat ≤ T

/-! ### What a run leaves behind -/

/-- The record an access reads. -/
def readRec (a : Op indexSz valSz × Commit valSz T) : RamRecord indexSz valSz T :=
  ⟨a.2.old, a.1.index, a.2.timeOld⟩

/-- The record an access at clock `t` writes. -/
def writeRec (t : ℕ) (a : Op indexSz valSz × Commit valSz T) : RamRecord indexSz valSz T :=
  ⟨a.1.newv a.2.old, a.1.index, BitVec.ofNat _ t⟩

/-- The records a list of accesses writes when the clock starts at `t`. -/
def writeRecs : ℕ → List (Op indexSz valSz × Commit valSz T) → List (RamRecord indexSz valSz T)
  | _, [] => []
  | t, a :: as => writeRec t a :: writeRecs (t + 1) as

/-- The differences a list of accesses queries when the clock starts at `t`. -/
def diffList : ℕ → List (Op indexSz valSz × Commit valSz T) → List (BitVec (timeSz T))
  | _, [] => []
  | t, a :: as => (BitVec.ofNat (timeSz T) t - a.2.timeOld) :: diffList (t + 1) as

/-- One access that is allowed: the clock, the lists and the queries it leaves. -/
theorem step_eq_some {r r' : ZKRam indexSz valSz T} {o : Op indexSz valSz} {c : Commit valSz T}
    {out : BitVec valSz} (h : r.step o c = some (r', out)) :
    out = c.old ∧ r'.n = r.n ∧ r'.clock = r.clock + 1 ∧
      r'.perm.listA = r.perm.listA ++ [readRec (o, c)] ∧
      r'.perm.listB = r.perm.listB ++ [writeRec r.clock (o, c)] ∧
      r'.diffs = r.diffs.map fun s => s.proveMember
        (BitVec.ofNat (timeSz T) r.clock - c.timeOld) c.verOld := by
  cases o with
  | read i =>
    simp only [step, Option.some.injEq] at h
    rw [Prod.mk.injEq] at h
    obtain ⟨rfl, rfl⟩ := h
    exact ⟨rfl, rfl, rfl, rfl, rfl, rfl⟩
  | write i v =>
    simp only [step] at h
    split at h
    · exact absurd h (by simp)
    · rw [Option.some.injEq, Prod.mk.injEq] at h
      obtain ⟨rfl, rfl⟩ := h
      exact ⟨rfl, rfl, rfl, rfl, rfl, rfl⟩

/-- **What a run leaves behind**: the values returned are the committed ones, and the lists have
grown by one record per access. -/
theorem run_eq_some {as : List (Op indexSz valSz × Commit valSz T)} :
    ∀ {r r' : ZKRam indexSz valSz T} {outs : List (BitVec valSz)}, r.run as = some (r', outs) →
      outs = as.map (fun a => a.2.old) ∧ r'.n = r.n ∧
        r'.perm.listA = r.perm.listA ++ as.map readRec ∧
        r'.perm.listB = r.perm.listB ++ writeRecs r.clock as ∧
        r'.diffs.map ZKSet.queries
          = r.diffs.map fun s => s.queries ++ diffList r.clock as := by
  induction as with
  | nil =>
    intro r r' outs h
    simp only [run, Option.some.injEq, Prod.mk.injEq] at h
    obtain ⟨rfl, rfl⟩ := h
    simp [writeRecs, diffList]
  | cons a as ih =>
    intro r r' outs h
    rw [run, Option.bind_eq_some_iff] at h
    obtain ⟨⟨r₁, out⟩, hstep, hmap⟩ := h
    obtain ⟨⟨r₂, outs₂⟩, hrun, heq⟩ := Option.map_eq_some_iff.mp hmap
    rw [Prod.mk.injEq] at heq
    obtain ⟨rfl, rfl⟩ := heq
    obtain ⟨rfl, hn, hclock, hA, hB, hd⟩ := step_eq_some hstep
    obtain ⟨rfl, hn', hA', hB', hd'⟩ := ih hrun
    refine ⟨rfl, hn'.trans hn, ?_, ?_, ?_⟩
    · rw [hA', hA, List.map_cons, List.append_assoc, List.singleton_append]
    · rw [hB', hB, hclock, writeRecs, List.append_assoc, List.singleton_append]
    · rw [hd', hd, hclock, Option.map_map]
      congr 1
      funext s
      simp [diffList]

theorem check_listA (r : ZKRam indexSz valSz T) (cell : ℕ → BitVec valSz × BitVec (timeSz T))
    (vers : ℕ → BitVec (ramzkBitsFor T)) :
    (r.check cell vers).perm.listA = r.perm.listA ++
      (List.range r.n).map fun i => ⟨(cell i).1, BitVec.ofNat _ i, (cell i).2⟩ := by
  simp only [check, PermLists.foldl_emit_true]

theorem check_listB (r : ZKRam indexSz valSz T) (cell : ℕ → BitVec valSz × BitVec (timeSz T))
    (vers : ℕ → BitVec (ramzkBitsFor T)) : (r.check cell vers).perm.listB = r.perm.listB := by
  simp only [check, PermLists.foldl_emit_true]

theorem init_listA (readOnly : Bool) (content : List (BitVec valSz)) :
    ((setup indexSz valSz T readOnly).init content).perm.listA = [] := by
  simp only [init, setup, PermLists.foldl_emit_false]

theorem init_listB (readOnly : Bool) (content : List (BitVec valSz)) :
    ((setup indexSz valSz T readOnly).init content).perm.listB
      = (List.range content.length).map fun i => ⟨content.getD i 0, BitVec.ofNat _ i, 0⟩ := by
  simp only [init, setup, PermLists.foldl_emit_false, List.nil_append]

/-- A read/write memory refuses no access, and no memory refuses a load. -/
theorem exists_run {r : ZKRam indexSz valSz T} {as : List (Op indexSz valSz × Commit valSz T)}
    (h : r.readOnly = false ∨ ∀ a ∈ as, ∃ i, a.1 = .read i) :
    ∃ r' outs, r.run as = some (r', outs) := by
  induction as generalizing r with
  | nil => exact ⟨r, [], rfl⟩
  | cons a as ih =>
    obtain ⟨o, c⟩ := a
    obtain ⟨r₁, out, hstep, hr₁⟩ : ∃ r₁ out, r.step o c = some (r₁, out) ∧
        r₁.readOnly = r.readOnly := by
      cases o with
      | read i => exact ⟨_, _, rfl, rfl⟩
      | write i v =>
        have hr : r.readOnly = false := h.resolve_right fun hall => by
          obtain ⟨j, hj⟩ := hall (.write i v, c) (by simp)
          exact absurd hj (by simp)
        exact ⟨(r.access i v true c).1, _, by rw [step, if_neg (by simp [hr])], rfl⟩
    obtain ⟨r', outs, hrun⟩ := ih (r := r₁)
      (h.imp (fun hr => hr₁.trans hr) fun hall b hb => hall b (List.mem_cons_of_mem _ hb))
    exact ⟨r', out :: outs, by simp only [run, hstep, Option.bind_some, hrun, Option.map_some]⟩

end ZKRam

end VoleZk
