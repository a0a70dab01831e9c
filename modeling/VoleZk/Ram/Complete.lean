import VoleZk.Ram.Pack
import VoleZk.Ram.ReadWrite

/-!
# Completeness of the memory

Soundness quantifies over what the prover commits; here it commits what the source has it commit.
Two tables drive it: `last_t`, the time each cell was last written, and `ver`, how often each
difference was queried.  Each is what is missing from the lists: at any point the writes are the
reads and the records of the two tables, one per cell and one per difference.

## What is here

* `ZKRam.honestCommit`, `ZKRam.honestRun`, `ZKRam.honestCheck` — the prover of the source;
* `ZKSet.Honest`, `ZKRam.Honest` — the state after any number of accesses;
* `ZKRam.Honest.step`, `ZKRam.Honest.run` — **every access finds the latest value and queries a
  difference in the range**;
* `ZKRam.complete` — **completeness**.
-/

set_option autoImplicit false

namespace VoleZk

open OfflineMemory Ram

/-! ## The prover -/

namespace ZKSet

variable {T elemSz : ℕ}

/-- The version the prover commits in `prove_member`. -/
def honestVersion (s : ZKSet T elemSz) (v : BitVec elemSz) : BitVec (ramzkBitsFor T) :=
  BitVec.ofNat _ (if v.toNat ≤ T then s.ver.getD v.toNat 0 else 0)

/-- `check`, with the versions of the table. -/
def honestCheck (s : ZKSet T elemSz) : ZKSet T elemSz :=
  s.check fun e => BitVec.ofNat _ (s.ver.getD e 0)

end ZKSet

namespace ZKRam

variable {indexSz valSz T : ℕ}

/-- What the prover commits in `access_`: what its tables hold for the cell, zeros out of range. -/
def honestCommit (r : ZKRam indexSz valSz T) (index : BitVec indexSz) : Commit valSz T :=
  let ci := index.toNat
  let vOld := if ci < r.n then r.mem.getD ci 0 else 0
  let tOld := if ci < r.n then r.lastT.getD ci 0 else 0
  let timeOld := BitVec.ofNat (timeSz T) tOld
  let diff := BitVec.ofNat (timeSz T) r.clock - timeOld
  ⟨vOld.setWidth valSz, timeOld, (r.diffs.map fun s => s.honestVersion diff).getD 0⟩

/-- A list of accesses, by the prover of the source. -/
def honestRun (r : ZKRam indexSz valSz T) :
    List (Op indexSz valSz) → Option (ZKRam indexSz valSz T × List (BitVec valSz))
  | [] => some (r, [])
  | o :: os => (r.step o (r.honestCommit o.index)).bind fun p =>
    (p.1.honestRun os).map fun q => (q.1, p.2 :: q.2)

/-- `check`, with the values, times and versions of the tables. -/
def honestCheck (r : ZKRam indexSz valSz T) : ZKRam indexSz valSz T :=
  r.check (fun i => ((r.mem.getD i 0).setWidth valSz, BitVec.ofNat _ (r.lastT.getD i 0)))
    fun e => (r.diffs.map fun s => BitVec.ofNat _ (s.ver.getD e 0)).getD 0

end ZKRam

/-! ## The set -/

/-- A table after one of its rows changed. -/
theorem getD_set_of_lt {α : Type*} {l : List α} {i : ℕ} (hi : i < l.length) (v d : α) (j : ℕ) :
    (l.set i v).getD j d = if j = i then v else l.getD j d := by
  rw [List.getD_eq_getElem?_getD, List.getElem?_set]
  by_cases hj : j = i
  · simp [hj, hi]
  · rw [if_neg hj, if_neg (Ne.symm hj), List.getD_eq_getElem?_getD]

namespace ZKSet

variable {T elemSz : ℕ} {s : ZKSet T elemSz}

/-- The record of an element, at the version of the table. -/
def current (s : ZKSet T elemSz) (e : ℕ) : SetRecord elemSz (ramzkBitsFor T) :=
  ⟨BitVec.ofNat _ e, BitVec.ofNat _ (s.ver.getD e 0)⟩

/-- The set between two queries of an honest prover. -/
structure Honest (s : ZKSet T elemSz) : Prop where
  /-- The table has a row for each element. -/
  length_ver : s.ver.length = T + 1
  /-- What is missing from the reads is the table. -/
  balance : s.perm.listB.Perm (s.perm.listA ++ (List.range' 1 T).map s.current)

theorem honest_setup (T elemSz : ℕ) : (setup T elemSz).Honest where
  length_ver := List.length_replicate ..
  balance := by
    have hver : ∀ e, (setup T elemSz).current e = ⟨BitVec.ofNat _ e, 0⟩ := fun e => by
      simp only [current, setup, List.getD_eq_getElem?_getD, List.getElem?_replicate]
      split <;> rfl
    rw [List.map_congr_left fun e _ => hver e]
    simp only [setup, PermLists.foldl_emit_false, List.nil_append]
    exact .rfl

/-- **A query** of a value in the range. -/
theorem Honest.proveMember (h : s.Honest) {v : BitVec elemSz} (hv : 1 ≤ v.toNat ∧ v.toNat ≤ T) :
    (s.proveMember v (s.honestVersion v)).Honest where
  length_ver := by
    rw [ZKSet.proveMember, if_pos hv.2]
    simpa using h.length_ver
  balance := by
    set s' := s.proveMember v (s.honestVersion v) with hs'
    have hold : (⟨v, s.honestVersion v⟩ : SetRecord elemSz (ramzkBitsFor T))
        = s.current v.toNat := by
      rw [honestVersion, if_pos hv.2, current, BitVec.ofNat_toNat, BitVec.setWidth_eq]
    have hver : ∀ e, s'.ver.getD e 0
        = if e = v.toNat then s.ver.getD v.toNat 0 + 1 else s.ver.getD e 0 := fun e => by
      have hlt : v.toNat < s.ver.length := h.length_ver ▸ Nat.lt_succ_of_le hv.2
      rw [hs', ZKSet.proveMember, if_pos hv.2, getD_set_of_lt hlt]
    have hnew : (⟨v, s.honestVersion v + BitVec.ofNat _ 1⟩ : SetRecord elemSz (ramzkBitsFor T))
        = s'.current v.toNat := by
      rw [honestVersion, if_pos hv.2, current, hver, if_pos rfl, BitVec.ofNat_add,
        BitVec.ofNat_toNat, BitVec.setWidth_eq]
    have hrest : ∀ e, e ≠ v.toNat → s'.current e = s.current e := fun e he => by
      rw [current, current, hver, if_neg he]
    have hrange : v.toNat ∈ List.range' 1 T := List.mem_range'_1.mpr ⟨hv.1, by omega⟩
    have hswap := perm_exchange List.nodup_range' hrange hrest h.balance
    rwa [← hold, ← hnew] at hswap

/-- **The teardown** reads what is missing. -/
theorem Honest.check (h : s.Honest) : s.honestCheck.perm.checkEq := by
  simp only [honestCheck, ZKSet.check, PermLists.checkEq, PermLists.foldl_emit_true]
  exact h.balance.symm

end ZKSet

/-! ## The memory -/

/-- A value that fits in the 64 bits of a row survives the table. -/
theorem setWidth_setWidth_of_lt {w : ℕ} {v : BitVec w} (hv : v.toNat < 2 ^ 64) :
    (v.setWidth 64).setWidth w = v := by
  refine BitVec.eq_of_toNat_eq ?_
  rw [BitVec.toNat_setWidth, BitVec.toNat_setWidth, Nat.mod_eq_of_lt hv, Nat.mod_eq_of_lt v.isLt]

/-- A latest value is an initial one or one that was written. -/
theorem latest_induction {indexSz valSz : ℕ} {P : BitVec valSz → Prop} (h0 : P 0)
    {x : List (BitVec valSz)} (hx : ∀ v ∈ x, P v) {os : List (Op indexSz valSz)}
    (hos : ∀ i v, Op.write i v ∈ os → P v) (i : ℕ) : P (latest x os i) := by
  induction os using List.reverseRecOn generalizing i with
  | nil =>
    rw [latest_nil, List.getD_eq_getElem?_getD]
    cases hi : x[i]? with
    | none => exact h0
    | some v => exact hx v (List.mem_of_getElem? hi)
  | append_singleton os o ih =>
    have hprev := ih fun i v hv => hos i v (List.mem_append_left _ hv)
    rw [latest_concat_eq]
    split
    · cases o with
      | read j => exact hprev _
      | write j v => exact hos j v (by simp)
    · exact hprev i

namespace ZKRam

variable {indexSz valSz T : ℕ} {x : List (BitVec valSz)} {done : List (Op indexSz valSz)}
  {r : ZKRam indexSz valSz T}

/-- The record of a cell, with its latest value and at the time of the table. -/
def current (x : List (BitVec valSz)) (done : List (Op indexSz valSz)) (r : ZKRam indexSz valSz T)
    (i : ℕ) : RamRecord indexSz valSz T :=
  ⟨latest x done i, BitVec.ofNat _ i, BitVec.ofNat _ (r.lastT.getD i 0)⟩

/-- The memory between two accesses of an honest prover, the accesses `done` being behind it. -/
structure Honest (x : List (BitVec valSz)) (done : List (Op indexSz valSz))
    (r : ZKRam indexSz valSz T) : Prop where
  /-- The number of cells. -/
  n_eq : r.n = x.length
  /-- The clock. -/
  clock_eq : r.clock = done.length + 1
  /-- The table of values has a row for each cell. -/
  length_mem : r.mem.length = x.length
  /-- The table of times has, too. -/
  length_lastT : r.lastT.length = x.length
  /-- The table of values holds the latest ones. -/
  mem_eq : ∀ i < x.length, r.mem.getD i 0 = (latest x done i).setWidth 64
  /-- All times are in the past. -/
  lastT_lt : ∀ i, r.lastT.getD i 0 < r.clock
  /-- What is missing from the reads is the tables. -/
  balance : r.perm.listB.Perm (r.perm.listA ++ (List.range x.length).map (current x done r))
  /-- Shuffle 2 is there unless the memory is read-only. -/
  diffs_isSome : r.diffs.isSome = !r.readOnly
  /-- Shuffle 2. -/
  set : ∀ s, r.diffs = some s → s.Honest
  /-- The differences queried. -/
  inRange : r.DiffsInRange

theorem init_lastT_getD (readOnly : Bool) (x : List (BitVec valSz)) (i : ℕ) :
    ((setup indexSz valSz T readOnly).init x).lastT.getD i 0 = 0 := by
  simp only [init, List.getD_eq_getElem?_getD, List.getElem?_replicate]
  split <;> rfl

theorem honest_init (readOnly : Bool) (x : List (BitVec valSz)) :
    ((setup indexSz valSz T readOnly).init x).Honest x [] where
  n_eq := rfl
  clock_eq := rfl
  length_mem := List.length_map ..
  length_lastT := List.length_replicate ..
  mem_eq i hi := by
    rw [latest_nil, List.getD_eq_getElem _ _ hi]
    simp [init, List.getD_eq_getElem?_getD, hi]
  lastT_lt i := by
    rw [init_lastT_getD]
    exact Nat.one_pos
  balance := by
    rw [init_listA, init_listB, List.nil_append]
    refine .of_eq (List.map_congr_left fun i hi => ?_)
    rw [current, init_lastT_getD]
    rfl
  diffs_isSome := by cases readOnly <;> rfl
  set s hs := by
    cases readOnly with
    | true => exact absurd hs (by simp [init, setup])
    | false => exact Option.some_inj.mp hs ▸ ZKSet.honest_setup T _
  inRange s hs := by
    cases readOnly with
    | true => exact absurd hs (by simp [init, setup])
    | false =>
      obtain rfl := Option.some_inj.mp hs
      simp

/-- What the prover commits for a cell in range. -/
theorem Honest.commit (h : r.Honest x done) {index : BitVec indexSz}
    (hidx : index.toNat < x.length) (hfit : (latest x done index.toNat).toNat < 2 ^ 64) :
    (r.honestCommit index).old = latest x done index.toNat ∧
      (r.honestCommit index).timeOld = BitVec.ofNat _ (r.lastT.getD index.toNat 0) := by
  have hci : index.toNat < r.n := h.n_eq ▸ hidx
  simp only [honestCommit, if_pos hci, h.mem_eq _ hidx]
  exact ⟨setWidth_setWidth_of_lt hfit, trivial⟩

theorem honestCommit_verOld {s : ZKSet T (timeSz T)} (hs : r.diffs = some s)
    (index : BitVec indexSz) : (r.honestCommit index).verOld
      = s.honestVersion (BitVec.ofNat _ r.clock - (r.honestCommit index).timeOld) := by
  simp only [honestCommit, hs, Option.map_some, Option.getD_some]

/-- The difference it queries is in the range. -/
theorem Honest.diff (h : r.Honest x done) (hT : done.length < T) (i : ℕ) :
    let diff := BitVec.ofNat (timeSz T) r.clock - BitVec.ofNat (timeSz T) (r.lastT.getD i 0)
    1 ≤ diff.toNat ∧ diff.toNat ≤ T := by
  have hlast := h.lastT_lt i
  have hclock := h.clock_eq
  have hwidth : T < 2 ^ timeSz T := lt_two_pow_ramzkBitsFor T
  intro diff
  have hdiff : diff.toNat = r.clock - r.lastT.getD i 0 :=
    toNat_ofNat_sub hlast.le ((by omega : r.clock ≤ T).trans_lt hwidth)
  omega

/-- **One access.** -/
theorem Honest.access (h : r.Honest x done) {o : Op indexSz valSz}
    (hidx : o.index.toNat < x.length) (hT : done.length < T)
    (hfit : (latest x done o.index.toNat).toNat < 2 ^ 64) {value : BitVec valSz} {isWrite : Bool}
    (hnewv : ∀ old, o.newv old = if isWrite then value else old) :
    (r.access o.index value isWrite (r.honestCommit o.index)).1.Honest x (done ++ [o]) := by
  obtain ⟨hold, htime⟩ := h.commit hidx hfit
  have hci : o.index.toNat < r.n := h.n_eq ▸ hidx
  have hlat := latest_concat_eq x done o
  rw [hnewv] at hlat
  set r' := (r.access o.index value isWrite (r.honestCommit o.index)).1 with hr'
  have hlastT : ∀ i, r'.lastT.getD i 0
      = if i = o.index.toNat then r.clock else r.lastT.getD i 0 := fun i => by
    have hlt : o.index.toNat < r.lastT.length := h.length_lastT ▸ hidx
    rw [hr', ZKRam.access]
    simp only [if_pos hci, getD_set_of_lt hlt]
  -- what it does to shuffle 2
  have hdiffs : ∀ s', r'.diffs = some s' → ∃ s, r.diffs = some s ∧ s' = s.proveMember
      (BitVec.ofNat _ r.clock - BitVec.ofNat _ (r.lastT.getD o.index.toNat 0))
      (s.honestVersion (BitVec.ofNat _ r.clock
        - BitVec.ofNat _ (r.lastT.getD o.index.toNat 0))) := fun s' hs' => by
    obtain ⟨s, hs, rfl⟩ := Option.map_eq_some_iff.mp hs'
    refine ⟨s, hs, ?_⟩
    rw [honestCommit_verOld hs, htime]
  refine ⟨h.n_eq, ?_, ?_, ?_, fun i hi => ?_, fun i => ?_, ?_, ?_, fun s hs => ?_, fun s hs => ?_⟩
  · rw [hr', ZKRam.access, h.clock_eq, List.length_append, List.length_singleton]
  · rw [hr', ZKRam.access]
    simpa [hci] using h.length_mem
  · rw [hr', ZKRam.access]
    simpa [hci] using h.length_lastT
  · have hlt : o.index.toNat < r.mem.length := h.length_mem ▸ hidx
    rw [hr', ZKRam.access, hlat]
    simp only [if_pos hci, getD_set_of_lt hlt]
    by_cases hio : i = o.index.toNat
    · rw [if_pos hio, if_pos hio]
      cases isWrite with
      | true => rfl
      | false => exact h.mem_eq _ hidx
    · rw [if_neg hio, if_neg hio, h.mem_eq i hi]
  · rw [hlastT]
    split
    · exact Nat.lt_succ_self _
    · exact Nat.lt_succ_of_lt (h.lastT_lt i)
  · have hread : (⟨(r.honestCommit o.index).old, o.index, (r.honestCommit o.index).timeOld⟩ :
        RamRecord indexSz valSz T) = current x done r o.index.toNat := by
      rw [hold, htime, current, BitVec.ofNat_toNat, BitVec.setWidth_eq]
    have hwrite : (⟨if isWrite then value else (r.honestCommit o.index).old, o.index,
        BitVec.ofNat _ r.clock⟩ : RamRecord indexSz valSz T)
        = current x (done ++ [o]) r' o.index.toNat := by
      rw [hold, current, hlat, if_pos rfl, hlastT, if_pos rfl, BitVec.ofNat_toNat,
        BitVec.setWidth_eq]
    have hrest : ∀ i, i ≠ o.index.toNat → current x (done ++ [o]) r' i = current x done r i :=
      fun i hi => by rw [current, current, hlat, if_neg hi, hlastT, if_neg hi]
    have hswap := perm_exchange List.nodup_range (List.mem_range.mpr hidx) hrest h.balance
    rwa [← hread, ← hwrite] at hswap
  · rw [hr', ZKRam.access, Option.isSome_map]
    exact h.diffs_isSome
  · obtain ⟨s₀, hs₀, rfl⟩ := hdiffs s hs
    exact (h.set s₀ hs₀).proveMember (h.diff hT _)
  · obtain ⟨s₀, hs₀, rfl⟩ := hdiffs s hs
    intro d hd
    rw [ZKSet.queries_proveMember, List.mem_append, List.mem_singleton] at hd
    rcases hd with hd | rfl
    · exact h.inRange s₀ hs₀ d hd
    · exact h.diff hT _

/-- **A read or a write** succeeds and returns the latest value. -/
theorem Honest.step (h : r.Honest x done) {o : Op indexSz valSz} (hidx : o.index.toNat < x.length)
    (hT : done.length < T) (hfit : (latest x done o.index.toNat).toNat < 2 ^ 64)
    (hro : r.readOnly = true → ∃ i, o = .read i) :
    ∃ r', r.step o (r.honestCommit o.index) = some (r', latest x done o.index.toNat) ∧
      r'.Honest x (done ++ [o]) ∧ r'.readOnly = r.readOnly := by
  have hold := (h.commit hidx hfit).1
  cases o with
  | read i =>
    refine ⟨_, congrArg some (Prod.ext rfl hold), ?_, rfl⟩
    exact h.access (o := .read i) hidx hT hfit fun _ => rfl
  | write i v =>
    have hrw : r.readOnly = false := by
      rw [← Bool.not_eq_true]
      intro hr
      obtain ⟨j, hj⟩ := hro hr
      exact absurd hj (by simp)
    refine ⟨(r.access i v true (r.honestCommit i)).1, ?_, ?_, rfl⟩
    · rw [ZKRam.step, if_neg (by simp [hrw])]
      exact congrArg some (Prod.ext rfl hold)
    · exact h.access (o := .write i v) hidx hT hfit fun _ => rfl

/-- **Any number of accesses**, up to `T`. -/
theorem Honest.run (hx : ∀ v ∈ x, v.toNat < 2 ^ 64) :
    ∀ {os : List (Op indexSz valSz)} {done : List (Op indexSz valSz)} {r : ZKRam indexSz valSz T},
      r.Honest x done → done.length + os.length ≤ T → (∀ o ∈ os, o.index.toNat < x.length) →
      (∀ i v, Op.write i v ∈ done ++ os → v.toNat < 2 ^ 64) →
      (r.readOnly = true → ∀ o ∈ os, ∃ i, o = .read i) →
      ∃ r' outs, r.honestRun os = some (r', outs) ∧ r'.Honest x (done ++ os) ∧
        r'.readOnly = r.readOnly ∧ ∀ k (hk : k < os.length),
          outs[k]? = some (latest x (done ++ os.take k) os[k].index.toNat)
  | [], done, r, h, _, _, _, _ =>
    ⟨r, [], rfl, by rwa [List.append_nil], rfl, fun k hk => absurd hk (Nat.not_lt_zero k)⟩
  | o :: os, done, r, h, hT, hidx, hfit, hro => by
    rw [List.length_cons] at hT
    have hlatest : (latest x done o.index.toNat).toNat < 2 ^ 64 := by
      refine latest_induction (P := fun v => v.toNat < 2 ^ 64) (by simp) hx (fun i v hv => ?_) _
      exact hfit i v (List.mem_append_left _ hv)
    obtain ⟨r₁, hstep, h₁, hro₁⟩ := h.step (hidx o List.mem_cons_self) (by omega) hlatest
      fun hr => hro hr o List.mem_cons_self
    have hsplit : done ++ [o] ++ os = done ++ o :: os := by rw [List.append_assoc]; rfl
    obtain ⟨r', outs, hrun, h', hro', houts⟩ := Honest.run hx h₁
      (by rw [List.length_append, List.length_singleton]; omega)
      (fun o' ho' => hidx o' (List.mem_cons_of_mem _ ho')) (by rwa [hsplit])
      fun hr o' ho' => hro (hro₁ ▸ hr) o' (List.mem_cons_of_mem _ ho')
    refine ⟨r', latest x done o.index.toNat :: outs, ?_, hsplit ▸ h', hro'.trans hro₁, ?_⟩
    · rw [honestRun, hstep, Option.bind_some, hrun, Option.map_some]
    · rintro (_ | k) hk
      · simp
      · have hout := houts k (Nat.lt_of_succ_lt_succ hk)
        simpa [List.append_assoc] using hout

/-- The teardown reads what is missing. -/
theorem Honest.check_perm (h : r.Honest x done) (hfit : ∀ i, (latest x done i).toNat < 2 ^ 64) :
    r.honestCheck.perm.checkEq := by
  have hcell : (List.range r.n).map (fun i => (⟨(r.mem.getD i 0).setWidth valSz, BitVec.ofNat _ i,
      BitVec.ofNat _ (r.lastT.getD i 0)⟩ : RamRecord indexSz valSz T))
      = (List.range x.length).map (current x done r) := by
    rw [h.n_eq]
    refine List.map_congr_left fun i hi => ?_
    rw [h.mem_eq i (List.mem_range.mp hi), setWidth_setWidth_of_lt (hfit i), current]
  rw [PermLists.checkEq, honestCheck, check_listA, check_listB, hcell]
  exact h.balance.symm

/-- The teardown of shuffle 2 does, too. -/
theorem Honest.check_diffs (h : r.Honest x done) {s : ZKSet T (timeSz T)}
    (hs : r.honestCheck.diffs = some s) : s.perm.checkEq := by
  obtain ⟨s₀, hs₀, rfl⟩ := Option.map_eq_some_iff.mp hs
  have hcheck := (h.set s₀ hs₀).check
  rw [ZKSet.honestCheck] at hcheck
  simpa only [hs₀, Option.map_some, Option.getD_some] using hcheck

/-- **Completeness.**  With the prover of the source, any list of at most `T` accesses to cells of
the memory runs; every read returns the latest value; every difference queried is in the range; and
both shuffles hold, so that the permutation proofs accept the wires of their records, however these
are cut up.  Packing tells records apart and keeps the MAC relation on every wire. -/
theorem memory_complete {C : F2kConfig} {R : Type*} [CommRing R] [IsDomain R] {φ : Block → R}
    (hG : C.bool.G.Lawful φ) (hC : C.Valid) (readOnly : Bool) {x : List (BitVec valSz)}
    (hx : ∀ v ∈ x, v.toNat < 2 ^ 64) {os : List (Op indexSz valSz)} (hT : os.length ≤ T)
    (hidx : ∀ o ∈ os, o.index.toNat < x.length)
    (hos : ∀ i v, Op.write i v ∈ os → v.toNat < 2 ^ 64)
    (hro : readOnly = true → ∀ o ∈ os, ∃ i, o = .read i) :
    (∃ r outs, ((setup indexSz valSz T readOnly).init x).honestRun os = some (r, outs) ∧
      Sound x os outs ∧ r.DiffsInRange ∧ r.honestCheck.diffs.isSome = !readOnly ∧
      r.honestCheck.perm.checkEq ∧ (∀ s, r.honestCheck.diffs = some s → s.perm.checkEq) ∧
      (∀ em, Emitted C.bool RamRecord.bits r.honestCheck.perm em →
        PermAccepts C (indexSz + valSz + timeSz T) em) ∧
      ∀ s, r.honestCheck.diffs = some s → ∀ em, Emitted C.bool SetRecord.bits s.perm em →
        PermAccepts C (timeSz T + ramzkBitsFor T) em) ∧
    (∀ rec rec' : RamRecord indexSz valSz T,
      recordVals rec.bits = recordVals rec'.bits → rec = rec') ∧
    ∀ (rec : RamRecord indexSz valSz T) (wires : List BitLabel),
      List.Forall₂ (BitLabel.Of C.bool.delta) wires rec.bits →
        List.Forall₂ (F2kLabel.Holds C.bool) (packRecord C.bool wires) (recordVals rec.bits) := by
  refine ⟨?_, fun _ _ => RamRecord.eq_of_recordVals, fun _ _ => packRecord_holds hG⟩
  obtain ⟨r, outs, hrun, h, hreadOnly, houts⟩ := (honest_init readOnly x).run hx
    (by simpa using hT) hidx (by simpa using hos) hro
  have hfit : ∀ i, (latest x os i).toNat < 2 ^ 64 :=
    latest_induction (P := fun v => v.toNat < 2 ^ 64) (by simp) hx hos
  have hwidth : 0 < timeSz T := ramzkBitsFor_pos T
  have hperm := h.check_perm hfit
  refine ⟨r, outs, hrun, fun k hk => ⟨hidx _ (List.getElem_mem hk), fun i hi => ?_⟩, h.inRange, ?_,
    hperm, fun s => h.check_diffs, fun em hem => hem.accepts hG hC (by omega) hperm,
    fun s hs em hem => hem.accepts hG hC (by omega) (h.check_diffs hs)⟩
  · rw [houts k hk, hi]
    rfl
  · rw [honestCheck, ZKRam.check, Option.isSome_map, h.diffs_isSome, hreadOnly]
    rfl

/-- A store of 9 over the initial 7, then a load, with times as wide as the two accesses need. -/
theorem memory_complete_two : ∃ r, ((setup 5 8 2 false).init [7]).honestRun
      [.write 0 9, .read 0] = some (r, [7, 9]) ∧ r.DiffsInRange ∧ r.honestCheck.perm.checkEq := by
  have hlen : ([.write 0 9, .read 0] : List (Op 5 8)).length ≤ 2 := by decide
  obtain ⟨r, outs, hrun, -, hrange, -, hperm, -⟩ :=
    (memory_complete GfOps.std_lawful PermProof.smallF2k_valid false (x := [7]) (by decide) hlen
      (by decide) (by simp) (by simp)).1
  have houts : outs = [7, 9] := congrArg (fun p => (p.map Prod.snd).getD []) hrun.symm
  exact ⟨r, houts ▸ hrun, hrange, hperm⟩

end ZKRam

end VoleZk
