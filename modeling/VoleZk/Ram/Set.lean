import VoleZk.Ram.Model
import Mathlib.Algebra.Order.Group.Multiset
import Mathlib.Data.Multiset.UnionInter

/-!
# The membership set

A query reads the version the prover commits for a value and writes the next one, so the reads of a
value that setup did not write must be their own successors.  Versions wrap around at
`2 ^ ver_sz`, and the only way for that to happen is to go around: all versions are read, more than
the `T` queries there are.

## What is here

* `card_le_of_map_eq` — a multiset that a function maps to itself holds the orbit of each of its
  elements;
* `ZKSet.run`, `ZKSet.check_run_listA`, `ZKSet.check_run_listB` — what the queries leave in the
  lists;
* `ZKSet.mem_range_of_checkEq` — **if reads and writes agree, every value queried is in
  `{1, …, T}`**, whatever versions the prover commits.
-/

set_option autoImplicit false

namespace VoleZk

/-- A multiset that `f` maps to itself is at least as large as the orbit of any of its elements. -/
theorem card_le_of_map_eq {α : Type*} {f : α → α} {S : Multiset α} (hS : S.map f = S) {x : α}
    (hx : x ∈ S) {n : ℕ} (hinj : ∀ i < n, ∀ j < n, f^[i] x = f^[j] x → i = j) :
    n ≤ Multiset.card S := by
  have horbit : ∀ i, f^[i] x ∈ S := by
    intro i
    induction i with
    | zero => exact hx
    | succ i ih =>
      rw [Function.iterate_succ_apply', ← hS]
      exact Multiset.mem_map_of_mem f ih
  have hnodup : ((List.range n).map fun i => f^[i] x).Nodup := by
    refine List.nodup_range.map_on fun i hi j hj heq => ?_
    exact hinj i (List.mem_range.mp hi) j (List.mem_range.mp hj) heq
  have hle : (((List.range n).map fun i => f^[i] x : List α) : Multiset α) ≤ S := by
    refine (Multiset.le_iff_subset (Multiset.coe_nodup.mpr hnodup)).mpr fun y hy => ?_
    obtain ⟨i, -, rfl⟩ := List.mem_map.mp (Multiset.mem_coe.mp hy)
    exact horbit i
  simpa using Multiset.card_le_card hle

/-- Counting up from a word meets every word before it comes back. -/
theorem iterate_succ_injOn {w : ℕ} (x : BitVec w) : ∀ i < 2 ^ w, ∀ j < 2 ^ w,
    (fun c : BitVec w => c + BitVec.ofNat w 1)^[i] x
      = (fun c : BitVec w => c + BitVec.ofNat w 1)^[j] x → i = j := by
  have hiter : ∀ i, (fun c : BitVec w => c + BitVec.ofNat w 1)^[i] x = x + BitVec.ofNat w i := by
    intro i
    induction i with
    | zero => simp
    | succ i ih => rw [Function.iterate_succ_apply', ih, BitVec.add_assoc, ← BitVec.ofNat_add]
  intro i hi j hj heq
  rw [hiter, hiter] at heq
  have hword := congrArg BitVec.toNat ((BitVec.add_right_inj x).mp heq)
  rwa [BitVec.toNat_ofNat, BitVec.toNat_ofNat, Nat.mod_eq_of_lt hi, Nat.mod_eq_of_lt hj] at hword

namespace ZKSet

variable {T elemSz : ℕ}

/-- A list of queries, each with the version the prover commits for it. -/
def run (s : ZKSet T elemSz) (qs : List (BitVec elemSz × BitVec (ramzkBitsFor T))) :
    ZKSet T elemSz :=
  qs.foldl (fun s q => s.proveMember q.1 q.2) s

/-- The record a query reads. -/
def readRec (q : BitVec elemSz × BitVec (ramzkBitsFor T)) : SetRecord elemSz (ramzkBitsFor T) :=
  ⟨q.1, q.2⟩

/-- The record it writes. -/
def writeRec (q : BitVec elemSz × BitVec (ramzkBitsFor T)) : SetRecord elemSz (ramzkBitsFor T) :=
  ⟨q.1, q.2 + BitVec.ofNat _ 1⟩

theorem run_perm (s : ZKSet T elemSz) (qs : List (BitVec elemSz × BitVec (ramzkBitsFor T))) :
    (s.run qs).perm.listA = s.perm.listA ++ qs.map readRec ∧
      (s.run qs).perm.listB = s.perm.listB ++ qs.map writeRec := by
  induction qs generalizing s with
  | nil => simp [run]
  | cons q qs ih =>
    obtain ⟨hA, hB⟩ := ih (s.proveMember q.1 q.2)
    rw [run, List.foldl_cons, ← run, hA, hB]
    simp [proveMember, readRec, writeRec]

/-- The reads: queries, then the teardown. -/
theorem check_run_listA (qs : List (BitVec elemSz × BitVec (ramzkBitsFor T)))
    (vers : ℕ → BitVec (ramzkBitsFor T)) : (((setup T elemSz).run qs).check vers).perm.listA
      = qs.map readRec ++ (List.range' 1 T).map fun e => ⟨BitVec.ofNat _ e, vers e⟩ := by
  simp only [check, PermLists.foldl_emit_true, (run_perm _ qs).1, setup,
    PermLists.foldl_emit_false, List.nil_append]

/-- The writes: setup, then the queries. -/
theorem check_run_listB (qs : List (BitVec elemSz × BitVec (ramzkBitsFor T)))
    (vers : ℕ → BitVec (ramzkBitsFor T)) : (((setup T elemSz).run qs).check vers).perm.listB
      = ((List.range' 1 T).map fun e => ⟨BitVec.ofNat _ e, 0⟩) ++ qs.map writeRec := by
  simp only [check, PermLists.foldl_emit_true, (run_perm _ qs).2, setup,
    PermLists.foldl_emit_false, List.nil_append]

/-- The versions read for a value. -/
def versionsOf (v : BitVec elemSz) (rs : List (SetRecord elemSz (ramzkBitsFor T))) :
    Multiset (BitVec (ramzkBitsFor T)) :=
  ((rs.filter fun r => r.element = v).map SetRecord.version : List _)

/-- Setup and teardown have no record of a value outside the range. -/
theorem versionsOf_range (hfit : T < 2 ^ elemSz) {v : BitVec elemSz}
    (hv : ¬(1 ≤ v.toNat ∧ v.toNat ≤ T)) (vers : ℕ → BitVec (ramzkBitsFor T)) :
    versionsOf v ((List.range' 1 T).map fun e => ⟨BitVec.ofNat _ e, vers e⟩) = 0 := by
  have hnone : ∀ r ∈ (List.range' 1 T).map fun e =>
      (⟨BitVec.ofNat elemSz e, vers e⟩ : SetRecord elemSz (ramzkBitsFor T)),
      ¬(decide (r.element = v) = true) := by
    rintro r hr heq
    obtain ⟨e, he, rfl⟩ := List.mem_map.mp hr
    rw [List.mem_range'_1] at he
    have hle : e ≤ T := by omega
    have hev : e = v.toNat := by
      rw [← of_decide_eq_true heq, BitVec.toNat_ofNat, Nat.mod_eq_of_lt (hle.trans_lt hfit)]
    exact hv ⟨hev ▸ he.1, hev ▸ hle⟩
  rw [versionsOf, List.filter_eq_nil_iff.mpr hnone]
  rfl

/-- The versions written for a value follow the versions read. -/
theorem versionsOf_writeRec (v : BitVec elemSz)
    (qs : List (BitVec elemSz × BitVec (ramzkBitsFor T))) :
    versionsOf v (qs.map writeRec)
      = (versionsOf v (qs.map readRec)).map fun c => c + BitVec.ofNat _ 1 := by
  rw [versionsOf, versionsOf, List.filter_map, List.filter_map, Multiset.map_coe, List.map_map,
    List.map_map, List.map_map]
  rfl

theorem versionsOf_append (v : BitVec elemSz) (rs rs' : List (SetRecord elemSz (ramzkBitsFor T))) :
    versionsOf v (rs ++ rs') = versionsOf v rs + versionsOf v rs' := by
  rw [versionsOf, List.filter_append, List.map_append, ← Multiset.coe_add]
  rfl

/-- **If the reads are the writes, every value queried is in `{1, …, T}`**, whatever versions the
prover commits at the queries and at the teardown, as long as no value is queried more than `T`
times. -/
theorem mem_range_of_checkEq (hfit : T < 2 ^ elemSz)
    {qs : List (BitVec elemSz × BitVec (ramzkBitsFor T))}
    (hcount : ∀ v, (qs.map Prod.fst).count v ≤ T) {vers : ℕ → BitVec (ramzkBitsFor T)}
    (hperm : (((setup T elemSz).run qs).check vers).perm.checkEq) :
    ∀ q ∈ qs, 1 ≤ q.1.toNat ∧ q.1.toNat ≤ T := by
  intro q hq
  by_contra hv
  set S := versionsOf q.1 (qs.map readRec) with hS
  -- the reads of a value outside the range are their own successors
  have hshift : S.map (fun c => c + BitVec.ofNat _ 1) = S := by
    have hrecs := (hperm.filter fun r => r.element = q.1).map SetRecord.version
    rw [check_run_listA, check_run_listB] at hrecs
    have hvers := Multiset.coe_eq_coe.mpr hrecs
    rw [← versionsOf, ← versionsOf, versionsOf_append, versionsOf_append,
      versionsOf_range hfit hv, versionsOf_range hfit hv, add_zero, zero_add,
      versionsOf_writeRec] at hvers
    exact hvers.symm
  have hmem : q.2 ∈ S := by
    refine Multiset.mem_coe.mpr (List.mem_map.mpr ⟨readRec q, ?_, rfl⟩)
    exact List.mem_filter.mpr ⟨List.mem_map_of_mem hq, decide_eq_true rfl⟩
  have hcard : Multiset.card S = (qs.map Prod.fst).count q.1 := by
    rw [hS, versionsOf, Multiset.coe_card, List.length_map, ← List.countP_eq_length_filter,
      List.count, List.countP_map, List.countP_map]
    exact List.countP_congr fun x _ => decide_eq_true_iff.trans beq_iff_eq.symm
  have hle := card_le_of_map_eq hshift hmem (iterate_succ_injOn q.2)
  exact absurd ((hcard ▸ hle).trans (hcount q.1)) (Nat.not_le.mpr (lt_two_pow_ramzkBitsFor T))

/-- Two queries of the element 1 of `{1, 2}`, at the versions 0 and 1. -/
theorem mem_range_two : 1 ≤ (1 : BitVec 2).toNat ∧ (1 : BitVec 2).toNat ≤ 2 := by
  have hperm : (((setup 2 2).run [(1, 0), (1, 1)]).check
      fun e => if e = 1 then 2 else 0).perm.checkEq := by decide
  exact mem_range_of_checkEq (by decide) (fun _ => List.count_le_length) hperm (1, 0)
    List.mem_cons_self

end ZKSet

end VoleZk
