import VoleZk.Lib.OfflineMemory
import VoleZk.Ram.Model

/-!
# The records of a run

Read as numbers, the records a run of `ZKRam` puts in its two lists are the logs of an offline
memory check, whatever the prover committed.  Both soundness arguments start here.

## What is here

* `ZKRam.toAccess`, `ZKRam.memory_balanced` — an accepted run is a balanced pair of logs over the
  cells below `n`;
* `ZKRam.DiffsInRange.past` — what shuffle 2 says about one access: its old time is in the past,
  or so far in the future that the difference has wrapped around;
* `ZKRam.reads` — a run that only loads, and its records.
-/

set_option autoImplicit false

namespace VoleZk

open OfflineMemory

namespace ZKRam

variable {indexSz valSz T : ℕ}

/-- The access of the offline memory that one access of `ZKRam` is. -/
def toAccess (a : Op indexSz valSz × Commit valSz T) : Access ℕ (BitVec valSz) :=
  ⟨a.1.index.toNat, a.2.old, a.2.timeOld.toNat, a.1.newv a.2.old⟩

/-- A record with its index and its time read as numbers. -/
def toRec (r : RamRecord indexSz valSz T) : Rec ℕ (BitVec valSz) :=
  ⟨r.value, r.index.toNat, r.time.toNat⟩

/-- The memory at setup: cell `i` holds its initial contents, written at time 0. -/
def setupMem (content : List (BitVec valSz)) (i : ℕ) : BitVec valSz × ℕ := (content.getD i 0, 0)

theorem map_toRec_readRec (as : List (Op indexSz valSz × Commit valSz T)) :
    (as.map readRec).map toRec = (as.map toAccess).map Access.read := by
  simp only [List.map_map]
  rfl

/-- Public times below `2 ^ timeSz` survive their encoding. -/
theorem map_toRec_writeRecs : ∀ {t : ℕ} {as : List (Op indexSz valSz × Commit valSz T)},
    t + as.length ≤ 2 ^ timeSz T → (writeRecs t as).map toRec = writes t (as.map toAccess)
  | _, [], _ => rfl
  | t, a :: as, h => by
    rw [List.length_cons] at h
    rw [writeRecs, List.map_cons, List.map_cons, writes_cons, map_toRec_writeRecs (by omega)]
    congr 1
    simp only [toRec, writeRec, Access.write, toAccess, BitVec.toNat_ofNat]
    rw [Nat.mod_eq_of_lt (by omega)]

/-- **An accepted run is a balanced pair of logs**, over the cells below `n`. -/
theorem memory_balanced {readOnly : Bool} {content : List (BitVec valSz)}
    (hn : content.length ≤ 2 ^ indexSz) {as : List (Op indexSz valSz × Commit valSz T)}
    (hT : as.length ≤ T) {r : ZKRam indexSz valSz T} {outs : List (BitVec valSz)}
    (hrun : ((setup indexSz valSz T readOnly).init content).run as = some (r, outs))
    {cell : ℕ → BitVec valSz × BitVec (timeSz T)} {vers : ℕ → BitVec (ramzkBitsFor T)}
    (hperm : (r.check cell vers).perm.checkEq) :
    ∃ fin,
      BalancedLogs (Finset.range content.length) 1 (setupMem content) (as.map toAccess) fin := by
  obtain ⟨-, hn', hA, hB, -⟩ := run_eq_some hrun
  have htime : 1 + as.length ≤ 2 ^ timeSz T := by
    have := lt_two_pow_ramzkBitsFor T
    rw [timeSz]
    omega
  have hA' : (r.check cell vers).perm.listA.map toRec
      = (as.map toAccess).map Access.read ++ ((List.range r.n).map fun i =>
          toRec ⟨(cell i).1, BitVec.ofNat indexSz i, (cell i).2⟩) := by
    rw [check_listA, hA, init_listA, List.nil_append, List.map_append, map_toRec_readRec,
      List.map_map, List.map_map]
    rfl
  have hB' : ((r.check cell vers).perm.listB.map toRec : Multiset (Rec ℕ (BitVec valSz)))
      = live (Finset.range content.length) (setupMem content)
        + (writes 1 (as.map toAccess) : List (Rec ℕ (BitVec valSz))) := by
    have hsetup : (List.range content.length).map
          (toRec ∘ fun i => (⟨content.getD i 0, BitVec.ofNat indexSz i, 0⟩ :
            RamRecord indexSz valSz T))
        = (List.range content.length).map fun i =>
            (⟨(setupMem content i).1, i, (setupMem content i).2⟩ : Rec ℕ (BitVec valSz)) := by
      refine List.map_congr_left fun i hi => ?_
      rw [List.mem_range] at hi
      simp [toRec, setupMem, Nat.mod_eq_of_lt (hi.trans_le hn)]
    rw [check_listB, hB, init_listB, List.map_append, List.map_map, hsetup, ← Multiset.coe_add,
      ← live_range]
    congr 2
    exact map_toRec_writeRecs htime
  refine ⟨((List.range r.n).map fun i =>
    toRec ⟨(cell i).1, BitVec.ofNat indexSz i, (cell i).2⟩ : List (Rec ℕ (BitVec valSz))), ?_⟩
  rw [BalancedLogs, ← hB', Multiset.coe_add, ← hA']
  exact Multiset.coe_eq_coe.mpr (hperm.symm.map toRec)


/-! ## The differences of shuffle 2 -/

theorem mem_diffList : ∀ {t : ℕ} {as : List (Op indexSz valSz × Commit valSz T)} {k : ℕ}
    (hk : k < as.length), BitVec.ofNat (timeSz T) (t + k) - as[k].2.timeOld ∈ diffList t as
  | t, a :: as, 0, _ => by simp [diffList]
  | t, a :: as, k + 1, hk => by
    have hk' : k < as.length := by simpa using hk
    have h : BitVec.ofNat (timeSz T) (t + 1 + k) - as[k].2.timeOld ∈ diffList (t + 1) as :=
      mem_diffList hk'
    rw [Nat.add_right_comm] at h
    exact List.mem_cons_of_mem _ h

/-- The differences queried by a run of a fresh read/write memory. -/
theorem queries_of_run {content : List (BitVec valSz)}
    {as : List (Op indexSz valSz × Commit valSz T)} {r : ZKRam indexSz valSz T}
    {outs : List (BitVec valSz)}
    (hrun : ((setup indexSz valSz T false).init content).run as = some (r, outs)) :
    r.diffs.map ZKSet.queries = some (diffList 1 as) := by
  obtain ⟨-, -, -, -, hd⟩ := run_eq_some hrun
  have hdiffs : ((setup indexSz valSz T false).init content).diffs
      = some (ZKSet.setup T (timeSz T)) := rfl
  have hclock : ((setup indexSz valSz T false).init content).clock = 1 := rfl
  rw [hd, hdiffs, Option.map_some, ZKSet.queries_setup, List.nil_append, hclock]

/-- A difference of `w`-bit times that lies in `{1, …, T}` puts the old time in the past, or at
least `2 ^ w - T` in the future. -/
theorem past_or_wraps {w t T : ℕ} {s : BitVec w} (ht : t < 2 ^ w)
    (h1 : 1 ≤ (BitVec.ofNat w t - s).toNat) (hT : (BitVec.ofNat w t - s).toNat ≤ T) :
    s.toNat < t ∨ 2 ^ w + t ≤ s.toNat + T := by
  have hs := s.isLt
  rw [BitVec.toNat_sub, BitVec.toNat_ofNat, Nat.mod_eq_of_lt ht] at h1 hT
  rcases Nat.lt_or_ge t s.toNat with hlt | hge
  · rw [Nat.mod_eq_of_lt (by omega)] at hT
    exact Or.inr (by omega)
  · rw [show 2 ^ w - s.toNat + t = 2 ^ w + (t - s.toNat) by omega, Nat.add_mod_left,
      Nat.mod_eq_of_lt (by omega)] at h1
    exact Or.inl (by omega)

/-- **What shuffle 2 says about access `k`**, whose clock is `k + 1`. -/
theorem DiffsInRange.past {content : List (BitVec valSz)}
    {as : List (Op indexSz valSz × Commit valSz T)} {r : ZKRam indexSz valSz T}
    {outs : List (BitVec valSz)} (h : r.DiffsInRange)
    (hrun : ((setup indexSz valSz T false).init content).run as = some (r, outs))
    (hT : as.length ≤ T) {k : ℕ} (hk : k < as.length) :
    as[k].2.timeOld.toNat < 1 + k ∨ 2 ^ timeSz T + (1 + k) ≤ as[k].2.timeOld.toNat + T := by
  obtain ⟨s, hs, hq⟩ := Option.map_eq_some_iff.mp (queries_of_run hrun)
  obtain ⟨h1, h2⟩ := h s hs _ (hq ▸ mem_diffList hk)
  have hlt := lt_two_pow_ramzkBitsFor T
  exact past_or_wraps (by rw [timeSz]; omega) h1 h2

/-! ## Runs that only load -/

/-- `q` reads: read `k` is of the cell `idx k`, the prover commits `old k` as its value and
`told k` as the time it was written. -/
def reads (q : ℕ) (idx : ℕ → BitVec indexSz) (old : ℕ → BitVec valSz)
    (told : ℕ → BitVec (timeSz T)) : List (Op indexSz valSz × Commit valSz T) :=
  (List.range q).map fun k => (.read (idx k), ⟨old k, told k, 0⟩)

theorem map_readRec_reads (q : ℕ) (idx : ℕ → BitVec indexSz) (old : ℕ → BitVec valSz)
    (told : ℕ → BitVec (timeSz T)) : (reads q idx old told).map readRec
      = (List.range q).map fun k => ⟨old k, idx k, told k⟩ := by
  rw [reads, List.map_map]
  rfl

theorem writeRecs_map (t : ℕ) (idx : ℕ → BitVec indexSz) (old : ℕ → BitVec valSz)
    (told : ℕ → BitVec (timeSz T)) (ks : ℕ) (s : ℕ) :
    writeRecs (s + t) ((List.range' s ks).map fun k =>
        ((.read (idx k), ⟨old k, told k, 0⟩) : Op indexSz valSz × Commit valSz T))
      = (List.range' s ks).map fun k => ⟨old k, idx k, BitVec.ofNat _ (k + t)⟩ := by
  induction ks generalizing s with
  | zero => rfl
  | succ ks ih =>
    rw [List.range'_succ, List.map_cons, List.map_cons, writeRecs,
      Nat.add_right_comm s t 1, ih (s + 1)]
    rfl

theorem writeRecs_reads (q : ℕ) (idx : ℕ → BitVec indexSz) (old : ℕ → BitVec valSz)
    (told : ℕ → BitVec (timeSz T)) : writeRecs 1 (reads q idx old told)
      = (List.range q).map fun k => ⟨old k, idx k, BitVec.ofNat _ (k + 1)⟩ := by
  have h := writeRecs_map (T := T) 1 idx old told q 0
  rwa [Nat.zero_add, ← List.range_eq_range'] at h

/-- A memory refuses no load. -/
theorem exists_run_reads (r : ZKRam indexSz valSz T) (q : ℕ) (idx : ℕ → BitVec indexSz)
    (old : ℕ → BitVec valSz) (told : ℕ → BitVec (timeSz T)) :
    ∃ r' outs, r.run (reads q idx old told) = some (r', outs) := by
  refine exists_run (Or.inr fun a ha => ?_)
  obtain ⟨k, -, rfl⟩ := List.mem_map.mp ha
  exact ⟨idx k, rfl⟩

end ZKRam

end VoleZk
