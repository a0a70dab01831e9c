import VoleZk.Ram.Logs

/-!
# The read-only memory

`ZKROM` is `ZKRam` without the second shuffle: the multiset equality of the read and the write
records is all that stands between a prover and an arbitrary answer.  The source argues that a
monotone public clock stamps every write, so that the value of a cell chains back to its setup
record.  But the time a *read* names is committed by the prover and nothing bounds it, so an
access may name its own write, or two accesses each other's.

## What is here

* `Rom.Sound` — every index is in range and every read returned the initial contents;
* `Rom.rom_sound_iff` — **the read-only memory is sound exactly on the old times that never close a
  loop**, that is, from every access they lead back to a setup write;
* `Rom.rom_forged_read` — the shortest loop: one access that names its own write.
-/

set_option autoImplicit false

namespace VoleZk

open OfflineMemory ZKRam

/-! ## Runs of a read-only memory -/

namespace Rom

variable {indexSz valSz T : ℕ}

/-- Every index read is in range and every read returned the initial contents of its cell. -/
def Sound (x : List (BitVec valSz)) (q : ℕ) (idx : ℕ → BitVec indexSz)
    (outs : List (BitVec valSz)) : Prop :=
  ∀ k, k < q → ∃ h : (idx k).toNat < x.length, outs[k]? = some x[(idx k).toNat]

/-- `q` reads of a memory with contents `x` and the teardown `cell` are accepted, with the values
`outs` returned. -/
def Accepts (x : List (BitVec valSz)) (q : ℕ) (idx : ℕ → BitVec indexSz)
    (old : ℕ → BitVec valSz) (told : ℕ → BitVec (timeSz T))
    (cell : ℕ → BitVec valSz × BitVec (timeSz T)) (outs : List (BitVec valSz)) : Prop :=
  ∃ r, ((setup indexSz valSz T true).init x).run (reads q idx old told) = some (r, outs) ∧
    (r.check cell fun _ => 0).perm.checkEq

/-! ### What a run of reads puts in the two lists -/

/-- The read records of `q` reads and of the teardown of `n` cells. -/
def listA (n q : ℕ) (idx : ℕ → BitVec indexSz) (old : ℕ → BitVec valSz)
    (told : ℕ → BitVec (timeSz T)) (cell : ℕ → BitVec valSz × BitVec (timeSz T)) :
    List (RamRecord indexSz valSz T) :=
  ((List.range q).map fun k => ⟨old k, idx k, told k⟩) ++
    (List.range n).map fun i => ⟨(cell i).1, BitVec.ofNat _ i, (cell i).2⟩

/-- The write records of the setup and of `q` reads. -/
def listB (x : List (BitVec valSz)) (q : ℕ) (idx : ℕ → BitVec indexSz) (old : ℕ → BitVec valSz) :
    List (RamRecord indexSz valSz T) :=
  ((List.range x.length).map fun i => ⟨x.getD i 0, BitVec.ofNat _ i, 0⟩) ++
    (List.range q).map fun k => ⟨old k, idx k, BitVec.ofNat _ (k + 1)⟩

theorem lists_of_run {x : List (BitVec valSz)} {q : ℕ} {idx : ℕ → BitVec indexSz}
    {old : ℕ → BitVec valSz} {told : ℕ → BitVec (timeSz T)} {r : ZKRam indexSz valSz T}
    {outs : List (BitVec valSz)} (cell : ℕ → BitVec valSz × BitVec (timeSz T))
    (hrun : ((setup indexSz valSz T true).init x).run (reads q idx old told)
      = some (r, outs)) :
    outs = (List.range q).map old ∧
      (r.check cell fun _ => 0).perm.listA = listA x.length q idx old told cell ∧
      (r.check cell fun _ => 0).perm.listB = listB x q idx old := by
  obtain ⟨houts, hn, hA, hB, -⟩ := run_eq_some hrun
  have hclock : ((setup indexSz valSz T true).init x).clock = 1 := rfl
  have hlen : ((setup indexSz valSz T true).init x).n = x.length := rfl
  refine ⟨by rw [houts, reads, List.map_map]; rfl, ?_, ?_⟩
  · rw [check_listA, hA, hn, hlen, init_listA, List.nil_append, map_readRec_reads,
      listA]
  · rw [check_listB, hB, hclock, init_listB, writeRecs_reads, listB]

/-- **Acceptance of a run of reads**, as a statement about its records. -/
theorem accepts_iff {x : List (BitVec valSz)} {q : ℕ} {idx : ℕ → BitVec indexSz}
    {old : ℕ → BitVec valSz} {told : ℕ → BitVec (timeSz T)}
    {cell : ℕ → BitVec valSz × BitVec (timeSz T)} {outs : List (BitVec valSz)} :
    Accepts x q idx old told cell outs ↔ outs = (List.range q).map old ∧
      (listA x.length q idx old told cell).Perm (listB x q idx old) := by
  constructor
  · rintro ⟨r, hrun, hperm⟩
    obtain ⟨houts, hA, hB⟩ := lists_of_run cell hrun
    exact ⟨houts, by rwa [PermLists.checkEq, hA, hB] at hperm⟩
  · rintro ⟨rfl, hperm⟩
    obtain ⟨r, outs, hrun⟩ :=
      exists_run_reads ((setup indexSz valSz T true).init x) q idx old told
    obtain ⟨rfl, hA, hB⟩ := lists_of_run cell hrun
    exact ⟨r, hrun, by rwa [PermLists.checkEq, hA, hB]⟩

/-! ## The old times as pointers -/

/-- Where the old time of an access points: time `k + 1` is the time of access `k`, whose
committed old time it goes on to; other times go nowhere. -/
def follow (q : ℕ) (told : ℕ → BitVec (timeSz T)) (s : ℕ) : ℕ :=
  if 1 ≤ s ∧ s ≤ q then (told (s - 1)).toNat else s

/-- Following the old times from time `s` leads back to the setup writes at time 0. -/
def ReachesSetup (q : ℕ) (told : ℕ → BitVec (timeSz T)) (s : ℕ) : Prop :=
  ∃ j, (follow q told)^[j] s = 0

theorem follow_succ {q : ℕ} {told : ℕ → BitVec (timeSz T)} {k : ℕ} (hk : k < q) :
    follow q told (k + 1) = (told k).toNat := by
  rw [follow, if_pos ⟨Nat.succ_pos k, hk⟩, Nat.add_sub_cancel]

theorem reachesSetup_zero (q : ℕ) (told : ℕ → BitVec (timeSz T)) : ReachesSetup q told 0 :=
  ⟨0, rfl⟩

/-- An access reaches setup if and only if the access it points to does. -/
theorem reachesSetup_succ {q : ℕ} {told : ℕ → BitVec (timeSz T)} {k : ℕ} (hk : k < q) :
    ReachesSetup q told (k + 1) ↔ ReachesSetup q told (told k).toNat := by
  rw [← follow_succ hk]
  constructor
  · rintro ⟨j, hj⟩
    cases j with
    | zero => exact absurd hj (Nat.succ_ne_zero k)
    | succ j => exact ⟨j, by rwa [Function.iterate_succ_apply] at hj⟩
  · rintro ⟨j, hj⟩
    exact ⟨j + 1, by rwa [Function.iterate_succ_apply]⟩

/-- The indices and the times of the two lists agree, whatever their values: a run whose indices
and times do not is never accepted. -/
def TimesBalance (n q : ℕ) (idx : ℕ → BitVec indexSz) (told fin : ℕ → BitVec (timeSz T)) : Prop :=
  (((List.range q).map fun k => (idx k, told k)) ++
      (List.range n).map fun i => (BitVec.ofNat indexSz i, fin i)).Perm
    (((List.range n).map fun i => (BitVec.ofNat indexSz i, (0 : BitVec (timeSz T)))) ++
      (List.range q).map fun k => (idx k, BitVec.ofNat (timeSz T) (k + 1)))

theorem timesBalance_of_accepts {x : List (BitVec valSz)} {q : ℕ} {idx : ℕ → BitVec indexSz}
    {old : ℕ → BitVec valSz} {told : ℕ → BitVec (timeSz T)}
    {cell : ℕ → BitVec valSz × BitVec (timeSz T)} {outs : List (BitVec valSz)}
    (h : Accepts x q idx old told cell outs) :
    TimesBalance x.length q idx told fun i => (cell i).2 := by
  have hmap := (accepts_iff.mp h).2.map fun r => (r.index, r.time)
  simp only [listA, listB, List.map_append, List.map_map] at hmap
  exact hmap

/-! ## Soundness -/

/-- A chain of `ReachesSetup` is a chain of the offline memory's accesses. -/
theorem chase_eq_follow (q : ℕ) (idx : ℕ → BitVec indexSz) (old : ℕ → BitVec valSz)
    (told : ℕ → BitVec (timeSz T)) :
    chase 1 ((reads q idx old told).map toAccess) = follow q told := by
  funext s
  have hlen : ((reads q idx old told).map toAccess).length = q := by simp [reads]
  by_cases h : 1 ≤ s ∧ s ≤ q
  · rw [follow, if_pos h, chase, dif_pos ⟨h.1, by omega⟩]
    simp [reads, toAccess]
  · rw [follow, if_neg h, chase, dif_neg (by omega)]

/-- **Reads whose old times lead back to setup are right.** -/
theorem sound_of_reachesSetup {x : List (BitVec valSz)} (hn : x.length ≤ 2 ^ indexSz) {q : ℕ}
    (hq : q ≤ T) {idx : ℕ → BitVec indexSz} {old : ℕ → BitVec valSz}
    {told : ℕ → BitVec (timeSz T)} {cell : ℕ → BitVec valSz × BitVec (timeSz T)}
    {outs : List (BitVec valSz)} (h : Accepts x q idx old told cell outs)
    (hreach : ∀ k, k < q → ReachesSetup q told (k + 1)) : Sound x q idx outs := by
  have houts := (accepts_iff.mp h).1
  obtain ⟨r, hrun, hperm⟩ := h
  obtain ⟨fin, hbal⟩ := memory_balanced hn (by simpa [reads] using hq) hrun hperm
  have hconst : ∀ a ∈ (reads q idx old told).map toAccess, a.new = a.old := by
    intro a ha
    obtain ⟨b, hb, rfl⟩ := List.mem_map.mp ha
    obtain ⟨k, -, rfl⟩ := List.mem_map.mp hb
    rfl
  intro k hk
  obtain ⟨j, hj⟩ := hreach k hk
  rw [← chase_eq_follow q idx old told] at hj
  have hval := val_of_reaches hbal hconst (j := j) (k := k) (by simpa [reads] using hk)
    (by rw [Nat.add_comm 1 k, hj]; exact Nat.one_pos)
  simp only [reads, List.map_map, List.getElem_map, List.getElem_range, Function.comp,
    toAccess, Op.index, Finset.mem_range] at hval
  obtain ⟨hlt, hold⟩ := hval
  have hx : x.getD (idx k).toNat 0 = x.get ⟨(idx k).toNat, hlt⟩ := by
    rw [List.getD_eq_getElem?_getD, List.getElem?_eq_getElem hlt]
    rfl
  refine ⟨hlt, ?_⟩
  rw [houts, List.getElem?_map, List.getElem?_range hk, Option.map_some, ← hold]
  exact congrArg some hx

open Classical in
/-- The value a forging prover keeps along the old times: 0 where they lead back to setup, and 1
around a loop. -/
noncomputable def loopValue (q : ℕ) (told : ℕ → BitVec (timeSz T)) (s : ℕ) : BitVec valSz :=
  if ReachesSetup q told s then 0 else 1

theorem loopValue_succ {q : ℕ} {told : ℕ → BitVec (timeSz T)} {k : ℕ} (hk : k < q) :
    (loopValue q told (k + 1) : BitVec valSz) = loopValue q told (told k).toNat := by
  classical
  rw [loopValue, loopValue]
  exact if_congr (reachesSetup_succ hk) rfl rfl

/-- **The forgery.**  Where the times balance, the prover who keeps `loopValue` is accepted. -/
theorem accepts_loopValue {n q : ℕ} (hq : q ≤ T) {idx : ℕ → BitVec indexSz}
    {told fin : ℕ → BitVec (timeSz T)} (hbal : TimesBalance n q idx told fin) :
    Accepts (List.replicate n (0 : BitVec valSz)) q idx (fun k => loopValue q told (k + 1)) told
      (fun i => (loopValue q told (fin i).toNat, fin i))
      ((List.range q).map fun k => loopValue q told (k + 1)) := by
  -- the value of a record is a function of its time, so the records balance as the times do
  have hread : (List.range q).map (fun k => (⟨loopValue q told (k + 1), idx k, told k⟩ :
        RamRecord indexSz valSz T))
      = (List.range q).map fun k => ⟨loopValue q told (told k).toNat, idx k, told k⟩ := by
    refine List.map_congr_left fun k hk => ?_
    rw [loopValue_succ (List.mem_range.mp hk)]
  have hsetup : (List.range n).map (fun i => (⟨(List.replicate n 0).getD i 0, BitVec.ofNat _ i,
        0⟩ : RamRecord indexSz valSz T))
      = (List.range n).map fun i => ⟨loopValue q told (0 : BitVec (timeSz T)).toNat,
          BitVec.ofNat _ i, 0⟩ := by
    refine List.map_congr_left fun i hi => ?_
    have h0 : (loopValue q told (0 : BitVec (timeSz T)).toNat : BitVec valSz) = 0 :=
      if_pos (reachesSetup_zero q told)
    rw [h0, List.getD_eq_getElem?_getD, List.getElem?_replicate,
      if_pos (List.mem_range.mp hi), Option.getD_some]
  have hwrite : (List.range q).map (fun k => (⟨loopValue q told (k + 1), idx k,
        BitVec.ofNat _ (k + 1)⟩ : RamRecord indexSz valSz T))
      = (List.range q).map fun k => ⟨loopValue q told (BitVec.ofNat (timeSz T) (k + 1)).toNat,
          idx k, BitVec.ofNat _ (k + 1)⟩ := by
    refine List.map_congr_left fun k hk => ?_
    have hlt : k + 1 < 2 ^ timeSz T :=
      (Nat.succ_le_of_lt (List.mem_range.mp hk)).trans_lt (hq.trans_lt (lt_two_pow_ramzkBitsFor T))
    rw [BitVec.toNat_ofNat, Nat.mod_eq_of_lt hlt]
  have hmap := hbal.map fun p =>
    (⟨loopValue q told p.2.toNat, p.1, p.2⟩ : RamRecord indexSz valSz T)
  simp only [List.map_append, List.map_map] at hmap
  refine accepts_iff.mpr ⟨rfl, ?_⟩
  rw [listA, listB, List.length_replicate, hread, hsetup, hwrite]
  exact hmap

/-- **The read-only memory is sound exactly on old times without a loop.**  For the indices, the
old times and the teardown times of a run, the following are equivalent: whatever the contents
and whatever values the prover commits, acceptance makes every read right; and, unless the
indices and times alone already keep the lists from balancing, the old times lead from every
access back to a setup write. -/
theorem rom_sound_iff (hval : 0 < valSz) {n q : ℕ} (hn : n ≤ 2 ^ indexSz) (hq : q ≤ T)
    (idx : ℕ → BitVec indexSz) (told fin : ℕ → BitVec (timeSz T)) :
    (∀ (x : List (BitVec valSz)) (old v : ℕ → BitVec valSz) (outs : List (BitVec valSz)),
        x.length = n → Accepts x q idx old told (fun i => (v i, fin i)) outs → Sound x q idx outs)
      ↔ (TimesBalance n q idx told fin → ∀ k, k < q → ReachesSetup q told (k + 1)) := by
  constructor
  · intro hsound hbal k hk
    by_contra hloop
    obtain ⟨hidx, hout⟩ := hsound _ _ _ _ (List.length_replicate ..)
      (accepts_loopValue hq hbal) k hk
    rw [List.getElem?_map, List.getElem?_range hk, Option.map_some, loopValue, if_neg hloop,
      List.getElem_replicate, Option.some_inj] at hout
    have h1 := congrArg BitVec.toNat hout
    rw [BitVec.ofNat_eq_ofNat, BitVec.toNat_ofNat, BitVec.ofNat_eq_ofNat, BitVec.toNat_ofNat,
      Nat.zero_mod, Nat.mod_eq_of_lt (Nat.one_lt_two_pow hval.ne')] at h1
    exact absurd h1 one_ne_zero
  · rintro hreach x old v outs rfl hacc
    exact sound_of_reachesSetup hn hq hacc (hreach (timesBalance_of_accepts hacc))

/-- A memory of one cell holding 7, read twice with old times 0 and then 1: no loop. -/
theorem rom_sound_two_reads : Sound [(7 : BitVec 8)] 2 (fun _ => (0 : BitVec 5)) [7, 7] := by
  refine (rom_sound_iff (by decide) (n := 1) (by decide) (by decide : 2 ≤ 2)
    (fun _ => (0 : BitVec 5)) (fun k => BitVec.ofNat (timeSz 2) k) (fun _ => 2)).mpr
    (fun _ k hk => ⟨k + 1, ?_⟩) [7] (fun _ => 7) (fun _ => 7) [7, 7] rfl
    (accepts_iff.mpr ⟨rfl, by decide⟩)
  obtain rfl | rfl : k = 0 ∨ k = 1 := by omega
  · rfl
  · rfl

/-- **One access that names its own write.**  The cell holds 0; the prover commits the old value 1
and as old time the current clock.  The record read is the record written, the lists balance, and
the read returns 1. -/
theorem rom_forged_read :
    Accepts [(0 : BitVec 8)] 1 (fun _ => (0 : BitVec 5)) (fun _ => 1)
        (fun _ => (1 : BitVec (timeSz 1))) (fun _ => (0, 0)) [1]
      ∧ ¬ Sound [(0 : BitVec 8)] 1 (fun _ => (0 : BitVec 5)) [1] := by
  refine ⟨accepts_iff.mpr ⟨rfl, by decide⟩, fun h => ?_⟩
  obtain ⟨hlt, hout⟩ := h 0 Nat.one_pos
  simp at hout

end Rom

end VoleZk
