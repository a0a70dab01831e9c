import VoleZk.Ram.Logs

/-!
# The read/write memory

A value can change, so the multiset equality alone does not say which of a cell's writes a read
returned; shuffle 2 is there to put the write it names in the past.  It does so with times of
`timeSz T` bits, and `clock - t` is a difference modulo `2 ^ timeSz T`: a time far enough in the
future wraps around into `{1, …, T}`.  How far is `2 ^ timeSz T - T`, so the memory is sound for
as long as no run reaches that far.

## What is here

* `Ram.latest` — the value the most recent write left in a cell;
* `Ram.sound_of_fresh` — **a run whose old times are all in the past returns the latest values**;
* `Ram.ram_sound_iff` — **`q` accesses are sound against every prover exactly when
  `q + T ≤ 2 ^ timeSz T`**; at `q = T` that is `T` being a power of two;
* `Ram.ram_wrapped_read` — the smallest wrap, two reads at `T = 3`.
-/

set_option autoImplicit false

namespace VoleZk

open OfflineMemory ZKRam

namespace Ram

variable {indexSz valSz T : ℕ}

/-! ## What a memory should return -/

/-- The value an access stores in cell `i`, if it is a store to that cell. -/
def stored (i : ℕ) : Op indexSz valSz → Option (BitVec valSz)
  | .read _ => none
  | .write j v => if j.toNat = i then some v else none

/-- The value of the most recent of the accesses `os` that wrote cell `i`; its initial contents
if none did. -/
def latest (x : List (BitVec valSz)) (os : List (Op indexSz valSz)) (i : ℕ) : BitVec valSz :=
  (os.reverse.findSome? (stored i)).getD (x.getD i 0)

@[simp] theorem latest_nil (x : List (BitVec valSz)) (i : ℕ) :
    latest x ([] : List (Op indexSz valSz)) i = x.getD i 0 := rfl

theorem latest_concat (x : List (BitVec valSz)) (os : List (Op indexSz valSz))
    (o : Op indexSz valSz) (i : ℕ) :
    latest x (os ++ [o]) i = (stored i o).getD (latest x os i) := by
  rw [latest, latest, List.reverse_append, List.reverse_singleton, List.singleton_append,
    List.findSome?_cons]
  cases stored i o with
  | none => rfl
  | some v => rfl

/-- What an access does to the latest values. -/
theorem latest_concat_eq (x : List (BitVec valSz)) (os : List (Op indexSz valSz))
    (o : Op indexSz valSz) (i : ℕ) : latest x (os ++ [o]) i
      = if i = o.index.toNat then o.newv (latest x os o.index.toNat) else latest x os i := by
  rw [latest_concat]
  by_cases hi : i = o.index.toNat
  · subst hi
    cases o with
    | read j => simp [stored, Op.newv, Op.index]
    | write j v => simp [stored, Op.newv, Op.index]
  · rw [if_neg hi]
    cases o with
    | read j => rfl
    | write j v => rw [stored, if_neg fun h => hi h.symm, Option.getD_none]

/-- Every index is in range and every read returned the latest value of its cell. -/
def Sound (x : List (BitVec valSz)) (os : List (Op indexSz valSz)) (outs : List (BitVec valSz)) :
    Prop :=
  ∀ k (hk : k < os.length), os[k].index.toNat < x.length ∧
    ∀ i, os[k] = .read i → outs[k]? = some (latest x (os.take k) i.toNat)

/-- A run on a memory with contents `x`, with the teardown `cell`, is accepted and returns `outs`:
both shuffles hold. -/
def Accepts (x : List (BitVec valSz)) (as : List (Op indexSz valSz × Commit valSz T))
    (cell : ℕ → BitVec valSz × BitVec (timeSz T)) (outs : List (BitVec valSz)) : Prop :=
  ∃ r, ((setup indexSz valSz T false).init x).run as = some (r, outs) ∧ r.DiffsInRange ∧
    (r.check cell fun _ => 0).perm.checkEq

/-! ## Old times in the past -/

/-- **Accesses that replay find the latest values.**  The memory they replay on holds, at every
point, the latest value of each cell. -/
theorem old_eq_latest {x : List (BitVec valSz)} {dom : Finset ℕ} :
    ∀ {as : List (Op indexSz valSz × Commit valSz T)} (os : List (Op indexSz valSz)) {t : ℕ}
      {m : ℕ → BitVec valSz × ℕ}, Replays dom t m (as.map toAccess) →
      (∀ i ∈ dom, (m i).1 = latest x os i) → ∀ k (hk : k < as.length),
        as[k].1.index.toNat ∈ dom ∧
          as[k].2.old = latest x (os ++ (as.map Prod.fst).take k) as[k].1.index.toNat
  | [], _, _, _, _, _, _, hk => absurd hk (Nat.not_lt_zero _)
  | a :: as, os, t, m, h, hm, k, hk => by
    obtain ⟨hdom, hfound, hrest⟩ := h
    have hold : a.2.old = latest x os a.1.index.toNat :=
      (congrArg Prod.fst hfound).symm.trans (hm _ hdom)
    cases k with
    | zero => exact ⟨hdom, by simpa using hold⟩
    | succ k =>
      have hm' : ∀ i ∈ dom, (Function.update m a.1.index.toNat (a.1.newv a.2.old, t) i).1
          = latest x (os ++ [a.1]) i := by
        intro i hi
        rw [latest_concat_eq]
        by_cases hia : i = a.1.index.toNat
        · rw [hia, Function.update_self, if_pos rfl, hold]
        · rw [Function.update_of_ne hia, if_neg hia, hm i hi]
      have ih := old_eq_latest (os ++ [a.1]) hrest hm' k (by simpa using hk)
      simpa [List.append_assoc] using ih

/-- **A run whose old times are all in the past is sound.** -/
theorem sound_of_fresh {x : List (BitVec valSz)} (hn : x.length ≤ 2 ^ indexSz)
    {as : List (Op indexSz valSz × Commit valSz T)} (hT : as.length ≤ T)
    {cell : ℕ → BitVec valSz × BitVec (timeSz T)} {outs : List (BitVec valSz)}
    (h : Accepts x as cell outs)
    (hfresh : ∀ k (hk : k < as.length), as[k].2.timeOld.toNat < 1 + k) :
    Sound x (as.map Prod.fst) outs := by
  obtain ⟨r, hrun, -, hperm⟩ := h
  obtain ⟨fin, hbal⟩ := memory_balanced hn hT hrun hperm
  have hrep : Replays (Finset.range x.length) 1 (setupMem x) (as.map toAccess) := by
    refine replays_of_balanced hbal fun k hk => ?_
    rw [List.getElem_map]
    exact hfresh k (by simpa using hk)
  intro k hk
  rw [List.length_map] at hk
  obtain ⟨hdom, hold⟩ := old_eq_latest [] hrep (fun i _ => rfl) k hk
  refine ⟨by simpa using hdom, fun i hi => ?_⟩
  rw [List.getElem_map] at hi
  rw [hi, List.nil_append] at hold
  rw [(run_eq_some hrun).1, List.getElem?_map, List.getElem?_eq_getElem hk, Option.map_some, hold]
  rfl

/-- **Up to `2 ^ timeSz T - T` accesses, shuffle 2 does put every old time in the past.**  Every
record read was written by setup or by an access of the run, so no old time exceeds the number
of accesses, and one that small does not wrap around. -/
theorem fresh_of_accepts {x : List (BitVec valSz)} (hn : x.length ≤ 2 ^ indexSz)
    {as : List (Op indexSz valSz × Commit valSz T)} (hT : as.length ≤ T)
    (hfit : as.length + T ≤ 2 ^ timeSz T) {cell : ℕ → BitVec valSz × BitVec (timeSz T)}
    {outs : List (BitVec valSz)} (h : Accepts x as cell outs) :
    ∀ k (hk : k < as.length), as[k].2.timeOld.toNat < 1 + k := by
  obtain ⟨r, hrun, hdiffs, hperm⟩ := h
  obtain ⟨fin, hbal⟩ := memory_balanced hn hT hrun hperm
  intro k hk
  rcases hdiffs.past hrun hT hk with hpast | hwrap
  · exact hpast
  · have hmem := mem_of_balanced hbal (k := k) (by simpa using hk)
    simp only [List.getElem_map, List.length_map] at hmem
    have htold : as[k].2.timeOld.toNat ≤ as.length := by
      rcases hmem with ⟨-, hm⟩ | ⟨j, hj, htold, -⟩
      · have h0 : 0 = as[k].2.timeOld.toNat := congrArg Prod.snd hm
        omega
      · have h1 : as[k].2.timeOld.toNat = 1 + j := htold
        omega
    omega

/-! ## Old times that wrap around -/

/-- The old times of the wrapped run: the first access names the last one's write, and every
other access names its predecessor's. -/
def wrappedTime (q k : ℕ) : BitVec (timeSz T) :=
  if k = 0 then BitVec.ofNat _ q else BitVec.ofNat _ k

/-- `q` reads of cell 0 around one loop, each committing the old value 1. -/
def wrapped (indexSz valSz T q : ℕ) : List (Op indexSz valSz × Commit valSz T) :=
  reads q (fun _ => 0) (fun _ => 1) (wrappedTime q)

/-- Going around the loop once names every write of the run once. -/
theorem map_wrappedTime_perm (q : ℕ) :
    ((List.range q).map (wrappedTime (T := T) q)).Perm
      ((List.range q).map fun k => BitVec.ofNat (timeSz T) (k + 1)) := by
  cases q with
  | zero => exact .rfl
  | succ q =>
    have htail : (List.range q).map (wrappedTime (T := T) (q + 1) ∘ Nat.succ)
        = (List.range q).map fun k => BitVec.ofNat (timeSz T) (k + 1) :=
      List.map_congr_left fun k _ => by
        rw [Function.comp, wrappedTime, if_neg (Nat.succ_ne_zero k)]
    rw [List.range_succ_eq_map, List.map_cons, List.map_map, htail, ← List.range_succ_eq_map,
      List.range_succ, List.map_append]
    exact (List.perm_append_singleton _ _).symm

theorem mem_diffList_reads {t : ℕ} {told : ℕ → BitVec (timeSz T)} {d : BitVec (timeSz T)} :
    ∀ {q s : ℕ}, d ∈ diffList t ((List.range' s q).map fun k =>
        ((.read (0 : BitVec indexSz), ⟨(1 : BitVec valSz), told k, 0⟩) :
          Op indexSz valSz × Commit valSz T)) →
      ∃ k, k < q ∧ d = BitVec.ofNat _ (t + k) - told (s + k) := by
  intro q
  induction q generalizing t with
  | zero => intro s h; simp [diffList] at h
  | succ q ih =>
    intro s h
    rw [List.range'_succ, List.map_cons, diffList, List.mem_cons] at h
    rcases h with rfl | h
    · exact ⟨0, Nat.succ_pos q, rfl⟩
    · obtain ⟨k, hk, rfl⟩ := ih h
      exact ⟨k + 1, Nat.succ_lt_succ hk, by rw [Nat.add_right_comm t, Nat.add_right_comm s]; rfl⟩

/-- A difference of times. -/
theorem toNat_ofNat_sub {w a b : ℕ} (hba : b ≤ a) (ha : a < 2 ^ w) :
    (BitVec.ofNat w a - BitVec.ofNat w b).toNat = a - b := by
  have hle : BitVec.ofNat w b ≤ BitVec.ofNat w a := by
    rw [BitVec.le_def, BitVec.toNat_ofNat, BitVec.toNat_ofNat, Nat.mod_eq_of_lt ha,
      Nat.mod_eq_of_lt (hba.trans_lt ha)]
    exact hba
  rw [BitVec.toNat_sub_of_le hle, BitVec.toNat_ofNat, BitVec.toNat_ofNat, Nat.mod_eq_of_lt ha,
    Nat.mod_eq_of_lt (hba.trans_lt ha)]

/-- A difference of old times that goes back by one. -/
theorem toNat_ofNat_succ_sub {w k : ℕ} (hk : k + 1 < 2 ^ w) :
    (BitVec.ofNat w (k + 1) - BitVec.ofNat w k).toNat = 1 := by
  rw [toNat_ofNat_sub (Nat.le_add_right k 1) hk, Nat.add_sub_cancel_left]

/-- A difference from a time ahead of the clock wraps around. -/
theorem toNat_ofNat_one_sub {w q : ℕ} (hq : 2 ≤ q) (hlt : q < 2 ^ w) :
    (BitVec.ofNat w 1 - BitVec.ofNat w q).toNat = 2 ^ w + 1 - q := by
  rw [BitVec.toNat_sub, BitVec.toNat_ofNat, BitVec.toNat_ofNat, Nat.mod_eq_of_lt hlt,
    Nat.mod_eq_of_lt (by omega : 1 < 2 ^ w), show 2 ^ w - q + 1 = 2 ^ w + 1 - q by omega,
    Nat.mod_eq_of_lt (by omega)]

/-- **The wrapped run is accepted** as soon as it is longer than `2 ^ timeSz T - T`, whatever the
memory: the loop consumes its own writes and the teardown consumes the setup's. -/
theorem accepts_wrapped {n q : ℕ} (hq : q ≤ T) (hwrap : 2 ^ timeSz T < q + T) :
    Accepts (List.replicate n (0 : BitVec valSz)) (wrapped indexSz valSz T q)
      (fun _ => (0, 0)) (List.replicate q 1) := by
  have hTlt := lt_two_pow_ramzkBitsFor T
  obtain ⟨r, outs, hrun⟩ := exists_run_reads
    ((setup indexSz valSz T false).init (List.replicate n 0)) q (fun _ => 0) (fun _ => 1)
    (wrappedTime q)
  obtain ⟨houts, hn, hA, hB, -⟩ := run_eq_some hrun
  have hlen : ((setup indexSz valSz T false).init (List.replicate n 0)).n = n :=
    List.length_replicate ..
  have hclock : ((setup indexSz valSz T false).init (List.replicate n 0)).clock = 1 := rfl
  obtain rfl : outs = List.replicate q 1 := by
    rw [houts, reads, List.map_map]
    exact (List.map_const' ..).trans (by rw [List.length_range]; rfl)
  refine ⟨r, hrun, ?_, ?_⟩
  · intro s hs d hd
    have hqueries := queries_of_run hrun
    rw [hs, Option.map_some, Option.some_inj] at hqueries
    rw [hqueries, reads, List.range_eq_range'] at hd
    obtain ⟨k, hk, rfl⟩ := mem_diffList_reads hd
    rw [Nat.zero_add]
    cases k with
    | zero =>
      show 1 ≤ (BitVec.ofNat (timeSz T) 1 - BitVec.ofNat (timeSz T) q).toNat ∧
        (BitVec.ofNat (timeSz T) 1 - BitVec.ofNat (timeSz T) q).toNat ≤ T
      rw [toNat_ofNat_one_sub (by rw [timeSz] at hwrap; omega) (by rw [timeSz]; omega)]
      rw [timeSz] at hwrap ⊢
      omega
    | succ k =>
      rw [wrappedTime, if_neg (Nat.succ_ne_zero k), Nat.add_comm 1,
        toNat_ofNat_succ_sub (by rw [timeSz]; omega)]
      omega
  · rw [PermLists.checkEq, check_listA, check_listB, hA, hB, hn, hlen, hclock, init_listA,
      init_listB, List.nil_append, map_readRec_reads, writeRecs_reads, List.length_replicate]
    have hloop := (map_wrappedTime_perm (T := T) q).map fun t =>
      (⟨1, 0, t⟩ : RamRecord indexSz valSz T)
    have hsetup : (List.range n).map (fun i => (⟨(List.replicate n 0).getD i 0,
          BitVec.ofNat _ i, 0⟩ : RamRecord indexSz valSz T))
        = (List.range n).map fun i => ⟨0, BitVec.ofNat _ i, 0⟩ := by
      refine List.map_congr_left fun i hi => ?_
      rw [List.getD_eq_getElem?_getD, List.getElem?_replicate, if_pos (List.mem_range.mp hi),
        Option.getD_some]
    rw [List.map_map, List.map_map] at hloop
    rw [hsetup]
    exact (hloop.append_right _).trans List.perm_append_comm

/-- The wrapped run is not sound: it reads 1 where every cell holds 0, or reads a cell that does
not exist. -/
theorem not_sound_wrapped (hval : 0 < valSz) {n q : ℕ} (hq : 0 < q) :
    ¬ Sound (List.replicate n (0 : BitVec valSz))
      ((wrapped indexSz valSz T q).map Prod.fst) (List.replicate q 1) := by
  intro h
  have hlen : 0 < ((wrapped indexSz valSz T q).map Prod.fst).length := by
    simpa [wrapped, reads] using hq
  obtain ⟨hidx, hout⟩ := h 0 hlen
  have hop : ((wrapped indexSz valSz T q).map Prod.fst)[0] = .read 0 := by
    simp [wrapped, reads]
  rw [hop, List.length_replicate] at hidx
  have hn : 0 < n := Nat.lt_of_le_of_lt (Nat.zero_le _) hidx
  have h1 := hout 0 hop
  rw [List.getElem?_replicate, if_pos hq, List.take_zero, latest_nil, Option.some_inj] at h1
  have h2 : (List.replicate n (0 : BitVec valSz)).getD (0 : BitVec indexSz).toNat 0 = 0 := by
    simp [List.getD_eq_getElem?_getD, hn]
  rw [h2] at h1
  have h3 := congrArg BitVec.toNat h1
  rw [BitVec.ofNat_eq_ofNat, BitVec.toNat_ofNat, BitVec.ofNat_eq_ofNat, BitVec.toNat_ofNat,
    Nat.zero_mod, Nat.mod_eq_of_lt (Nat.one_lt_two_pow hval.ne')] at h3
  exact absurd h3 one_ne_zero

/-! ## Soundness -/

/-- **A run of `q` accesses is sound against every prover exactly when `q + T ≤ 2 ^ timeSz T`.** -/
theorem ram_sound_iff (hval : 0 < valSz) {n q : ℕ} (hn : n ≤ 2 ^ indexSz) (hq : q ≤ T) :
    (∀ (x : List (BitVec valSz)) (as : List (Op indexSz valSz × Commit valSz T))
        (cell : ℕ → BitVec valSz × BitVec (timeSz T)) (outs : List (BitVec valSz)),
        x.length = n → as.length = q → Accepts x as cell outs → Sound x (as.map Prod.fst) outs)
      ↔ q + T ≤ 2 ^ timeSz T := by
  constructor
  · intro hsound
    by_contra hwrap
    rw [Nat.not_le] at hwrap
    have hTlt : T < 2 ^ timeSz T := lt_two_pow_ramzkBitsFor T
    exact not_sound_wrapped hval (by omega) (hsound _ _ _ _ (List.length_replicate ..)
      (by simp [wrapped, reads]) (accepts_wrapped hq hwrap))
  · rintro hfit x as cell outs rfl rfl hacc
    exact sound_of_fresh hn hq hacc (fresh_of_accepts hn hq hfit hacc)

/-- The run of `ram_sound_store_load`: a store of 9 over the initial 7, then a load. -/
def storeLoad : List (Op 5 8 × Commit 8 2) :=
  [(.write 0 9, ⟨7, 0, 0⟩), (.read 0, ⟨9, 1, 1⟩)]

/-- A store and a load at `T = 2`, whose times fit: the load returns the stored 9. -/
theorem ram_sound_store_load : Sound [(7 : BitVec 8)] (storeLoad.map Prod.fst) [7, 9] :=
  (ram_sound_iff (by decide) (n := 1) (q := 2) (by decide) (le_refl 2)).mpr (by decide)
    [7] storeLoad (fun _ => (9, 2)) [7, 9] rfl rfl
    ⟨_, rfl, fun s hs => by rw [← Option.some_inj.mp hs]; decide, by decide⟩

/-- **The smallest wrap**: at `T = 3` the times have two bits, so that the first of two reads may
name time 2, the second's write, and `1 - 2 = 3` is in `{1, 2, 3}`.  Both reads return 1 from a
cell that holds 0. -/
theorem ram_wrapped_read :
    Accepts [(0 : BitVec 8)] (wrapped 5 8 3 2) (fun _ => (0, 0)) [1, 1]
      ∧ ¬ Sound [(0 : BitVec 8)] ((wrapped 5 8 3 2).map Prod.fst) [1, 1] := by
  refine ⟨⟨_, rfl, fun s hs => by rw [← Option.some_inj.mp hs]; decide, by decide⟩, fun h => ?_⟩
  have hout := (h 0 (by decide)).2 0 rfl
  exact absurd hout (by decide)

end Ram

end VoleZk
