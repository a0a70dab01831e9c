import VoleZk.Mvzk.Fp59
import VoleZk.Mvzk.Mesh
import VoleZk.Mvzk.Share

/-!
# Opening a wire to the verifiers

`MvzkExec::reveal` sends the prover's value to every verifier; `checkPublic` compares it with the
shares of the wire.  Each verifier forms `mac - key - value * Delta_i` with a common random
coefficient, masks it with a share of zero, and all of them check that the published words add up
to 0.

The word of the prover is used as it arrives.  `revealCheck`, the other caller of `checkPublic`,
builds its values with `T(expected)`, which reduces them; `reveal_recv` copies the bytes.  So the
check sees a word modulo `P59` at best, and a word from `P59` on that passes is returned as it is.

## What is here

* `zeroShare`, `macCheckZero`, `checkPublicShare`, `reveal` — the verifier's side;
* `zeroOut_words` — the masks that `Mesh::zero_shares` leaves, once everything is exchanged;
* `Wire` — the hypotheses on a wire and its shares;
* `reveal_eq_some_iff` — what acceptance says, when the product with the coefficient is canonical;
* `reveal_complete` — the value of the wire is accepted;
* `reveal_sound_iff` — **the words for which acceptance pins the returned value down**;
* `Wire.split` — a wire whose shares two verifiers hold.
-/

set_option autoImplicit false

open Finset

namespace VoleZk.Mvzk

/-! ## The verifiers -/

/-- `Mesh::zero_shares`, verifier `id`: the negated sum of what it deals to the others, plus what
the others deal to it.  `deal i j` is the word that `i` samples for `j`. -/
def zeroShare (n : ℕ) (deal : ℕ → ℕ → ℕ) (id : ℕ) : ℕ :=
  let acc := (others n id).foldl (fun acc j => FP59.addMod acc (deal id j)) 0
  (ringPeers n id).foldl (fun out j => FP59.addMod out (deal j id)) (FP59.negate acc)

/-- `Verifier::macCheckZero`, one component, at verifier `id`: the masked words of all verifiers
add up to 0.  An honest verifier opens what it committed to, so the comparison of the commitments
is left out. -/
def macCheckZero (n : ℕ) (deal : ℕ → ℕ → ℕ) (o : ℕ → ℕ) (id : ℕ) : Bool :=
  let msg := fun i => FP59.addMod (o i) (zeroShare n deal i)
  (others n id).foldl (fun sum j => FP59.addMod sum (msg j)) (msg id) == 0

/-- `Verifier::checkPublic`, up to the masked check: the word `mac - key - v * delta` of one
verifier, with the coefficients `chi`. -/
def checkPublicShare (sh : List (AuthShare ℕ)) (claimed chi : List ℕ) (delta : ℕ) : ℕ :=
  let (mac, key, v) := (sh.zip (claimed.zip chi)).foldl (fun (mac, key, v) (s, c, x) =>
    (FP59.addMod mac (FP59.multMod s.mac x), FP59.addMod key (FP59.multMod s.key x),
      FP59.addMod v (FP59.multMod c x))) (0, 0, 0)
  FP59.sub (FP59.sub mac key) (FP59.multMod v delta)

/-- `MvzkExec::reveal` at verifier `id`: the words `vals` received from the prover, if they pass
`checkPublic`. -/
def reveal (n : ℕ) (sh : ℕ → List (AuthShare ℕ)) (delta : ℕ → ℕ) (deal : ℕ → ℕ → ℕ)
    (chi vals : List ℕ) (id : ℕ) : Option (List ℕ) :=
  if macCheckZero n deal (fun i => checkPublicShare (sh i) vals chi (delta i)) id then some vals
  else none

/-! ## A wire -/

/-- The class of a share of words. -/
def AuthShare.cast (s : AuthShare ℕ) : AuthShare (ZMod P59) where
  mac := s.mac
  key := s.key
  share := s.share

/-- A wire of value `x`, the keys of the verifiers, the words dealt for the masks and the
coefficient: what the verifiers hold when they check a word for it. -/
structure Wire (n x : ℕ) (sh : ℕ → AuthShare ℕ) (delta : ℕ → ℕ) (deal : ℕ → ℕ → ℕ) (chi : ℕ) :
    Prop where
  /-- The value is canonical. -/
  value_lt : x < P59
  /-- The verifiers hold shares of the value. -/
  shared : Shared n (fun i => (delta i : ZMod P59)) (fun i => (sh i).cast) x
  /-- MACs are canonical. -/
  mac_lt : ∀ i, (sh i).mac < P59
  /-- Keys are canonical. -/
  key_lt : ∀ i, (sh i).key < P59
  /-- The verifiers' parts of the global key are canonical. -/
  delta_lt : ∀ i, delta i < P59
  /-- The global key is not 0. -/
  delta_ne : ∑ i ∈ range n, (delta i : ZMod P59) ≠ 0
  /-- The words dealt for the masks are canonical. -/
  deal_lt : ∀ i j, deal i j < P59
  /-- The coefficient is canonical. -/
  chi_lt : chi < P59
  /-- The coefficient is not 0. -/
  chi_ne : chi ≠ 0

/-! ## Sums of words -/

theorem foldl_addMod_lt {ι : Type*} {f : ι → ℕ} (hf : ∀ i, f i < P59) (l : List ι) {a : ℕ}
    (ha : a < P59) : l.foldl (fun acc j => FP59.addMod acc (f j)) a < P59 := by
  induction l generalizing a with
  | nil => exact ha
  | cons i l ih => exact ih (FP59.addMod_lt ha (hf i))

theorem foldl_addMod_cast {ι : Type*} {f : ι → ℕ} (hf : ∀ i, f i < P59) (l : List ι) {a : ℕ}
    (ha : a < P59) : ((l.foldl (fun acc j => FP59.addMod acc (f j)) a : ℕ) : ZMod P59)
      = a + (l.map fun j => (f j : ZMod P59)).sum := by
  induction l generalizing a with
  | nil => simp
  | cons i l ih =>
    rw [List.foldl_cons, ih (FP59.addMod_lt ha (hf i)), FP59.addMod_cast ha (hf i),
      List.map_cons, List.sum_cons]
    ring

theorem sum_others {n id : ℕ} (hid : id < n) (f : ℕ → ZMod P59) :
    ((others n id).map f).sum = ∑ j ∈ range n, f j - f id := by
  have hmem : id ∈ range n := mem_range.mpr hid
  have herase : (others n id).toFinset = (range n).erase id := by
    ext j
    simp [others, and_comm]
  have hnodup : (others n id).Nodup := List.nodup_range.filter _
  rw [← List.sum_toFinset f hnodup, herase, ← sum_erase_add _ _ hmem, add_sub_cancel_right]

theorem sum_ringPeers {n id : ℕ} (hid : id < n) (f : ℕ → ZMod P59) :
    ((ringPeers n id).map f).sum = ∑ j ∈ range n, f j - f id := by
  rw [((ringPeers_perm hid).map f).sum_eq, sum_others hid]

/-! ## The masks -/

/-- What `zero_shares` uses of words. -/
def wordShareOps : ShareOps ℕ := ⟨0, FP59.addMod, FP59.negate⟩

/-- **The masks that the exchange leaves** at a verifier. -/
theorem zeroOut_words {M : Mesh ℕ} {s : MeshState ℕ} {ts : List MeshTransfer}
    (hrun : Runs.run (MeshState.step M) (MeshState.init M) ts = some s) {i c cnt : ℕ}
    (hi : i < M.n) {received : List (ℕ × MeshBuf ℕ)}
    (hreturned : (s.party i).returned[c]? = some received) {deal : ℕ → ℕ → ℕ → ℕ}
    (hcall : ∀ j < M.n, M.call j c = .zeroShares cnt (deal j)) :
    zeroOut wordShareOps (zeroOwn wordShareOps M.n i cnt (deal i)) received
      = (List.range cnt).map fun l => zeroShare M.n (fun i j => deal i j l) i :=
  MeshState.zeroOut_eq wordShareOps hrun hi hreturned hcall

theorem zeroShare_lt {n : ℕ} {deal : ℕ → ℕ → ℕ} (hdeal : ∀ i j, deal i j < P59) (id : ℕ) :
    zeroShare n deal id < P59 :=
  foldl_addMod_lt (fun j => hdeal j id) _
    (FP59.negate_lt (foldl_addMod_lt (fun j => hdeal id j) _ P59_pos))

theorem zeroShare_cast {n id : ℕ} {deal : ℕ → ℕ → ℕ} (hdeal : ∀ i j, deal i j < P59)
    (hid : id < n) : (zeroShare n deal id : ZMod P59)
      = ∑ j ∈ range n, (deal j id : ZMod P59) - ∑ j ∈ range n, (deal id j : ZMod P59) := by
  have hacc := foldl_addMod_lt (fun j => hdeal id j) (others n id) P59_pos
  rw [zeroShare, foldl_addMod_cast (fun j => hdeal j id) _ (FP59.negate_lt hacc),
    FP59.negate_cast hacc, foldl_addMod_cast (fun j => hdeal id j) _ P59_pos,
    sum_others hid, sum_ringPeers hid]
  push_cast
  ring

/-- **The masks add up to 0.** -/
theorem sum_zeroShare {n : ℕ} {deal : ℕ → ℕ → ℕ} (hdeal : ∀ i j, deal i j < P59) :
    ∑ i ∈ range n, (zeroShare n deal i : ZMod P59) = 0 := by
  have hterm : ∀ i ∈ range n, (zeroShare n deal i : ZMod P59)
      = ∑ j ∈ range n, (deal j i : ZMod P59) - ∑ j ∈ range n, (deal i j : ZMod P59) :=
    fun i hi => zeroShare_cast hdeal (mem_range.mp hi)
  rw [sum_congr rfl hterm, sum_sub_distrib, sum_comm, sub_self]

/-- **The masked check**: the published words add up to 0 if and only if the masked ones do. -/
theorem macCheckZero_iff {n id : ℕ} {deal : ℕ → ℕ → ℕ} {o : ℕ → ℕ}
    (hdeal : ∀ i j, deal i j < P59) (ho : ∀ i, o i < P59) (hid : id < n) :
    macCheckZero n deal o id = true ↔ ∑ i ∈ range n, (o i : ZMod P59) = 0 := by
  have hmsg : ∀ i, FP59.addMod (o i) (zeroShare n deal i) < P59 := fun i =>
    FP59.addMod_lt (ho i) (zeroShare_lt hdeal i)
  have hsum : (((others n id).foldl
      (fun sum j => FP59.addMod sum (FP59.addMod (o j) (zeroShare n deal j)))
      (FP59.addMod (o id) (zeroShare n deal id)) : ℕ) : ZMod P59)
        = ∑ i ∈ range n, (o i : ZMod P59) := by
    have hcast : ∀ i, (FP59.addMod (o i) (zeroShare n deal i) : ZMod P59)
        = o i + zeroShare n deal i := fun i => FP59.addMod_cast (ho i) (zeroShare_lt hdeal i)
    rw [foldl_addMod_cast hmsg _ (hmsg id), sum_others hid]
    simp only [hcast, sum_add_distrib, sum_zeroShare hdeal]
    ring
  rw [macCheckZero, beq_iff_eq, ← hsum]
  refine ⟨fun h => by rw [h, Nat.cast_zero], fun h => ?_⟩
  exact FP59.eq_of_cast_eq (foldl_addMod_lt hmsg _ (hmsg id)) P59_pos (by rw [h, Nat.cast_zero])

/-! ## The check of one wire -/

theorem checkPublicShare_singleton (s : AuthShare ℕ) (c x delta : ℕ) :
    checkPublicShare [s] [c] [x] delta
      = FP59.sub (FP59.sub (FP59.addMod 0 (FP59.multMod s.mac x))
          (FP59.addMod 0 (FP59.multMod s.key x)))
        (FP59.multMod (FP59.addMod 0 (FP59.multMod c x)) delta) := rfl

theorem addMod_zero_left {a : ℕ} (ha : a < P59) : FP59.addMod 0 a = a := by
  rw [FP59.addMod_eq (by omega), Nat.zero_add, Nat.mod_eq_of_lt ha]

section Single

variable {n x chi word id : ℕ} {sh : ℕ → AuthShare ℕ} {delta : ℕ → ℕ} {deal : ℕ → ℕ → ℕ}

/-- What acceptance says of a word whose product with the coefficient is canonical. -/
theorem reveal_eq_some_iff (w : Wire n x sh delta deal chi) (hid : id < n)
    (hprod : FP59.multMod word chi < P59) :
    reveal n (fun i => [sh i]) delta deal [chi] [word] id = some [word]
      ↔ FP59.multMod word chi = FP59.multMod x chi := by
  set c := FP59.multMod word chi with hc
  have hmac := fun i => FP59.multMod_lt (w.mac_lt i) w.chi_lt
  have hkey := fun i => FP59.multMod_lt (w.key_lt i) w.chi_lt
  have ho : ∀ i, checkPublicShare [sh i] [word] [chi] (delta i)
      = FP59.sub (FP59.sub (FP59.multMod (sh i).mac chi) (FP59.multMod (sh i).key chi))
        (FP59.multMod c (delta i)) := by
    intro i
    rw [checkPublicShare_singleton, addMod_zero_left (hmac i), addMod_zero_left (hkey i),
      addMod_zero_left hprod]
  have holt : ∀ i, checkPublicShare [sh i] [word] [chi] (delta i) < P59 := by
    intro i
    rw [ho]
    exact FP59.sub_lt (FP59.sub_lt (hmac i) (hkey i)) (FP59.multMod_lt hprod (w.delta_lt i))
  have hocast : ∀ i, (checkPublicShare [sh i] [word] [chi] (delta i) : ZMod P59)
      = (sh i).mac * chi - (sh i).key * chi - c * delta i := by
    intro i
    rw [ho, FP59.sub_cast (FP59.sub_lt (hmac i) (hkey i)) (FP59.multMod_lt hprod (w.delta_lt i)),
      FP59.sub_cast (hmac i) (hkey i), FP59.multMod_cast (w.mac_lt i) w.chi_lt,
      FP59.multMod_cast (w.key_lt i) w.chi_lt, FP59.multMod_cast hprod (w.delta_lt i)]
  have hmacsum : ∑ i ∈ range n, ((sh i).mac : ZMod P59)
      = ∑ i ∈ range n, ((sh i).key : ZMod P59) + (∑ i ∈ range n, (delta i : ZMod P59)) * x :=
    w.shared.mac_sum
  -- the sum is `(x * chi - c) * Delta`
  have hsum : ∑ i ∈ range n, (checkPublicShare [sh i] [word] [chi] (delta i) : ZMod P59)
      = (x * chi - c) * ∑ i ∈ range n, (delta i : ZMod P59) := by
    simp only [hocast, sum_sub_distrib, ← sum_mul, ← mul_sum]
    rw [hmacsum]
    ring
  have hx := FP59.multMod_cast w.value_lt w.chi_lt
  rw [reveal, Option.ite_none_right_eq_some, macCheckZero_iff w.deal_lt holt hid, hsum,
    mul_eq_zero, or_iff_left w.delta_ne, sub_eq_zero, ← hx]
  refine ⟨fun h => ?_, fun h => ⟨by rw [h], rfl⟩⟩
  exact (FP59.eq_of_cast_eq (FP59.multMod_lt w.value_lt w.chi_lt) hprod h.1).symm

/-- The value of the wire is accepted by every verifier. -/
theorem reveal_complete (w : Wire n x sh delta deal chi) (hid : id < n) :
    reveal n (fun i => [sh i]) delta deal [chi] [x] id = some [x] :=
  (reveal_eq_some_iff w hid (FP59.multMod_lt w.value_lt w.chi_lt)).mpr rfl

/-- A canonical word that is accepted is the value of the wire. -/
theorem eq_of_reveal (w : Wire n x sh delta deal chi) (hid : id < n) (hword : word < P59)
    (h : reveal n (fun i => [sh i]) delta deal [chi] [word] id = some [word]) : word = x := by
  rw [reveal_eq_some_iff w hid (FP59.multMod_lt hword w.chi_lt)] at h
  have hcast : (word : ZMod P59) * chi = x * chi := by
    rw [← FP59.multMod_cast hword w.chi_lt, h, FP59.multMod_cast w.value_lt w.chi_lt]
  have hchi : (chi : ZMod P59) ≠ 0 := fun h0 =>
    w.chi_ne (FP59.eq_of_cast_eq w.chi_lt P59_pos (by rw [h0, Nat.cast_zero]))
  exact FP59.eq_of_cast_eq hword w.value_lt (mul_right_cancel₀ hchi hcast)

/-- The share of verifier 0 in a wire that it holds alone. -/
def aloneShare (x i : ℕ) : AuthShare ℕ := if i = 0 then ⟨x, 0, x⟩ else ⟨0, 0, 0⟩

/-- The part of verifier 0 in a global key 1 that it holds alone. -/
def aloneDelta (i : ℕ) : ℕ := if i = 0 then 1 else 0

theorem sum_alone (hn : 0 < n) {f : ℕ → ZMod P59} (hf : ∀ i ≠ 0, f i = 0) :
    ∑ i ∈ range n, f i = f 0 :=
  sum_eq_single_of_mem 0 (mem_range.mpr hn) fun i _ hi => hf i hi

/-- The wire of value `x` that verifier 0 holds alone, with key 1 and coefficient 1. -/
theorem Wire.alone (hn : 0 < n) (hx : x < P59) :
    Wire n x (aloneShare x) aloneDelta (fun _ _ => 0) 1 := by
  have hP := P59_eq
  have hother : ∀ i ≠ 0, aloneShare x i = ⟨0, 0, 0⟩ := fun i hi => if_neg hi
  have hdelta : ∀ i ≠ 0, aloneDelta i = 0 := fun i hi => if_neg hi
  have hDelta : ∑ i ∈ range n, (aloneDelta i : ZMod P59) = 1 := by
    rw [sum_alone hn fun i hi => by rw [hdelta i hi, Nat.cast_zero]]
    exact Nat.cast_one
  refine ⟨hx, ⟨?_, ?_⟩, fun i => ?_, fun i => ?_, fun i => ?_, ?_, fun _ _ => P59_pos, by omega,
    Nat.one_ne_zero⟩
  · exact sum_alone hn fun i hi => by simp only [hother i hi, AuthShare.cast, Nat.cast_zero]
  · rw [hDelta, one_mul, sum_alone hn, sum_alone hn]
    · simp [aloneShare, AuthShare.cast]
    · exact fun i hi => by simp only [hother i hi, AuthShare.cast, Nat.cast_zero]
    · exact fun i hi => by simp only [hother i hi, AuthShare.cast, Nat.cast_zero]
  · rw [aloneShare]
    split
    · exact hx
    · exact P59_pos
  · rw [aloneShare]
    split <;> exact P59_pos
  · rw [aloneDelta]
    split <;> omega
  · rw [hDelta]
    exact one_ne_zero

/-- **The words for which acceptance pins the returned value down** are the canonical ones: below
`P59` every verifier returns the value of the wire or aborts, and for a word from `P59` on there
is a wire whose verifiers accept it and return it. -/
theorem reveal_sound_iff (hn : 0 < n) (hword : word < 2 ^ 64) :
    (∀ x sh delta deal chi id out, Wire n x sh delta deal chi → id < n →
      reveal n (fun i => [sh i]) delta deal [chi] [word] id = some [out] → out = x ∧ x < P59)
      ↔ word < P59 := by
  refine ⟨fun h => ?_, fun hlt x sh delta deal chi id out w hid hout => ?_⟩
  · have hx : word % P59 < P59 := Nat.mod_lt _ P59_pos
    have w := Wire.alone hn hx
    have hone : FP59.multMod word 1 = FP59.multMod (word % P59) 1 := by
      rw [FP59.multMod_one hword, FP59.multMod_one ((Nat.mod_le _ _).trans_lt hword), Nat.mod_mod]
    have haccept := (reveal_eq_some_iff w hn (by rw [FP59.multMod_one hword]; exact hx)).mpr hone
    rw [(h _ _ _ _ _ _ _ w hn haccept).1]
    exact hx
  · have hword : out = word := by
      have := hout
      rw [reveal, Option.ite_none_right_eq_some] at this
      exact (List.singleton_inj.mp (Option.some.inj this.2)).symm
    subst hword
    exact ⟨eq_of_reveal w hid hlt hout, w.value_lt⟩

end Single

/-! ## Two verifiers -/

/-- The shares of two verifiers in a wire of value `x`, under the global key 7. -/
def splitShare (x : ℕ) : ℕ → AuthShare ℕ
  | 0 => ⟨10, 1, 5⟩
  | 1 => ⟨(7 * x + (P59 - 7)) % P59, 2, (x + (P59 - 5)) % P59⟩
  | _ => ⟨0, 0, 0⟩

/-- Their parts of the global key. -/
def splitDelta : ℕ → ℕ
  | 0 => 3
  | 1 => 4
  | _ => 0

/-- The words that they deal to each other. -/
def splitDeal (i j : ℕ) : ℕ := (2 * i + j + 1) % P59

theorem Wire.split {x chi : ℕ} (hx : x < P59) (hchi : chi < P59) (hne : chi ≠ 0) :
    Wire 2 x (splitShare x) splitDelta splitDeal chi where
  value_lt := hx
  shared := by
    have hfive : ((P59 - 5 : ℕ) : ZMod P59) = -5 := by
      rw [Nat.cast_sub (by decide), ZMod.natCast_self, zero_sub]
      rfl
    have hseven : ((P59 - 7 : ℕ) : ZMod P59) = -7 := by
      rw [Nat.cast_sub (by decide), ZMod.natCast_self, zero_sub]
      rfl
    constructor
    · simp only [sum_range_succ, range_zero, sum_empty, splitShare, AuthShare.cast]
      rw [ZMod.natCast_mod, Nat.cast_add, hfive]
      push_cast
      ring
    · simp only [sum_range_succ, range_zero, sum_empty, splitShare, splitDelta, AuthShare.cast]
      rw [ZMod.natCast_mod, Nat.cast_add, hseven]
      push_cast
      ring
  mac_lt i := by
    rw [splitShare.eq_def]
    split
    · decide
    · exact Nat.mod_lt _ P59_pos
    · exact P59_pos
  key_lt i := by
    rw [splitShare.eq_def]
    split
    · decide
    · show 2 < P59
      decide
    · exact P59_pos
  delta_lt i := by
    rw [splitDelta.eq_def]
    split <;> decide
  delta_ne := by decide +kernel
  deal_lt _ _ := Nat.mod_lt _ P59_pos
  chi_lt := hchi
  chi_ne := hne

/-- Two verifiers, the word 5. -/
theorem reveal_sound_five :
    (∀ x sh delta deal chi id out, Wire 2 x sh delta deal chi → id < 2 →
      reveal 2 (fun i => [sh i]) delta deal [chi] [5] id = some [out] → out = x ∧ x < P59)
      ↔ 5 < P59 :=
  reveal_sound_iff (by decide) (by decide)

/-- The word `P59` is accepted by both verifiers for a wire of value 0, and returned. -/
theorem reveal_noncanonical : ∃ x sh delta deal chi, Wire 2 x sh delta deal chi ∧
    ∀ id < 2, ∃ out, reveal 2 (fun i => [sh i]) delta deal [chi] [P59] id = some [out] ∧ out ≠ x :=
  ⟨0, _, _, _, 1, Wire.split P59_pos (by decide) (by decide), fun id hid =>
    ⟨P59, by interval_cases id <;> decide +kernel, by decide⟩⟩

end VoleZk.Mvzk
