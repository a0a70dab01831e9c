import VoleZk.Lib.Runs
import Mathlib.Data.Finset.Max
import Mathlib.Data.List.Perm.Basic
import Mathlib.Data.Prod.Lex

/-!
# The exchanges of the verifiers

In `exchange_all` and `zero_shares` a verifier sends one buffer to every other verifier, and
receives one from each.  A pool thread sends, along the ring of ids; the main thread receives,
against it.  Here nothing is buffered between two verifiers: a send completes only together with
the receive at the other end.

A verifier sends to another at the same step of its walk at which that one receives from it.  So
the verifiers, each with two threads that may be in different calls, cannot wait for each other in
a circle: where a walk is least, by the call and then by the step, the other end has come exactly
as far.

## What is here

* `Channel`, `sendCh`, `recvCh` — the connections of a pair, and **one for each direction**;
* `MeshCall`, `Mesh` — the calls of all verifiers;
* `MeshState.step` — a buffer that goes over a connection;
* `ringStep` — the step at which a buffer is sent and received;
* `MeshState.Inv` — what went over each connection, and what the buffers hold;
* `MeshState.exchange_exact` — **every buffer arrives, in its call, and nothing blocks**;
* `MeshState.recvBuf_eq`, `MeshState.zeroOut_eq` — what the calls return.
-/

set_option autoImplicit false

namespace VoleZk.Mvzk

/-! ## The ring -/

/-- The verifiers other than `id`, in the order of the loops `for (j = 0; j < n; ++j)`. -/
def others (n id : ℕ) : List ℕ := (List.range n).filter (· ≠ id)

/-- The verifiers other than `id`, in the order of the ring: `j = (id + n - 1) % n`, then
`j = (j + n - 1) % n` as long as `j != id`. -/
def ringPeers (n id : ℕ) : List ℕ := (List.range (n - 1)).map fun s => (id + n - 1 - s) % n

/-! ## The connections -/

/-- A connection of a pair of verifiers. -/
structure Channel where
  /-- The lower id. -/
  lo : ℕ
  /-- The higher id. -/
  hi : ℕ
  /-- The number of the connection among those of the pair. -/
  num : ℕ
  deriving DecidableEq

/-- `ios[j][k]` of verifier `id`. -/
def ios (id j k : ℕ) : Channel := ⟨min id j, max id j, k⟩

/-- `send_ch(j)` of verifier `id`. -/
def sendCh (id j : ℕ) : Channel := ios id j (if j < id then 0 else 1)

/-- `recv_ch(j)` of verifier `id`. -/
def recvCh (id j : ℕ) : Channel := ios id j (if j < id then 1 else 0)

/-! ## The calls -/

/-- What goes over a connection at once. -/
inductive MeshBuf (T : Type) where
  /-- Bytes. -/
  | bytes (b : List UInt8)
  /-- Values, as they lie in memory. -/
  | elems (v : List T)

/-- How much a `send_data` or a `recv_data` moves. -/
inductive MeshSize where
  /-- `bytes`. -/
  | bytes (k : ℕ)
  /-- `cnt * sizeof(T)`. -/
  | elems (cnt : ℕ)
  deriving DecidableEq

/-- The length of a buffer. -/
def MeshBuf.size {T : Type} : MeshBuf T → MeshSize
  | .bytes b => .bytes b.length
  | .elems v => .elems v.length

/-- A call of a verifier. -/
inductive MeshCall (T : Type) where
  /-- `exchange_all`, with the bytes at `send_buf`. -/
  | exchangeAll (sendBuf : List UInt8)
  /-- `zero_shares` of `cnt` values; `deal j c` is what `deal[j][c]` is drawn as. -/
  | zeroShares (cnt : ℕ) (deal : ℕ → ℕ → T)

namespace MeshCall

variable {T : Type}

/-- What the call sends to `j`. -/
def buf (j : ℕ) : MeshCall T → MeshBuf T
  | exchangeAll sendBuf => .bytes sendBuf
  | zeroShares cnt deal => .elems ((List.range cnt).map (deal j))

/-- How much it receives from each. -/
def size : MeshCall T → MeshSize
  | exchangeAll sendBuf => .bytes sendBuf.length
  | zeroShares cnt _ => .elems cnt

@[simp] theorem size_buf (call : MeshCall T) (j : ℕ) : (call.buf j).size = call.size := by
  cases call with
  | exchangeAll sendBuf => rfl
  | zeroShares cnt deal => simp [buf, size, MeshBuf.size]

end MeshCall

/-! ## What the calls return -/

section Results

variable {T : Type}

/-- The bytes of a buffer of bytes. -/
def MeshBuf.toBytes : MeshBuf T → List UInt8
  | .bytes b => b
  | .elems _ => []

/-- The values of a buffer of values. -/
def MeshBuf.toElems : MeshBuf T → List T
  | .bytes _ => []
  | .elems v => v

/-- `recv_buf` of `exchange_all`, from what the call received. -/
def recvBuf (received : List (ℕ × MeshBuf T)) : ℕ → List UInt8 :=
  received.foldl (fun buf r => Function.update buf r.1 r.2.toBytes) fun _ => []

/-- What `zero_shares` uses of the type of its values. -/
structure ShareOps (T : Type) where
  /-- `T(0, false)`. -/
  zero : T
  /-- `operator+`. -/
  add : T → T → T
  /-- `negate()`. -/
  negate : T → T

variable (ops : ShareOps T)

/-- `own` of `zero_shares`. -/
def zeroOwn (n id cnt : ℕ) (deal : ℕ → ℕ → T) : List T :=
  (List.range cnt).map fun c =>
    ops.negate ((others n id).foldl (fun acc j => ops.add acc (deal j c)) ops.zero)

/-- `out` of `zero_shares`, from what the call received. -/
def zeroOut (own : List T) (received : List (ℕ × MeshBuf T)) : List T :=
  received.foldl (fun out r => List.zipWith ops.add out r.2.toElems) own

end Results

/-- The verifiers, and the calls that each of them makes. -/
structure Mesh (T : Type) where
  /-- `n`. -/
  n : ℕ
  /-- There are at least two. -/
  two_le : 2 ≤ n
  /-- How many calls each of them makes. -/
  count : ℕ
  /-- The calls of each verifier, in order. -/
  call : ℕ → ℕ → MeshCall T
  /-- All make the same calls: the same functions, with the same amounts. -/
  same : ∀ i < n, ∀ j < n, ∀ c < count, (call i c).size = (call j c).size

/-! ## The verifiers -/

/-- A verifier. -/
structure MeshParty (T : Type) where
  /-- The calls that have returned: what each received, and from whom, in order. -/
  returned : List (List (ℕ × MeshBuf T))
  /-- `j` of the pool thread, which sends. -/
  tx : ℕ
  /-- `j` of the main thread, which receives. -/
  rx : ℕ
  /-- What the call under way has received, and from whom. -/
  got : List (ℕ × MeshBuf T)

/-- All verifiers. -/
structure MeshState (T : Type) where
  /-- By id. -/
  party : ℕ → MeshParty T

/-- A buffer goes over a connection. -/
structure MeshTransfer where
  /-- Who sends. -/
  src : ℕ
  /-- Who receives. -/
  dst : ℕ
  /-- The connection. -/
  ch : Channel

namespace MeshParty

variable {T : Type} (n id : ℕ) (p : MeshParty T)

/-- The number of the call under way. -/
def call : ℕ := p.returned.length

/-- Both threads are at the start of their walk. -/
def enter (returned : List (List (ℕ × MeshBuf T))) : MeshParty T :=
  ⟨returned, (id + 1) % n, (id + n - 1) % n, []⟩

/-- The walks end at `id`.  When both have ended the call returns, which is up to nobody else, and
the next one is entered. -/
def settle : MeshParty T :=
  if p.tx = id ∧ p.rx = id then enter n id (p.returned ++ [p.got]) else p

/-- One turn of the loop that sends. -/
def sent : MeshParty T := settle n id { p with tx := (p.tx + 1) % n }

/-- One turn of the loop that receives. -/
def received (buf : MeshBuf T) : MeshParty T :=
  settle n id { p with rx := (p.rx + n - 1) % n, got := p.got ++ [(p.rx, buf)] }

end MeshParty

namespace MeshState

variable {T : Type} (M : Mesh T)

/-- All verifiers have entered their first call. -/
def init : MeshState T := ⟨fun i => .enter M.n i []⟩

/-- The pool thread of verifier `i` waits in `send_data`. -/
def Sends (s : MeshState T) (i : ℕ) : Prop :=
  i < M.n ∧ (s.party i).call < M.count ∧ (s.party i).tx ≠ i

/-- The main thread of verifier `j` waits in `recv_data`. -/
def Receives (s : MeshState T) (j : ℕ) : Prop :=
  j < M.n ∧ (s.party j).call < M.count ∧ (s.party j).rx ≠ j

instance (s : MeshState T) (i : ℕ) : Decidable (s.Sends M i) := inferInstanceAs (Decidable (_ ∧ _))

instance (s : MeshState T) (j : ℕ) : Decidable (s.Receives M j) :=
  inferInstanceAs (Decidable (_ ∧ _))

/-- The buffer that verifier `i` sends. -/
def outgoing (s : MeshState T) (i : ℕ) : MeshBuf T :=
  (M.call i (s.party i).call).buf (s.party i).tx

/-- Both ends after a transfer. -/
def transfer (s : MeshState T) (i j : ℕ) : MeshState T where
  party a :=
    if a = i then (s.party i).sent M.n i
    else if a = j then (s.party j).received M.n j (s.outgoing M i)
    else s.party a

/-- A send and a receive, at the two ends of one connection and of the same amount, complete. -/
def step (s : MeshState T) (t : MeshTransfer) : Option (MeshState T) :=
  if (s.Sends M t.src ∧ s.Receives M t.dst) ∧ t.src ≠ t.dst ∧
      (sendCh t.src (s.party t.src).tx = t.ch ∧ recvCh t.dst (s.party t.dst).rx = t.ch) ∧
      (s.outgoing M t.src).size = (M.call t.dst (s.party t.dst).call).size then
    some (s.transfer M t.src t.dst)
  else none

end MeshState

/-! ## One connection for each direction -/

/-- The two ends of a connection that is sent on and received from. -/
theorem ends_of_sendCh_eq_recvCh {i j a b : ℕ} (hij : i ≠ j) (h : sendCh i a = recvCh j b) :
    a = j ∧ b = i := by
  simp only [sendCh, recvCh, ios, Channel.mk.injEq] at h
  omega

/-- What one end sends on, the other receives from. -/
theorem sendCh_eq_recvCh {i j : ℕ} (hij : i ≠ j) : sendCh i j = recvCh j i := by
  rcases Nat.lt_or_gt_of_ne hij with h | h
  · simp [sendCh, recvCh, ios, min_comm, max_comm, h, Nat.lt_asymm h]
  · simp [sendCh, recvCh, ios, min_comm, max_comm, h, Nat.lt_asymm h]

/-- **A connection has one direction.** -/
theorem sendCh_inj {i j i' j' : ℕ} (h : sendCh i j = sendCh i' j') : i = i' ∧ j = j' := by
  simp only [sendCh, ios, Channel.mk.injEq] at h
  obtain ⟨hlo, hhi, hnum⟩ := h
  split at hnum <;> split at hnum <;> omega

/-! ## The steps of the ring -/

/-- The step of its walk at which `i` sends to `j`, and at which `j` receives from `i`. -/
def ringStep (n i j : ℕ) : ℕ := (j + n - 1 - i) % n

section Ring

variable {n i j k : ℕ}

theorem ring_index {n id s : ℕ} (hid : id < n) :
    (id + n - 1 - s) % n = if s < id then id - 1 - s else id + n - 1 - s := by
  split
  · rw [show id + n - 1 - s = n + (id - 1 - s) by omega, Nat.add_mod_left,
      Nat.mod_eq_of_lt (by omega)]
  · rw [Nat.mod_eq_of_lt (by omega)]

theorem ringStep_eq (hj : j < n) :
    ringStep n i j = if i < j then j - 1 - i else j + n - 1 - i := ring_index hj

theorem ringStep_self (hi : i < n) : ringStep n i i = n - 1 := by
  rw [ringStep_eq hi, if_neg (Nat.lt_irrefl i)]
  omega

theorem ringStep_lt (hi : i < n) (hj : j < n) (hij : i ≠ j) : ringStep n i j < n - 1 := by
  rw [ringStep_eq hj]
  split <;> omega

theorem succ_mod_eq (hj : j < n) : (j + 1) % n = if j + 1 = n then 0 else j + 1 := by
  split
  · rename_i h
    rw [h, Nat.mod_self]
  · rw [Nat.mod_eq_of_lt (by omega)]

theorem pred_mod_eq (hj : j < n) : (j + n - 1) % n = if 0 < j then j - 1 else j + n - 1 :=
  ring_index (s := 0) hj

/-- The sending thread goes to the next. -/
theorem ringStep_succ (hi : i < n) (hj : j < n) (hij : i ≠ j) :
    ringStep n i ((j + 1) % n) = ringStep n i j + 1 := by
  rw [ringStep_eq (Nat.mod_lt _ (by omega)), ringStep_eq hj, succ_mod_eq hj]
  split_ifs <;> omega

/-- The receiving thread goes to the next. -/
theorem ringStep_pred (hi : i < n) (hj : j < n) (hij : i ≠ j) :
    ringStep n ((i + n - 1) % n) j = ringStep n i j + 1 := by
  rw [ringStep_eq hj, ringStep_eq hj, pred_mod_eq hi]
  split_ifs <;> omega

theorem ringStep_right_inj (hi : i < n) (hj : j < n) (hk : k < n) :
    ringStep n i j = ringStep n i k ↔ j = k := by
  rw [ringStep_eq hj, ringStep_eq hk]
  split_ifs <;> omega

theorem ringStep_left_inj (hi : i < n) (hj : j < n) (hk : k < n) :
    ringStep n j i = ringStep n k i ↔ j = k := by
  rw [ringStep_eq hi, ringStep_eq hi]
  split_ifs <;> omega

/-- The first step of the loop that sends. -/
theorem ringStep_first_send (hi : i < n) (hn : 2 ≤ n) : ringStep n i ((i + 1) % n) = 0 := by
  rw [ringStep_eq (Nat.mod_lt _ (by omega)), succ_mod_eq hi]
  split_ifs <;> omega

/-- The first step of the loop that receives. -/
theorem ringStep_first_recv (hi : i < n) (hn : 2 ≤ n) : ringStep n ((i + n - 1) % n) i = 0 := by
  rw [ringStep_eq hi, pred_mod_eq hi]
  split_ifs <;> omega

@[simp] theorem length_ringPeers (n id : ℕ) : (ringPeers n id).length = n - 1 := by
  simp [ringPeers]

/-- **The ring, by its steps.** -/
theorem getElem?_ringPeers (hi : i < n) (hj : j < n) (hij : j ≠ i) :
    (ringPeers n i)[ringStep n j i]? = some j := by
  have hlt := ringStep_lt hj hi hij
  have hplace : (i + n - 1 - ringStep n j i) % n = j := by
    rw [ringStep_eq hi]
    split
    · rw [show i + n - 1 - (i - 1 - j) = n + j by omega, Nat.add_mod_left, Nat.mod_eq_of_lt hj]
    · rw [show i + n - 1 - (i + n - 1 - j) = j by omega, Nat.mod_eq_of_lt hj]
  rw [ringPeers, List.getElem?_map, List.getElem?_range hlt, Option.map_some, hplace]

theorem mem_ringPeers (hi : i < n) : j ∈ ringPeers n i ↔ j < n ∧ j ≠ i := by
  constructor
  · intro hmem
    obtain ⟨s, hs, rfl⟩ := List.mem_map.mp hmem
    rw [List.mem_range] at hs
    rw [ring_index hi]
    split <;> omega
  · rintro ⟨hj, hji⟩
    exact List.mem_of_getElem? (getElem?_ringPeers hi hj hji)

/-- The ring passes every other verifier once. -/
theorem ringPeers_perm {n id : ℕ} (hid : id < n) : (ringPeers n id).Perm (others n id) := by
  refine (List.perm_ext_iff_of_nodup ?_ (List.nodup_range.filter _)).mpr fun j => ?_
  · refine List.Nodup.map_on (fun s hs t ht hst => ?_) List.nodup_range
    rw [List.mem_range] at hs ht
    rw [ring_index hid, ring_index hid] at hst
    split at hst <;> split at hst <;> omega
  · rw [mem_ringPeers hid]
    simp

end Ring

/-! ## One verifier -/

namespace MeshParty

variable {T : Type} (n id : ℕ) (p : MeshParty T)

/-- How many buffers have gone to `j`. -/
def sentTo (j : ℕ) : ℕ := p.call + if ringStep n id j < ringStep n id p.tx then 1 else 0

/-- How many have come from `j`. -/
def receivedFrom (j : ℕ) : ℕ := p.call + if ringStep n j id < ringStep n p.rx id then 1 else 0

/-- What verifier `i` receives in its call number `c`. -/
def expected (M : Mesh T) (i c : ℕ) : List (ℕ × MeshBuf T) :=
  (ringPeers M.n i).map fun j => (j, (M.call j c).buf i)

/-- The threads are on the ring, and the buffers hold what was sent. -/
structure Exact (M : Mesh T) (i : ℕ) (p : MeshParty T) : Prop where
  /-- The sending thread is at a verifier. -/
  tx_lt : p.tx < M.n
  /-- The receiving thread is. -/
  rx_lt : p.rx < M.n
  /-- What the calls received that have returned. -/
  returned : ∀ c rec, p.returned[c]? = some rec → rec = expected M i c
  /-- What the call under way has received. -/
  got : p.got = (expected M i p.call).take (ringStep M.n p.rx i)

variable {n id p}

@[simp] theorem call_enter (l : List (List (ℕ × MeshBuf T))) : (enter n id l).call = l.length := rfl

@[simp] theorem call_mk (tx rx : ℕ) (got : List (ℕ × MeshBuf T)) :
    (⟨p.returned, tx, rx, got⟩ : MeshParty T).call = p.call := rfl

/-- When a call returns, a buffer has gone to each. -/
theorem sentTo_settle (hid : id < n) (hn : 2 ≤ n) {k : ℕ} (hk : k < n) (hkid : id ≠ k) :
    (p.settle n id).sentTo n id k = p.sentTo n id k := by
  rw [settle]
  split
  · rename_i h
    have hlt := ringStep_lt hid hk hkid
    rw [sentTo, sentTo, h.1, ringStep_self hid, if_pos hlt, call_enter, List.length_append,
      enter, ringStep_first_send hid hn, if_neg (Nat.not_lt_zero _)]
    rfl
  · rfl

/-- And one has come from each. -/
theorem receivedFrom_settle (hid : id < n) (hn : 2 ≤ n) {k : ℕ} (hk : k < n) (hkid : k ≠ id) :
    (p.settle n id).receivedFrom n id k = p.receivedFrom n id k := by
  rw [settle]
  split
  · rename_i h
    have hlt := ringStep_lt hk hid hkid
    rw [receivedFrom, receivedFrom, h.2, ringStep_self hid, if_pos hlt, call_enter,
      List.length_append, enter, ringStep_first_recv hid hn, if_neg (Nat.not_lt_zero _)]
    rfl
  · rfl

theorem busy_settle (hid : id < n) (hn : 2 ≤ n) :
    ¬((p.settle n id).tx = id ∧ (p.settle n id).rx = id) := by
  rw [settle]
  split
  · rintro ⟨htx, -⟩
    have hnext : (id + 1) % n = id := htx
    rw [succ_mod_eq hid] at hnext
    split at hnext <;> omega
  · assumption

/-- **A send**, by receiver. -/
theorem sentTo_sent (hid : id < n) (hn : 2 ≤ n) (htx : p.tx < n) (hne : p.tx ≠ id) {k : ℕ}
    (hk : k < n) (hkid : id ≠ k) :
    (p.sent n id).sentTo n id k = p.sentTo n id k + if k = p.tx then 1 else 0 := by
  rw [sent, sentTo_settle hid hn hk hkid, sentTo, sentTo, call_mk,
    ringStep_succ hid htx hne.symm, Nat.add_assoc]
  congr 1
  have hinj := ringStep_right_inj hid hk htx
  split_ifs <;> omega

theorem receivedFrom_sent (hid : id < n) (hn : 2 ≤ n) {k : ℕ} (hk : k < n) (hkid : k ≠ id) :
    (p.sent n id).receivedFrom n id k = p.receivedFrom n id k := by
  rw [sent, receivedFrom_settle hid hn hk hkid]
  rfl

/-- **A receive**, by sender. -/
theorem receivedFrom_received (hid : id < n) (hn : 2 ≤ n) (hrx : p.rx < n) (hne : p.rx ≠ id)
    (buf : MeshBuf T) {k : ℕ} (hk : k < n) (hkid : k ≠ id) :
    (p.received n id buf).receivedFrom n id k
      = p.receivedFrom n id k + if k = p.rx then 1 else 0 := by
  rw [received, receivedFrom_settle hid hn hk hkid, receivedFrom, receivedFrom, call_mk,
    ringStep_pred hrx hid hne, Nat.add_assoc]
  congr 1
  have hinj := ringStep_left_inj hid hk hrx
  split_ifs <;> omega

theorem sentTo_received (hid : id < n) (hn : 2 ≤ n) (buf : MeshBuf T) {k : ℕ} (hk : k < n)
    (hkid : id ≠ k) : (p.received n id buf).sentTo n id k = p.sentTo n id k := by
  rw [received, sentTo_settle hid hn hk hkid]
  rfl

/-! ### What the buffers hold -/

variable {M : Mesh T} {i : ℕ}

theorem exact_enter (hi : i < M.n) {l : List (List (ℕ × MeshBuf T))}
    (hl : ∀ c rec, l[c]? = some rec → rec = expected M i c) : (enter M.n i l).Exact M i where
  tx_lt := Nat.mod_lt _ (by omega)
  rx_lt := Nat.mod_lt _ (by omega)
  returned := hl
  got := by
    rw [enter, ringStep_first_recv hi M.two_le]
    rfl

/-- **A call that returns** has received everything. -/
theorem Exact.settle (h : p.Exact M i) (hi : i < M.n) : (p.settle M.n i).Exact M i := by
  rw [MeshParty.settle]
  split
  · rename_i hends
    refine exact_enter hi fun c rec hrec => ?_
    rcases Nat.lt_trichotomy c p.call with hlt | rfl | hgt
    · exact h.returned c rec (List.getElem?_append_left hlt ▸ hrec)
    · have hall : p.got = expected M i p.call := by
        rw [h.got, hends.2, ringStep_self hi]
        exact List.take_of_length_le (by simp [expected])
      rw [call, List.getElem?_concat_length, Option.some_inj] at hrec
      exact hrec ▸ hall
    · rw [List.getElem?_eq_none (by simpa [call] using Nat.succ_le_of_lt hgt)] at hrec
      exact absurd hrec (by simp)
  · exact h

theorem Exact.sent (h : p.Exact M i) (hi : i < M.n) : (p.sent M.n i).Exact M i :=
  Exact.settle (p := ⟨p.returned, (p.tx + 1) % M.n, p.rx, p.got⟩)
    ⟨Nat.mod_lt _ (by omega), h.rx_lt, h.returned, h.got⟩ hi

/-- The right buffer. -/
theorem Exact.received (h : p.Exact M i) (hi : i < M.n) (hne : p.rx ≠ i) :
    (p.received M.n i ((M.call p.rx p.call).buf i)).Exact M i := by
  refine Exact.settle (p := ⟨p.returned, p.tx, (p.rx + M.n - 1) % M.n, _⟩)
    ⟨h.tx_lt, Nat.mod_lt _ (by omega), h.returned, ?_⟩ hi
  have hnext : (expected M i p.call)[ringStep M.n p.rx i]?
      = some (p.rx, (M.call p.rx p.call).buf i) := by
    rw [expected, List.getElem?_map, getElem?_ringPeers hi h.rx_lt hne, Option.map_some]
  change p.got ++ _ = (expected M i p.call).take (ringStep M.n ((p.rx + M.n - 1) % M.n) i)
  rw [h.got, ringStep_pred h.rx_lt hi hne, List.take_add_one, hnext, Option.toList_some]

end MeshParty

/-! ## All verifiers -/

namespace MeshState

variable {T : Type} {M : Mesh T} {s : MeshState T}

/-- What holds in every reachable state. -/
structure Inv (M : Mesh T) (s : MeshState T) : Prop where
  /-- The threads and the buffers of each verifier. -/
  exact : ∀ i < M.n, (s.party i).Exact M i
  /-- A call returns when both threads are through. -/
  busy : ∀ i < M.n, ¬((s.party i).tx = i ∧ (s.party i).rx = i)
  /-- A buffer leaves one end when it arrives at the other. -/
  agree : ∀ i < M.n, ∀ j < M.n, i ≠ j →
    (s.party i).sentTo M.n i j = (s.party j).receivedFrom M.n j i

theorem inv_init (M : Mesh T) : (init M).Inv M where
  exact i hi := MeshParty.exact_enter hi fun _ _ h => absurd h (by simp)
  busy i hi := by
    have hne : (i + 1) % M.n ≠ i := by
      have htwo := M.two_le
      rw [succ_mod_eq hi]
      split <;> omega
    exact fun h => hne h.1
  agree i hi j hj _ := by
    simp [init, MeshParty.sentTo, MeshParty.receivedFrom, MeshParty.enter,
      ringStep_first_send hi M.two_le, ringStep_first_recv hj M.two_le, MeshParty.call]

/-- **What a transfer is.** -/
theorem step_eq_some {t : MeshTransfer} {s' : MeshState T} (h : s.step M t = some s') :
    (s.Sends M t.src ∧ s.Receives M t.dst) ∧ t.src ≠ t.dst ∧
      ((s.party t.src).tx = t.dst ∧ (s.party t.dst).rx = t.src) ∧ t.ch = sendCh t.src t.dst ∧
      s' = s.transfer M t.src t.dst := by
  obtain ⟨⟨hwait, hne, hch, -⟩, hs'⟩ := Option.ite_none_right_eq_some.mp h
  have hends := ends_of_sendCh_eq_recvCh hne (hch.1.trans hch.2.symm)
  exact ⟨hwait, hne, hends, hends.1 ▸ hch.1.symm, (Option.some_inj.mp hs').symm⟩

/-- The ends of a connection that are at it are in the same call. -/
theorem Inv.call_eq (h : s.Inv M) {i j : ℕ} (hi : i < M.n) (hj : j < M.n) (hij : i ≠ j)
    (htx : (s.party i).tx = j) (hrx : (s.party j).rx = i) :
    (s.party i).call = (s.party j).call := by
  have hagree := h.agree i hi j hj hij
  rwa [MeshParty.sentTo, MeshParty.receivedFrom, htx, hrx, if_neg (Nat.lt_irrefl _)] at hagree

section Transfer

variable {i j : ℕ}

theorem party_transfer_src : (s.transfer M i j).party i = (s.party i).sent M.n i := if_pos rfl

theorem party_transfer_dst (hij : i ≠ j) :
    (s.transfer M i j).party j = (s.party j).received M.n j (s.outgoing M i) := by
  simp [MeshState.transfer, hij.symm]

theorem party_transfer_of_ne {a : ℕ} (hai : a ≠ i) (haj : a ≠ j) :
    (s.transfer M i j).party a = s.party a := by
  simp [MeshState.transfer, hai, haj]

/-- **What a transfer adds** at the end that sends. -/
theorem sentTo_transfer (hj : j < M.n) (hij : i ≠ j) (htx : (s.party i).tx = j) {a b : ℕ}
    (ha : a < M.n) (hb : b < M.n) (hab : a ≠ b) :
    ((s.transfer M i j).party a).sentTo M.n a b
      = (s.party a).sentTo M.n a b + if a = i ∧ b = j then 1 else 0 := by
  by_cases hai : a = i
  · subst hai
    rw [party_transfer_src, MeshParty.sentTo_sent ha M.two_le (htx ▸ hj) (htx ▸ hij.symm) hb hab,
      htx]
    simp
  · rw [if_neg fun hboth => hai hboth.1, Nat.add_zero]
    by_cases haj : a = j
    · subst haj
      rw [party_transfer_dst hij, MeshParty.sentTo_received ha M.two_le _ hb hab]
    · rw [party_transfer_of_ne hai haj]

/-- And at the end that receives. -/
theorem receivedFrom_transfer (hi : i < M.n) (hij : i ≠ j) (hrx : (s.party j).rx = i) {a b : ℕ}
    (ha : a < M.n) (hb : b < M.n) (hab : a ≠ b) :
    ((s.transfer M i j).party b).receivedFrom M.n b a
      = (s.party b).receivedFrom M.n b a + if a = i ∧ b = j then 1 else 0 := by
  by_cases hbj : b = j
  · subst hbj
    rw [party_transfer_dst hij, MeshParty.receivedFrom_received hb M.two_le (hrx ▸ hi) (hrx ▸ hij)
      _ ha hab, hrx]
    simp
  · rw [if_neg fun hboth => hbj hboth.2, Nat.add_zero]
    by_cases hbi : b = i
    · subst hbi
      rw [party_transfer_src, MeshParty.receivedFrom_sent hb M.two_le ha hab]
    · rw [party_transfer_of_ne hbi hbj]

/-- The buffer that goes over is the one that the other end should receive. -/
theorem Inv.outgoing_eq (h : s.Inv M) (hi : i < M.n) (hj : j < M.n) (hij : i ≠ j)
    (htx : (s.party i).tx = j) (hrx : (s.party j).rx = i) :
    s.outgoing M i = (M.call (s.party j).rx (s.party j).call).buf j := by
  rw [outgoing, htx, hrx, h.call_eq hi hj hij htx hrx]

/-- **A transfer keeps the invariant.** -/
theorem Inv.transfer (h : s.Inv M) (hi : i < M.n) (hj : j < M.n) (hij : i ≠ j)
    (htx : (s.party i).tx = j) (hrx : (s.party j).rx = i) : (s.transfer M i j).Inv M := by
  refine ⟨fun a ha => ?_, fun a ha => ?_, fun a ha b hb hab => ?_⟩
  · by_cases hai : a = i
    · subst hai
      rw [party_transfer_src]
      exact (h.exact a ha).sent ha
    · by_cases haj : a = j
      · subst haj
        rw [party_transfer_dst hij, h.outgoing_eq hi hj hij htx hrx]
        exact (h.exact a ha).received ha (hrx ▸ hij)
      · rw [party_transfer_of_ne hai haj]
        exact h.exact a ha
  · by_cases hai : a = i
    · subst hai
      rw [party_transfer_src]
      exact MeshParty.busy_settle ha M.two_le
    · by_cases haj : a = j
      · subst haj
        rw [party_transfer_dst hij]
        exact MeshParty.busy_settle ha M.two_le
      · rw [party_transfer_of_ne hai haj]
        exact h.busy a ha
  · rw [sentTo_transfer hj hij htx ha hb hab, receivedFrom_transfer hi hij hrx ha hb hab,
      h.agree a ha b hb hab]

end Transfer

theorem Inv.step (h : s.Inv M) {t : MeshTransfer} {s' : MeshState T}
    (hstep : s.step M t = some s') : s'.Inv M := by
  obtain ⟨⟨hsends, hreceives⟩, hne, ⟨htx, hrx⟩, -, rfl⟩ := step_eq_some hstep
  exact h.transfer hsends.1 hreceives.1 hne htx hrx

theorem inv_of_run {ts : List MeshTransfer} (hrun : Runs.run (step M) (init M) ts = some s) :
    s.Inv M :=
  Runs.invariant_of_run (fun h hstep => h.step hstep) (inv_init M) hrun

/-! ## Progress -/

/-- Two threads at the two ends of a connection. -/
theorem Inv.step_of_facing (h : s.Inv M) {i j : ℕ} (hi : i < M.n) (hj : j < M.n) (hij : i ≠ j)
    (htx : (s.party i).tx = j) (hrx : (s.party j).rx = i) (hcall : (s.party i).call < M.count) :
    (s.step M ⟨i, j, sendCh i j⟩).isSome := by
  have hsame := h.call_eq hi hj hij htx hrx
  have hsize : (s.outgoing M i).size = (M.call j (s.party j).call).size := by
    rw [outgoing, MeshCall.size_buf, ← hsame]
    exact M.same i hi j hj _ hcall
  have hsends : s.Sends M i := ⟨hi, hcall, htx ▸ hij.symm⟩
  have hreceives : s.Receives M j := ⟨hj, hsame ▸ hcall, hrx ▸ hij⟩
  rw [MeshState.step, if_pos ⟨⟨hsends, hreceives⟩, hij,
    ⟨htx ▸ rfl, hrx ▸ (sendCh_eq_recvCh hij).symm⟩, hsize⟩]
  rfl

/-- How far the slower thread of a verifier has come in its call. -/
def slower (M : Mesh T) (s : MeshState T) (i : ℕ) : ℕ :=
  min (ringStep M.n i (s.party i).tx) (ringStep M.n (s.party i).rx i)

/-- No verifier is behind `i`, by the call and then by the step. -/
def Least (M : Mesh T) (s : MeshState T) (i : ℕ) : Prop :=
  ∀ j < M.n, (s.party i).call < (s.party j).call ∨
    (s.party i).call = (s.party j).call ∧ s.slower M i ≤ s.slower M j

/-- **Where a sending thread is least**, the other end receives from it. -/
theorem Inv.rx_eq_of_least (h : s.Inv M) {i : ℕ} (hi : i < M.n) (hleast : s.Least M i)
    (hle : ringStep M.n i (s.party i).tx ≤ ringStep M.n (s.party i).rx i)
    (hne : i ≠ (s.party i).tx) : (s.party (s.party i).tx).rx = i := by
  set j := (s.party i).tx
  have hj : j < M.n := (h.exact i hi).tx_lt
  have hagree := h.agree i hi j hj hne
  rw [MeshParty.sentTo, if_neg (Nat.lt_irrefl _), MeshParty.receivedFrom] at hagree
  have hstep : s.slower M i = ringStep M.n i j := min_eq_left hle
  have hother : s.slower M j ≤ ringStep M.n (s.party j).rx j := min_le_right _ _
  -- were it a step further, it would be behind by a call
  have heq : ringStep M.n (s.party j).rx j = ringStep M.n i j := by
    rcases hleast j hj with hcall | ⟨hcall, hslower⟩
    · split at hagree <;> omega
    · split at hagree <;> omega
  exact (ringStep_left_inj hj (h.exact j hj).rx_lt hi).mp heq

/-- **Where a receiving thread is least**, the other end sends to it. -/
theorem Inv.tx_eq_of_least (h : s.Inv M) {i : ℕ} (hi : i < M.n) (hleast : s.Least M i)
    (hle : ringStep M.n (s.party i).rx i ≤ ringStep M.n i (s.party i).tx)
    (hne : (s.party i).rx ≠ i) : (s.party (s.party i).rx).tx = i := by
  set j := (s.party i).rx
  have hj : j < M.n := (h.exact i hi).rx_lt
  have hagree := h.agree j hj i hi hne
  rw [MeshParty.sentTo, MeshParty.receivedFrom, if_neg (Nat.lt_irrefl _)] at hagree
  have hstep : s.slower M i = ringStep M.n j i := min_eq_right hle
  have hother : s.slower M j ≤ ringStep M.n j (s.party j).tx := min_le_left _ _
  have heq : ringStep M.n j (s.party j).tx = ringStep M.n j i := by
    rcases hleast j hj with hcall | ⟨hcall, hslower⟩
    · split at hagree <;> omega
    · split at hagree <;> omega
  exact (ringStep_right_inj hj (h.exact j hj).tx_lt hi).mp heq

/-- A verifier that is not behind any other has a thread that can go on. -/
theorem Inv.step_of_least (h : s.Inv M) {i : ℕ} (hi : i < M.n) (hleast : s.Least M i)
    (hcall : (s.party i).call < M.count) : ∃ t, (s.step M t).isSome := by
  have hself : ringStep M.n i i = M.n - 1 := ringStep_self hi
  rcases Nat.le_total (ringStep M.n i (s.party i).tx) (ringStep M.n (s.party i).rx i) with hle | hle
  · have hne : i ≠ (s.party i).tx := fun htx => by
      have hrx : (s.party i).rx = i := by
        by_contra hrx
        have hlt := ringStep_lt (h.exact i hi).rx_lt hi hrx
        rw [← htx] at hle
        omega
      exact h.busy i hi ⟨htx.symm, hrx⟩
    exact ⟨_, h.step_of_facing hi (h.exact i hi).tx_lt hne rfl
      (h.rx_eq_of_least hi hleast hle hne) hcall⟩
  · have hne : (s.party i).rx ≠ i := fun hrx => by
      have htx : (s.party i).tx = i := by
        by_contra htx
        have hlt := ringStep_lt hi (h.exact i hi).tx_lt (Ne.symm htx)
        rw [hrx] at hle
        omega
      exact h.busy i hi ⟨htx, hrx⟩
    have htx := h.tx_eq_of_least hi hleast hle hne
    have hsame := h.call_eq (h.exact i hi).rx_lt hi hne htx rfl
    exact ⟨_, h.step_of_facing (h.exact i hi).rx_lt hi hne htx rfl (hsame ▸ hcall)⟩

/-- Some verifier is not behind any other. -/
theorem exists_least (M : Mesh T) (s : MeshState T) : ∃ i < M.n, s.Least M i := by
  have hnonempty : (Finset.range M.n).Nonempty :=
    Finset.nonempty_range_iff.mpr (Nat.ne_of_gt (Nat.lt_of_lt_of_le Nat.zero_lt_two M.two_le))
  obtain ⟨i, hi, hleast⟩ := Finset.exists_min_image (Finset.range M.n)
    (fun i => toLex ((s.party i).call, s.slower M i)) hnonempty
  refine ⟨i, Finset.mem_range.mp hi, fun j hj => ?_⟩
  simpa only [Prod.Lex.toLex_le_toLex] using hleast j (Finset.mem_range.mpr hj)

/-- **No deadlock.**  As long as a call is under way, something can go over a connection. -/
theorem Inv.exists_transfer (h : s.Inv M) {i : ℕ} (hi : i < M.n)
    (hcall : (s.party i).call < M.count) : ∃ t, (s.step M t).isSome := by
  obtain ⟨a, ha, hleast⟩ := s.exists_least M
  have hle : (s.party a).call ≤ (s.party i).call := by
    rcases hleast i hi with hlt | heq
    · exact hlt.le
    · exact heq.1.le
  exact h.step_of_least ha hleast (hle.trans_lt hcall)

/-! ## What goes over a connection -/

/-- The transfers of a run go over the connection of their direction. -/
theorem ch_of_run {ts : List MeshTransfer} {s s' : MeshState T}
    (hrun : Runs.run (step M) s ts = some s') : ∀ t ∈ ts, t.ch = sendCh t.src t.dst :=
  Runs.forall_mem_of_run (P := fun t => t.ch = sendCh t.src t.dst)
    (fun hstep => (step_eq_some hstep).2.2.2.1) hrun

/-- The ring passes every other verifier once. -/
theorem expected_perm (M : Mesh T) {i : ℕ} (hi : i < M.n) (c : ℕ) :
    (MeshParty.expected M i c).Perm
      ((others M.n i).map fun j => (j, (M.call j c).buf i)) :=
  (ringPeers_perm hi).map _

/-- **The exchange is exact and does not block.**  In every reachable state in which a call of a
verifier has not returned, a transfer is possible.  A call that has returned received from each
other verifier, once, the buffer which that one passed to its call of the same number, and what a
call under way has received is such a buffer, too.  And no connection carries both directions. -/
theorem exchange_exact {ts : List MeshTransfer}
    (hrun : Runs.run (step M) (init M) ts = some s) :
    (∀ i < M.n, (s.party i).call < M.count → ∃ t, (s.step M t).isSome) ∧
      (∀ i < M.n, ∀ c received, (s.party i).returned[c]? = some received →
        List.Perm received ((others M.n i).map fun j => (j, (M.call j c).buf i))) ∧
      (∀ i < M.n, ∀ j buf, (j, buf) ∈ (s.party i).got →
        j ∈ others M.n i ∧ buf = (M.call j (s.party i).call).buf i) ∧
      ∀ t ∈ ts, ∀ u ∈ ts, t.ch = u.ch → t.src = u.src ∧ t.dst = u.dst := by
  have h := inv_of_run hrun
  refine ⟨fun i hi => h.exists_transfer hi, fun i hi c received hc => ?_,
    fun i hi j buf hmem => ?_, fun t ht u hu hch => ?_⟩
  · rw [(h.exact i hi).returned c received hc]
    exact expected_perm M hi c
  · rw [(h.exact i hi).got] at hmem
    have hexpected := (expected_perm M hi _).mem_iff.mp (List.mem_of_mem_take hmem)
    obtain ⟨k, hk, heq⟩ := List.mem_map.mp hexpected
    obtain ⟨rfl, rfl⟩ := Prod.mk.inj heq
    exact ⟨hk, rfl⟩
  · rw [ch_of_run hrun t ht, ch_of_run hrun u hu] at hch
    exact sendCh_inj hch

/-- Three verifiers that exchange a byte and then share zeros. -/
def meshThree : Mesh ℕ where
  n := 3
  two_le := by decide
  count := 2
  call i c := if c = 0 then .exchangeAll [UInt8.ofNat i] else .zeroShares 1 fun j _ => 10 * i + j
  same := by decide

/-- The first is in its second call, and the last one has not yet sent to the second. -/
theorem exchange_exact_three : ∃ s, Runs.run (step meshThree) (init meshThree)
      [⟨0, 1, sendCh 0 1⟩, ⟨1, 2, sendCh 1 2⟩, ⟨2, 0, sendCh 2 0⟩, ⟨0, 2, sendCh 0 2⟩,
        ⟨1, 0, sendCh 1 0⟩] = some s ∧
    ((s.party 0).call = 1 ∧ (s.party 2).call = 0) ∧ (∃ t, (s.step meshThree t).isSome) ∧
    ∀ received, (s.party 0).returned[0]? = some received →
      List.Perm received [(1, .bytes [1]), (2, .bytes [2])] := by
  obtain ⟨s, hrun⟩ : ∃ s, Runs.run (step meshThree) (init meshThree)
      [⟨0, 1, sendCh 0 1⟩, ⟨1, 2, sendCh 1 2⟩, ⟨2, 0, sendCh 2 0⟩, ⟨0, 2, sendCh 0 2⟩,
        ⟨1, 0, sendCh 1 0⟩] = some s := Option.isSome_iff_exists.mp (by decide)
  have hstate : (Runs.run (step meshThree) (init meshThree)
      [⟨0, 1, sendCh 0 1⟩, ⟨1, 2, sendCh 1 2⟩, ⟨2, 0, sendCh 2 0⟩, ⟨0, 2, sendCh 0 2⟩,
        ⟨1, 0, sendCh 1 0⟩]).map (fun s => ((s.party 0).call, (s.party 2).call))
      = some (1, 0) := by decide
  rw [hrun, Option.map_some, Option.some_inj, Prod.mk.injEq] at hstate
  obtain ⟨hprogress, hreturned, -, -⟩ := exchange_exact hrun
  have hcall : (s.party 2).call < meshThree.count := by
    rw [hstate.2]
    decide
  exact ⟨s, hrun, hstate, hprogress 2 (by decide) hcall, hreturned 0 (by decide) 0⟩

/-! ## What the calls return -/

/-- **`exchange_all`** hands every verifier what the others passed. -/
theorem recvBuf_eq {ts : List MeshTransfer} (hrun : Runs.run (step M) (init M) ts = some s)
    {i j c : ℕ} (hi : i < M.n) (hj : j < M.n) (hji : j ≠ i) {received : List (ℕ × MeshBuf T)}
    (hreturned : (s.party i).returned[c]? = some received) {sendBuf : List UInt8}
    (hcall : M.call j c = .exchangeAll sendBuf) : recvBuf received j = sendBuf := by
  have hlast : ∀ (l : List ℕ) (buf : ℕ → List UInt8),
      (l.map fun k => (k, (M.call k c).buf i)).foldl
        (fun buf r => Function.update buf r.1 r.2.toBytes) buf j
        = if j ∈ l then sendBuf else buf j := fun l => by
    induction l with
    | nil => simp
    | cons k l ih =>
      intro buf
      rw [List.map_cons, List.foldl_cons, ih]
      by_cases hjl : j ∈ l
      · simp [hjl]
      · by_cases hjk : j = k
        · simp [← hjk, hjl, hcall, MeshCall.buf, MeshBuf.toBytes]
        · simp [hjl, hjk]
  rw [((inv_of_run hrun).exact i hi).returned c received hreturned, recvBuf, MeshParty.expected,
    hlast, if_pos ((mem_ringPeers hi).mpr ⟨hj, hji⟩)]

/-- **`zero_shares`** adds up what the others dealt. -/
theorem zeroOut_eq (ops : ShareOps T) {ts : List MeshTransfer}
    (hrun : Runs.run (step M) (init M) ts = some s) {i c cnt : ℕ} (hi : i < M.n)
    {received : List (ℕ × MeshBuf T)} (hreturned : (s.party i).returned[c]? = some received)
    {deal : ℕ → ℕ → ℕ → T} (hcall : ∀ j < M.n, M.call j c = .zeroShares cnt (deal j)) :
    zeroOut ops (zeroOwn ops M.n i cnt (deal i)) received = (List.range cnt).map fun l =>
      (ringPeers M.n i).foldl (fun out j => ops.add out (deal j i l))
        (ops.negate ((others M.n i).foldl (fun acc j => ops.add acc (deal i j l)) ops.zero)) := by
  have hfold : ∀ (peers : List ℕ) (own : ℕ → T), (∀ j ∈ peers, j < M.n) →
      (peers.map fun j => (j, (M.call j c).buf i)).foldl
        (fun out r => List.zipWith ops.add out r.2.toElems) ((List.range cnt).map own)
        = (List.range cnt).map fun l =>
          peers.foldl (fun out j => ops.add out (deal j i l)) (own l) := fun peers => by
    induction peers with
    | nil => exact fun _ _ => rfl
    | cons j peers ih =>
      intro own hlt
      rw [List.forall_mem_cons] at hlt
      have hbuf : (M.call j c).buf i = .elems ((List.range cnt).map (deal j i)) := by
        rw [hcall j hlt.1, MeshCall.buf]
      rw [List.map_cons, List.foldl_cons, hbuf, MeshBuf.toElems, List.zipWith_map,
        List.zipWith_self, ih _ hlt.2]
      rfl
  rw [((inv_of_run hrun).exact i hi).returned c received hreturned, zeroOut, MeshParty.expected,
    zeroOwn, hfold _ _ fun j hj => ((mem_ringPeers hi).mp hj).1]

end MeshState

end VoleZk.Mvzk
