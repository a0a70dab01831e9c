import Mathlib.Data.List.Basic
import Mathlib.Data.Nat.Basic

/-!
# Chunked loops over a seekable stream

A generator yields a stream of words, by the position it has been moved to.  A loop over `n` items
that takes a word for each may draw the words chunk by chunk, from wherever it starts.

## What is here

* `SeekStream.Gen`, `SeekStream.Gen.Streams` — a generator, and that it yields a given stream;
* `SeekStream.chunkLoop` — the loop, and `SeekStream.chunkLoop_inv`, **its invariant rule**: in
  every turn the words are those of the stream at the positions of the items.
-/

set_option autoImplicit false

namespace SeekStream

/-- A generator with keys `κ`, words `β` and states `σ`. -/
structure Gen (κ β σ : Type*) where
  /-- The generator of a key. -/
  init : κ → σ
  /-- Move to a position. -/
  seek : σ → ℕ → σ
  /-- Draw some words: an array that starts with them, and the generator after them. -/
  next : σ → ℕ → (ℕ → β) × σ

/-- The generator yields `stream key` for every key: `At g key i` says that `g` is about to yield
word `i`. -/
structure Gen.Streams {κ β σ : Type*} (G : Gen κ β σ) (stream : κ → ℕ → β)
    (At : σ → κ → ℕ → Prop) : Prop where
  /-- A fresh generator is at the start. -/
  init : ∀ key, At (G.init key) key 0
  /-- Seeking sets the position. -/
  seek : ∀ {g key i} (j : ℕ), At g key i → At (G.seek g j) key j
  /-- Words are drawn in order. -/
  next_fst : ∀ {g key i} (m : ℕ), At g key i → ∀ k < m, (G.next g m).1 k = stream key (i + k)
  /-- Drawing moves on. -/
  next_snd : ∀ {g key i} (m : ℕ), At g key i → At (G.next g m).2 key (i + m)

/-- A stream with a position. -/
def Gen.ofStream {κ β : Type*} (stream : κ → ℕ → β) : Gen κ β (κ × ℕ) where
  init key := (key, 0)
  seek g i := (g.1, i)
  next g m := (fun k => stream g.1 (g.2 + k), (g.1, g.2 + m))

theorem Gen.ofStream_streams {κ β : Type*} (stream : κ → ℕ → β) :
    (Gen.ofStream stream).Streams stream fun g key i => g = (key, i) where
  init _ := rfl
  seek j h := by rw [h]; rfl
  next_fst m h k _ := by rw [h]; rfl
  next_snd m h := by rw [h]; rfl

variable {κ β σ α : Type*} (G : Gen κ β σ)

/-- A loop over `n` items, at most `chunk` at a time: `body base m words` is the turn of the `m`
items from `base` on. -/
def chunkLoop (chunk n : ℕ) (body : ℕ → ℕ → (ℕ → β) → α → α) (g : σ) (acc : α) : σ × α :=
  (List.range ((n + (chunk - 1)) / chunk)).foldl (fun s c =>
    let base := c * chunk
    let m := if n - base < chunk then n - base else chunk
    let words := G.next s.1 m
    (words.2, body base m words.1 s.2)) (g, acc)

variable {G} {stream : κ → ℕ → β} {At : σ → κ → ℕ → Prop}

/-- **The invariant rule**: what holds before the first item, and is kept by a turn with the words
of the stream, holds after the last item. -/
theorem chunkLoop_inv (Inv : ℕ → α → Prop) (hG : G.Streams stream At) {chunk n : ℕ}
    (hchunk : 0 < chunk) {body : ℕ → ℕ → (ℕ → β) → α → α} {g : σ} {key : κ} {start : ℕ}
    (hg : At g key start) {acc : α} (hinit : Inv 0 acc)
    (hturn : ∀ base m words acc, base + m ≤ n →
      (∀ k < m, words k = stream key (start + base + k)) → Inv base acc →
      Inv (base + m) (body base m words acc)) :
    Inv n (chunkLoop G chunk n body g acc).2 := by
  -- after `c` turns the generator and the accumulator are at item `min n (c * chunk)`
  have hloop : ∀ c, c ≤ (n + (chunk - 1)) / chunk →
      let s := (List.range c).foldl (fun s c =>
        let base := c * chunk
        let m := if n - base < chunk then n - base else chunk
        let words := G.next s.1 m
        (words.2, body base m words.1 s.2)) (g, acc)
      At s.1 key (start + min n (c * chunk)) ∧ Inv (min n (c * chunk)) s.2 := by
    intro c
    induction c with
    | zero =>
      intro _
      rw [Nat.zero_mul, Nat.min_zero]
      exact ⟨hg, hinit⟩
    | succ c ih =>
      intro hc
      obtain ⟨hat, hinv⟩ := ih (Nat.le_of_succ_le hc)
      have hlt : c * chunk < n := by
        have hle : (c + 1) * chunk ≤ n + (chunk - 1) :=
          Nat.le_trans (Nat.mul_le_mul_right chunk hc) (Nat.div_mul_le_self _ _)
        rw [Nat.succ_mul] at hle
        omega
      have hnext : min n ((c + 1) * chunk)
          = c * chunk + (if n - c * chunk < chunk then n - c * chunk else chunk) := by
        rw [Nat.succ_mul]
        split <;> omega
      rw [Nat.min_eq_right (Nat.le_of_lt hlt)] at hat hinv
      simp only [List.range_succ, List.foldl_append, List.foldl_cons, List.foldl_nil]
      rw [hnext, ← Nat.add_assoc]
      exact ⟨hG.next_snd _ hat, hturn _ _ _ _ (hnext ▸ Nat.min_le_left _ _)
        (fun k hk => hG.next_fst _ hat k hk) hinv⟩
  have hall : min n ((n + (chunk - 1)) / chunk * chunk) = n := by
    refine Nat.min_eq_left ?_
    have hlt := Nat.lt_div_mul_add (a := n + (chunk - 1)) hchunk
    omega
  have hlast := (hloop _ le_rfl).2
  rwa [hall] at hlast

end SeekStream
