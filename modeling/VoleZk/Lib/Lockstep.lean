import Mathlib.Data.List.Basic

/-!
# One party sends, the others receive

A sender runs a list of operations and sends messages, one component to each receiver; a receiver
runs the same operations and takes its messages from a queue.  They are in step if every operation
of a receiver takes exactly what the same operation of the sender put into the queue.

## What is here

* `sendRun`, `recvRun`, the runs, and `Runs`, both together;
* `run_in_step` — **from one operation to runs**, with a relation between the sender and all
  receivers.
-/

set_option autoImplicit false

namespace Lockstep

variable {ι Op S R Msg : Type*}

/-- The run of the sender, and the messages. -/
def sendRun (send : Op → S → Option (S × List Msg)) : List Op → S → Option (S × List Msg)
  | [], s => some (s, [])
  | op :: ops, s =>
    (send op s).bind fun r => (sendRun send ops r.1).map fun r' => (r'.1, r.2 ++ r'.2)

/-- The run of a receiver, and what it leaves in the queue. -/
def recvRun (recv : Op → R → List Msg → Option (R × List Msg)) :
    List Op → R → List Msg → Option (R × List Msg)
  | [], r, queue => some (r, queue)
  | op :: ops, r, queue => (recv op r queue).bind fun q => recvRun recv ops q.1 q.2

/-- The sender runs from `s` to `s'`, and each receiver takes exactly its messages. -/
def Runs (send : Op → S → Option (S × List (ι → Msg)))
    (recv : ι → Op → R → List Msg → Option (R × List Msg)) (ops : List Op) (s : S) (r : ι → R)
    (s' : S) (r' : ι → R) : Prop :=
  ∃ msgs, sendRun send ops s = some (s', msgs) ∧
    ∀ i rest, recvRun (recv i) ops (r i) (msgs.map (· i) ++ rest) = some (r' i, rest)

variable {send : Op → S → Option (S × List (ι → Msg))}
  {recv : ι → Op → R → List Msg → Option (R × List Msg)}

theorem Runs.nil (s : S) (r : ι → R) : Runs send recv [] s r s r := ⟨[], rfl, fun _ _ => rfl⟩

/-- One more operation, at the front. -/
theorem Runs.cons {op : Op} {ops : List Op} {s s₁ s₂ : S} {r r₁ r₂ : ι → R}
    {msgs : List (ι → Msg)} (hsend : send op s = some (s₁, msgs))
    (hrecv : ∀ i rest, recv i op (r i) (msgs.map (· i) ++ rest) = some (r₁ i, rest))
    (h : Runs send recv ops s₁ r₁ s₂ r₂) : Runs send recv (op :: ops) s r s₂ r₂ := by
  obtain ⟨msgs', hsend', hrecv'⟩ := h
  refine ⟨msgs ++ msgs', ?_, fun i rest => ?_⟩
  · rw [sendRun, hsend, Option.bind_some, hsend']
    rfl
  · rw [recvRun, List.map_append, List.append_assoc, hrecv i, Option.bind_some, hrecv' i]

/-- **From one operation to runs.**  If every operation succeeds at the sender, each receiver takes
exactly its messages, and the relation is kept, then the same is true of runs.  The relation may
speak of the operations that are still to come. -/
theorem run_in_step (send : Op → S → Option (S × List (ι → Msg)))
    (recv : ι → Op → R → List Msg → Option (R × List Msg)) (Rel : List Op → S → (ι → R) → Prop)
    (hstep : ∀ op ops s r, Rel (op :: ops) s r → ∃ s' msgs r', send op s = some (s', msgs) ∧
      (∀ i rest, recv i op (r i) (msgs.map (· i) ++ rest) = some (r' i, rest)) ∧ Rel ops s' r')
    (ops : List Op) {s : S} {r : ι → R} (hrel : Rel ops s r) :
    ∃ s' msgs r', sendRun send ops s = some (s', msgs) ∧
      (∀ i rest, recvRun (recv i) ops (r i) (msgs.map (· i) ++ rest) = some (r' i, rest)) ∧
      Rel [] s' r' := by
  suffices hruns : ∃ s' r', Runs send recv ops s r s' r' ∧ Rel [] s' r' by
    obtain ⟨s', r', ⟨msgs, hsend, hrecv⟩, hrel'⟩ := hruns
    exact ⟨s', msgs, r', hsend, hrecv, hrel'⟩
  induction ops generalizing s r with
  | nil => exact ⟨s, r, .nil s r, hrel⟩
  | cons op ops ih =>
    obtain ⟨s₁, msgs₁, r₁, hsend, hrecv, hrel₁⟩ := hstep op ops s r hrel
    obtain ⟨s₂, r₂, hruns, hrel₂⟩ := ih hrel₁
    exact ⟨s₂, r₂, .cons hsend hrecv hruns, hrel₂⟩

end Lockstep
