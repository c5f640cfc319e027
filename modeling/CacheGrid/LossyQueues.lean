import Mathlib.Data.List.Basic
import Mathlib.Tactic

/-!
# Lossy queues

A queue with room for a number of values, whose senders do not wait: a value
that finds no room is dropped.  What is handed out and what is still queued is
then a part of what was sent, in the order it was sent, and all of it as long
as the receivers keep up.
-/

namespace LossyQueues

variable {α : Type*} {capacity : ℕ} {broken : Prop}
  {sent received queue queue' : List α} {value? handed? : Option α}

/-- One step of a queue: the value that was sent, if any, and the one that was
handed out.  A value is also lost where the queue is broken. -/
inductive Moves (capacity : ℕ) (broken : Prop) :
    Option α → Option α → List α → List α → Prop
  | takes {queue : List α} (value : α) (hroom : queue.length < capacity) :
      Moves capacity broken (some value) none queue (queue ++ [value])
  | drops {queue : List α} (value : α)
      (hfull : capacity ≤ queue.length ∨ broken) :
      Moves capacity broken (some value) none queue queue
  | hands {queue : List α} (value : α) :
      Moves capacity broken none (some value) (value :: queue) queue
  | stays {queue : List α} : Moves capacity broken none none queue queue

/-- What has come of the values sent so far. -/
structure Delivers (capacity : ℕ) (sent received queue : List α) : Prop where
  in_order : (received ++ queue).Sublist sent
  bounded : queue.length ≤ capacity

theorem delivers_nil : Delivers capacity [] [] ([] : List α) :=
  ⟨.refl _, Nat.zero_le _⟩

theorem Delivers.moves (hdelivers : Delivers capacity sent received queue)
    (hmoves : Moves capacity broken value? handed? queue queue') :
    Delivers capacity (sent ++ value?.toList) (received ++ handed?.toList)
      queue' := by
  cases hmoves with
  | takes value hroom =>
    constructor
    · simpa using hdelivers.in_order.append_right [value]
    · simpa using hroom
  | drops value hfull =>
    refine ⟨?_, hdelivers.bounded⟩
    simpa using hdelivers.in_order.trans (List.sublist_append_left _ [value])
  | hands value =>
    constructor
    · simpa using hdelivers.in_order
    · exact (Nat.le_succ _).trans hdelivers.bounded
  | stays => simpa using hdelivers

/-- As long as no more is under way than there is room for, nothing is
lost. -/
theorem append_eq_of_moves (heq : received ++ queue = sent)
    (hmoves : Moves capacity broken value? handed? queue queue')
    (hwhole : ¬ broken)
    (hfew : (sent ++ value?.toList).length ≤
      (received ++ handed?.toList).length + capacity) :
    received ++ handed?.toList ++ queue' = sent ++ value?.toList := by
  subst sent
  cases hmoves with
  | takes value hroom => simp
  | drops value hfull =>
    have hroom : queue.length + 1 ≤ capacity := by
      simp only [Option.toList_some, Option.toList_none, List.append_nil,
        List.length_append, List.length_singleton] at hfew
      omega
    rcases hfull with hfull | hbroken
    · omega
    · contradiction
  | hands value => simp
  | stays => simp

end LossyQueues
