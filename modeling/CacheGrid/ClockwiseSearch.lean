import Mathlib.Data.Set.Basic
import Mathlib.Order.Defs.LinearOrder
import Mathlib.Tactic

/-!
# Searching a circle

The elements of a linear order stand on a circle, the least after the
greatest.  Walking up from a point, the first element of a set is its least
element from that point on, or its least element at all if the walk passes the
end.  The first element only depends on the set; it stays first in every
smaller set that still has it.

A binary search finds it in a sorted list, and rotating the list there gives
all its elements in the order of the walk.  When the elements have labels, the
labels in the order of their first appearance are the walk's labels without
repetitions.
-/

namespace ClockwiseSearch

variable {α : Type*} [LinearOrder α]

/-- `p` is the first element of `s` on the way up from `start`. -/
structure IsFirst (s : Set α) (start p : α) : Prop where
  mem : p ∈ s
  first : (start ≤ p ∧ ∀ q ∈ s, start ≤ q → p ≤ q) ∨
    ((∀ q ∈ s, q < start) ∧ ∀ q ∈ s, p ≤ q)

theorem IsFirst.unique {s : Set α} {start p q : α} (hp : IsFirst s start p)
    (hq : IsFirst s start q) : p = q := by
  rcases hp.first with ⟨hle, hleast⟩ | ⟨hbelow, hleast⟩
  · rcases hq.first with ⟨hle', hleast'⟩ | ⟨hbelow', _⟩
    · exact le_antisymm (hleast q hq.mem hle') (hleast' p hp.mem hle)
    · exact absurd (hbelow' p hp.mem) (not_lt.mpr hle)
  · rcases hq.first with ⟨hle', _⟩ | ⟨_, hleast'⟩
    · exact absurd (hbelow q hq.mem) (not_lt.mpr hle')
    · exact le_antisymm (hleast q hq.mem) (hleast' p hp.mem)

theorem IsFirst.of_subset {s t : Set α} {start p : α} (hsub : s ⊆ t)
    (hp : IsFirst t start p) (hmem : p ∈ s) : IsFirst s start p where
  mem := hmem
  first := by
    rcases hp.first with ⟨hle, hleast⟩ | ⟨hbelow, hleast⟩
    · exact Or.inl ⟨hle, fun q hq => hleast q (hsub hq)⟩
    · exact Or.inr ⟨fun q hq => hbelow q (hsub hq),
        fun q hq => hleast q (hsub hq)⟩

/-- The position of a search: the predicate fails before it and holds from it
on. -/
structure IsBoundary (f : ℕ → Bool) (n i : ℕ) : Prop where
  le : i ≤ n
  before : ∀ j < i, f j = false
  after : ∀ j, i ≤ j → j < n → f j = true

/-- At the boundary between the elements below `start` and the others stands
the first element from `start` on; past the end, it is the head. -/
theorem isFirst_getElem {l : List α} (hsorted : l.Pairwise (· ≤ ·))
    {start : α} {i : ℕ} {f : ℕ → Bool}
    (hf : ∀ j (hj : j < l.length), f j = decide (start ≤ l[j]))
    (hboundary : IsBoundary f l.length i) {k : ℕ} (hk : k < l.length)
    (hindex : k = if l.length ≤ i then 0 else i) :
    IsFirst { p | p ∈ l } start l[k] := by
  have hmono : ∀ {j : ℕ} (hj : j < l.length), k ≤ j → l[k] ≤ l[j] := by
    intro j hj hle
    rcases hle.eq_or_lt with rfl | hlt
    · exact le_rfl
    · exact List.pairwise_iff_getElem.mp hsorted k j hk hj hlt
  refine ⟨List.getElem_mem hk, ?_⟩
  by_cases hwrap : l.length ≤ i
  · rw [if_pos hwrap] at hindex
    refine Or.inr ⟨?_, ?_⟩
    · intro q hq
      obtain ⟨j, hj, rfl⟩ := List.mem_iff_getElem.mp hq
      have hfalse := hboundary.before j (hj.trans_le hwrap)
      rw [hf j hj] at hfalse
      exact not_le.mp (of_decide_eq_false hfalse)
    · intro q hq
      obtain ⟨j, hj, rfl⟩ := List.mem_iff_getElem.mp hq
      exact hmono hj (by omega)
  · rw [if_neg hwrap] at hindex
    subst hindex
    refine Or.inl ⟨?_, ?_⟩
    · have htrue := hboundary.after k le_rfl hk
      rw [hf k hk] at htrue
      exact of_decide_eq_true htrue
    · intro q hq hle
      obtain ⟨j, hj, rfl⟩ := List.mem_iff_getElem.mp hq
      apply hmono hj
      by_contra hlt
      have hfalse := hboundary.before j (not_le.mp hlt)
      rw [hf j hj] at hfalse
      exact of_decide_eq_false hfalse hle

/-! ## The whole walk -/

/-- The elements of a sorted list on the way up from `start`: those from it
on, then those below it. -/
def clockwise (start : α) (l : List α) : List α :=
  l.filter (fun p => start ≤ p) ++ l.filter (fun p => p < start)

theorem clockwise_eq_rotate {l : List α} {start : α} {i : ℕ} {f : ℕ → Bool}
    (hf : ∀ j (hj : j < l.length), f j = decide (start ≤ l[j]))
    (hboundary : IsBoundary f l.length i) :
    clockwise start l = l.rotate (if l.length ≤ i then 0 else i) := by
  have hdrop : ∀ p ∈ l.drop i, start ≤ p := by
    intro p hp
    obtain ⟨j, hj, rfl⟩ := List.mem_iff_getElem.mp hp
    rw [List.length_drop] at hj
    have htrue := hboundary.after (i + j) (Nat.le_add_right i j) (by omega)
    rw [hf (i + j) (by omega)] at htrue
    rw [List.getElem_drop]
    exact of_decide_eq_true htrue
  have htake : ∀ p ∈ l.take i, p < start := by
    intro p hp
    obtain ⟨j, hj, rfl⟩ := List.mem_iff_getElem.mp hp
    rw [List.length_take] at hj
    have hfalse := hboundary.before j (by omega)
    rw [hf j (by omega)] at hfalse
    rw [List.getElem_take]
    exact not_le.mp (of_decide_eq_false hfalse)
  have hwalk : clockwise start l = l.drop i ++ l.take i := by
    have habove : l.filter (fun p => start ≤ p) = l.drop i := by
      have hnone : (l.take i).filter (fun p => start ≤ p) = [] :=
        List.filter_eq_nil_iff.mpr (by simpa using htake)
      have hall : (l.drop i).filter (fun p => start ≤ p) = l.drop i :=
        List.filter_eq_self.mpr (by simpa using hdrop)
      conv_lhs => rw [← List.take_append_drop i l]
      rw [List.filter_append, hnone, hall, List.nil_append]
    have hbelow : l.filter (fun p => p < start) = l.take i := by
      have hall : (l.take i).filter (fun p => p < start) = l.take i :=
        List.filter_eq_self.mpr (by simpa using htake)
      have hnone : (l.drop i).filter (fun p => p < start) = [] :=
        List.filter_eq_nil_iff.mpr (by simpa using hdrop)
      conv_lhs => rw [← List.take_append_drop i l]
      rw [List.filter_append, hall, hnone, List.append_nil]
    rw [clockwise, habove, hbelow]
  rw [hwalk]
  split
  · rename_i hwrap
    rw [List.drop_eq_nil_of_le hwrap, List.take_of_length_le hwrap]
    simp
  · exact (List.rotate_eq_drop_append_take hboundary.le).symm

theorem mem_clockwise {start p : α} {l : List α} :
    p ∈ clockwise start l ↔ p ∈ l := by
  simp only [clockwise, List.mem_append, List.mem_filter,
    decide_eq_true_eq, ← and_or_left, and_iff_left_iff_imp]
  intro _
  exact le_or_gt start p

/-! ## Labels in the order of their first appearance -/

section Labels

variable {β : Type*} [BEq β] [LawfulBEq β]

theorem nodup_eraseDups (l : List β) : l.eraseDups.Nodup := by
  induction hlength : l.length using Nat.strong_induction_on generalizing l with
  | _ n ih =>
    cases l with
    | nil => simp
    | cons x l =>
      rw [List.eraseDups_cons, List.nodup_cons]
      refine ⟨by simp, ih _ ?_ _ rfl⟩
      rw [← hlength, List.length_cons]
      exact Nat.lt_succ_of_le (List.length_filter_le _ _)

theorem eraseDups_of_nodup {l : List β} (hnodup : l.Nodup) :
    l.eraseDups = l := by
  induction l with
  | nil => rfl
  | cons x l ih =>
    rw [List.nodup_cons] at hnodup
    have hkept : l.filter (fun y => !y == x) = l := by
      rw [List.filter_eq_self]
      intro y hy
      have hne : y ≠ x := by
        rintro rfl
        exact hnodup.1 hy
      simp [hne]
    rw [List.eraseDups_cons, hkept, ih hnodup.2]

theorem length_eraseDups [DecidableEq β] (l : List β) :
    l.eraseDups.length = l.toFinset.card := by
  rw [← List.toFinset_card_of_nodup (nodup_eraseDups l)]
  congr 1
  ext x
  simp

theorem eraseDups_append_cons_of_mem {seen l : List β} {x : β}
    (hseen : x ∈ seen) :
    (seen ++ x :: l).eraseDups = (seen ++ l).eraseDups := by
  rw [List.eraseDups_append, List.eraseDups_append]
  simp [List.removeAll, hseen]

theorem take_eraseDups_append {seen l : List β} (hnodup : seen.Nodup) :
    (seen ++ l).eraseDups.take seen.length = seen := by
  rw [List.eraseDups_append, eraseDups_of_nodup hnodup]
  exact List.take_left

end Labels

end ClockwiseSearch
