import CacheGrid.SlidingWindow

/-!
# Windows whose length changes

Every call of Allow brings its own window length, and the start of the window
is moved by that length.  Whatever the lengths were before, the window that a
call leaves behind contains the instant of the call, and neither of its counts
exceeds the limit.  So the two clamps of the code, of the progress at one and
of the remaining calls at zero, never act.

The estimate may exceed the limit here: a longer window gives the previous
count its weight back.  Such a call is denied, and the counts stay as they are.
-/

namespace CacheGrid

namespace Ratelimit

namespace SlidingWindow

open SequentialRuns

variable {limit : Int64} {windowLen : Duration}

/-- Every call for the key is a Reset or an Allow with this limit and some
positive window length. -/
def LimitedTo (key : GoString) (limit : Int64) (ops : List Op) : Prop :=
  ∀ op ∈ ops, op.key = key → op = .reset key ∨
    ∃ windowLen now, 0 < windowLen.toInt ∧ op = .allow key limit windowLen now

/-- The window has begun by `now`, and its counts are within the limit. -/
structure Within (limit : Int64) (now : ℤ) (w : Window) : Prop where
  start_le : w.currStart ≤ now
  prev_nonneg : 0 ≤ w.prevCount.toInt
  prev_le : w.prevCount.toInt ≤ limit.toInt
  curr_nonneg : 0 ≤ w.currCount.toInt
  curr_le : w.currCount.toInt ≤ limit.toInt

theorem within_fresh (hlimit : 0 < limit.toInt) (windowLen : Duration)
    {now horizon : ℤ} (hnow : now ≤ horizon) :
    Within limit horizon (freshWindow limit windowLen now) where
  start_le := hnow
  prev_nonneg := le_rfl
  prev_le := hlimit.le
  curr_nonneg := le_rfl
  curr_le := hlimit.le

theorem Within.advance {now horizon : ℤ} {w : Window}
    (hwithin : Within limit horizon w) (hlimit : 0 < limit.toInt)
    (hwindow : 0 < windowLen.toInt) (hnow : now ≤ horizon) :
    Within limit horizon (advance w limit windowLen now) := by
  simp only [SlidingWindow.advance]
  split
  · exact ⟨hnow, le_rfl, hlimit.le, le_rfl, hlimit.le⟩
  · split
    · rename_i hone
      rw [Int64.le_iff_toInt_le] at hone
      refine ⟨?_, hwithin.curr_nonneg, hwithin.curr_le, le_rfl, hlimit.le⟩
      show w.currStart + windowLen.toInt ≤ horizon
      rcases timeSub_cases now w.currStart with h | h | h <;> omega
    · exact ⟨hwithin.start_le, hwithin.prev_nonneg, hwithin.prev_le,
        hwithin.curr_nonneg, hwithin.curr_le⟩

/-- An estimate below the limit leaves room in the current count, also if it
is too large for an `int64`. -/
theorem Within.truncate_bounds {horizon : ℤ} {w : Window}
    (hwithin : Within limit horizon w) (windowLen : Duration) (now : ℤ) :
    w.currCount.toInt ≤ (truncate (estimatedCount w windowLen now)).toInt := by
  have hcurr := currCount_le_estimatedCount hwithin.prev_nonneg windowLen now
  have hnonneg : (0 : ℚ) ≤ w.currCount.toInt := by
    exact_mod_cast hwithin.curr_nonneg
  have hfloor : w.currCount.toInt ≤ ⌊estimatedCount w windowLen now⌋ :=
    Int.le_floor.mpr hcurr
  have hlt := w.currCount.toInt_lt
  rw [toInt_truncate_eq_min (hnonneg.trans hcurr)]
  omega

theorem Within.admit {horizon : ℤ} {w : Window}
    (hwithin : Within limit horizon w) {windowLen : Duration} {now : ℤ}
    (hroom : truncate (estimatedCount w windowLen now) < limit) :
    Within limit horizon
      ⟨w.prevCount, w.currCount + 1, w.limit, w.windowLen, w.currStart⟩ := by
  have hbounds := hwithin.truncate_bounds windowLen now
  have hnonneg := hwithin.curr_nonneg
  rw [Int64.lt_iff_toInt_lt] at hroom
  have hcurr : (w.currCount + 1).toInt = w.currCount.toInt + 1 := by
    have := limit.toInt_lt
    rw [Int64.toInt_add, Int.bmod_eq_of_le] <;> simp <;> omega
  refine ⟨hwithin.start_le, hwithin.prev_nonneg, hwithin.prev_le, ?_, ?_⟩
  · show 0 ≤ (w.currCount + 1).toInt
    omega
  · show (w.currCount + 1).toInt ≤ limit.toInt
    omega

theorem Within.remaining_bounds {horizon : ℤ} {w : Window}
    (hwithin : Within limit horizon w) {windowLen : Duration} {now : ℤ}
    (hroom : truncate (estimatedCount w windowLen now) < limit) :
    0 ≤ (limit - truncate (estimatedCount w windowLen now) - 1).toInt ∧
      (limit - truncate (estimatedCount w windowLen now) - 1).toInt ≤
        limit.toInt - 1 := by
  have hbounds := hwithin.truncate_bounds windowLen now
  have hnonneg := hwithin.curr_nonneg
  have hlt := limit.toInt_lt
  rw [Int64.lt_iff_toInt_lt] at hroom
  generalize truncate (estimatedCount w windowLen now) = estimated at *
  have hdifference : (limit - estimated).toInt =
      limit.toInt - estimated.toInt := by
    rw [Int64.toInt_sub, Int.bmod_eq_of_le (by omega) (by omega)]
  have hexact : (limit - estimated - 1).toInt =
      limit.toInt - estimated.toInt - 1 := by
    rw [Int64.toInt_sub, hdifference, Int64.toInt_one,
      Int.bmod_eq_of_le (by omega) (by omega)]
  omega

section Entry

variable {now horizon : ℤ} {entry : Option Window}

theorem within_getD (hentry : ∀ w ∈ entry, Within limit horizon w)
    (hlimit : 0 < limit.toInt) (windowLen : Duration) (hnow : now ≤ horizon) :
    Within limit horizon (entry.getD (freshWindow limit windowLen now)) := by
  cases entry with
  | none => exact within_fresh hlimit windowLen hnow
  | some w => exact hentry w rfl

theorem within_allowEntry (hentry : ∀ w ∈ entry, Within limit horizon w)
    (hlimit : 0 < limit.toInt) (hwindow : 0 < windowLen.toInt)
    (hnow : now ≤ horizon) :
    Within limit horizon (allowEntry entry limit windowLen now).2 := by
  have hadvanced :=
    (within_getD hentry hlimit windowLen hnow).advance hlimit hwindow hnow
  simp only [allowEntry]
  split
  · rename_i hroom
    exact hadvanced.admit hroom
  · exact hadvanced

theorem remaining_allowEntry (hentry : ∀ w ∈ entry, Within limit horizon w)
    (hlimit : 0 < limit.toInt) (hwindow : 0 < windowLen.toInt)
    (hnow : now ≤ horizon) :
    0 ≤ (allowEntry entry limit windowLen now).1.remaining.toInt ∧
      (allowEntry entry limit windowLen now).1.remaining.toInt ≤
        limit.toInt - 1 := by
  have hadvanced :=
    (within_getD hentry hlimit windowLen hnow).advance hlimit hwindow hnow
  simp only [allowEntry]
  split
  · rename_i hroom
    have hremaining := hadvanced.remaining_bounds hroom
    have hclamp : ¬ limit - truncate (estimatedCount (advance
        (entry.getD (freshWindow limit windowLen now)) limit windowLen now)
          windowLen now) - 1 < 0 := by
      rw [Int64.lt_iff_toInt_lt, Int64.toInt_zero]
      exact not_lt.mpr hremaining.1
    simp only [if_neg hclamp]
    exact hremaining
  · simp only [Int64.toInt_zero]
    omega

end Entry

/-- The window that a call advances to contains the instant of the call: a
length that does not fit twice into an `int64` starts a new window. -/
theorem advance_covers {w : Window} {now : ℤ} (hstart : w.currStart ≤ now)
    (hwindow : 0 < windowLen.toInt) :
    (advance w limit windowLen now).currStart ≤ now ∧
      now < (advance w limit windowLen now).currStart + windowLen.toInt := by
  have hlt := windowLen.toInt_lt
  have htwice : (2 * windowLen).toInt = 2 * windowLen.toInt ∨
      (2 * windowLen).toInt < 0 := by
    by_cases hshort : windowLen.toInt < 2 ^ 62
    · exact Or.inl (toInt_two_mul hshort hwindow)
    · exact Or.inr (toInt_two_mul_neg (not_lt.mp hshort))
  have htwice_lt := (2 * windowLen).toInt_lt
  have helapsed := timeSub_cases now w.currStart
  simp only [advance, Int64.le_iff_toInt_le]
  split
  · exact ⟨le_rfl, by simpa using hwindow⟩
  · split
    · show w.currStart + windowLen.toInt ≤ now ∧
        now < w.currStart + windowLen.toInt + windowLen.toInt
      omega
    · show w.currStart ≤ now ∧ now < w.currStart + windowLen.toInt
      omega

theorem currStart_allowEntry (entry : Option Window) (limit : Int64)
    (windowLen : Duration) (now : ℤ) :
    (allowEntry entry limit windowLen now).2.currStart =
      (advance (entry.getD (freshWindow limit windowLen now)) limit windowLen
        now).currStart := by
  simp only [allowEntry]
  split <;> rfl

/-! ## Runs -/

theorem within_run {key : GoString} {ops : List Op}
    (hlimit : 0 < limit.toInt) (hlimited : LimitedTo key limit ops)
    {horizon : ℤ} (htimes : ∀ now ∈ ops.filterMap Op.now?, now ≤ horizon) :
    ∀ w ∈ (run step new ops).2.windows.lookup key, Within limit horizon w := by
  have hops : ∀ op ∈ ops.filter (Op.key · = key), op = .reset key ∨
      ∃ windowLen now, 0 < windowLen.toInt ∧ now ≤ horizon ∧
        op = .allow key limit windowLen now := by
    intro op hop
    rw [List.mem_filter, decide_eq_true_eq] at hop
    rcases hlimited op hop.1 hop.2 with hreset | ⟨windowLen, now, hwindow, rfl⟩
    · exact Or.inl hreset
    · have hnow := htimes now (List.mem_filterMap.mpr ⟨_, hop.1, rfl⟩)
      exact Or.inr ⟨windowLen, now, hwindow, hnow, rfl⟩
  have hcell := step_actsOnCell.run_cell new ops key
  rw [hcell]
  refine run_invariant_of_meets
    (fun entry : Option Window => ∀ w ∈ entry, Within limit horizon w) ?_ ?_
    (Meets.of_forall hops _)
  · intro entry op hentry hop w hw
    rcases hop with rfl | ⟨windowLen, now, hwindow, hnow, rfl⟩
    · cases hw
    · obtain rfl : (allowEntry entry limit windowLen now).2 = w :=
        Option.some.inj hw
      exact within_allowEntry hentry hlimit hwindow hnow
  · intro w hw
    cases hw

/-- After every call for a key with a constant limit, whatever its window
lengths were: the window contains the instant of the call, the counts are
within the limit, and at least no and at most `limit - 1` calls remain.
Neither clamp of the code acts. -/
theorem window_contains_now {key : GoString} {ops : List Op} {now : ℤ}
    (hlimit : 0 < limit.toInt) (hlimited : LimitedTo key limit ops)
    (hwindow : 0 < windowLen.toInt)
    (htime : InTime (ops ++ [.allow key limit windowLen now])) :
    let before := (run step new ops).2
    let called := before.allow key limit windowLen now
    let w := advance ((before.windows.lookup key).getD
      (freshWindow limit windowLen now)) limit windowLen now
    (∃ left, called.2.windows.lookup key = some left ∧
      left.currStart ≤ now ∧ now < left.currStart + windowLen.toInt ∧
      0 ≤ left.prevCount.toInt ∧ left.prevCount.toInt ≤ limit.toInt ∧
      0 ≤ left.currCount.toInt ∧ left.currCount.toInt ≤ limit.toInt) ∧
    0 ≤ called.1.remaining.toInt ∧
    called.1.remaining.toInt ≤ limit.toInt - 1 ∧
    seconds (timeSub now w.currStart) / seconds windowLen < 1 ∧
    (truncate (estimatedCount w windowLen now) < limit →
      0 ≤ limit - truncate (estimatedCount w windowLen now) - 1) ∧
    (before.reset key).windows.lookup key = none := by
  intro before called w
  have hentry : ∀ w ∈ before.windows.lookup key, Within limit now w :=
    within_run hlimit hlimited htime.le_last
  have hstarted := within_getD hentry hlimit windowLen le_rfl
  have hcovers : w.currStart ≤ now ∧ now < w.currStart + windowLen.toInt :=
    advance_covers hstarted.start_le hwindow
  have hadvanced : Within limit now w :=
    hstarted.advance hlimit hwindow le_rfl
  refine ⟨⟨_, AList.lookup_insert _, ?_⟩, ?_⟩
  · have hleft := within_allowEntry hentry hlimit hwindow le_rfl
    rw [currStart_allowEntry]
    exact ⟨hcovers.1, hcovers.2, hleft.prev_nonneg, hleft.prev_le,
      hleft.curr_nonneg, hleft.curr_le⟩
  · have hremaining := remaining_allowEntry hentry hlimit hwindow le_rfl
    refine ⟨hremaining.1, hremaining.2, ?_, ?_, AList.lookup_erase _ _⟩
    · have hwindow' : (0 : ℚ) < windowLen.toInt := by exact_mod_cast hwindow
      have helapsed := (timeSub_bounds hcovers.1).2
      rw [seconds_div_seconds, div_lt_one hwindow']
      exact_mod_cast (by omega :
        (timeSub now w.currStart).toInt < windowLen.toInt)
    · intro hroom
      rw [Int64.le_iff_toInt_le, Int64.toInt_zero]
      exact (hadvanced.remaining_bounds hroom).1

/-- A limit of two, first in windows of ten nanoseconds and then, with both
calls of the first window still weighing, in windows of forty. -/
theorem window_contains_now_longer :
    let ops : List Op := [.allow (ascii "k") 2 10 0, .allow (ascii "k") 2 10 1,
      .allow (ascii "k") 2 10 12, .allow (ascii "k") 2 10 19]
    0 ≤ ((run step new ops).2.allow (ascii "k") 2 40 20).1.remaining.toInt := by
  intro ops
  have hlimited : LimitedTo (ascii "k") 2 ops := by
    intro op hop _
    simp only [ops, List.mem_cons, List.not_mem_nil, or_false] at hop
    rcases hop with rfl | rfl | rfl | rfl
    · exact Or.inr ⟨10, 0, by decide, rfl⟩
    · exact Or.inr ⟨10, 1, by decide, rfl⟩
    · exact Or.inr ⟨10, 12, by decide, rfl⟩
    · exact Or.inr ⟨10, 19, by decide, rfl⟩
  have htime : InTime (ops ++ [.allow (ascii "k") 2 40 20]) := by
    unfold InTime
    decide
  exact (window_contains_now (by decide) hlimited (by decide) htime).2.1

end SlidingWindow

end Ratelimit

end CacheGrid
