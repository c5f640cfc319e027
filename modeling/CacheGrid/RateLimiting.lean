import CacheGrid.GoValues
import CacheGrid.SequentialRuns

/-!
# Rate limiting

What the token bucket and the sliding window share: the calls, the answer and
the number of calls a limiter admitted in an interval.  A `float64` of the
source is an exact rational here.
-/

namespace CacheGrid

namespace Ratelimit

open SequentialRuns

/-- `d.Seconds()`. -/
def seconds (d : Duration) : ℚ := d.toInt / 10 ^ 9

/-- `int64(x)`: the fraction is dropped.  Go leaves the conversion of a number
beyond the range of `int64` to the implementation; here it is the end of the
range. -/
def truncate (x : ℚ) : Int64 := Int64.ofIntClamp (x.num.tdiv x.den)

structure State where
  allowed : Bool
  remaining : Int64
  limit : Int64
  resetsAt : ℤ
deriving DecidableEq

/-- The calls of a limiter; `now` is what `time.Now` returns in the call. -/
inductive Op where
  | allow (key : GoString) (limit : Int64) (window : Duration) (now : ℤ)
  | reset (key : GoString)
deriving DecidableEq

def Op.key : Op → GoString
  | .allow key _ _ _ => key
  | .reset key => key

def Op.now? : Op → Option ℤ
  | .allow _ _ _ now => some now
  | .reset _ => none

def InTime (ops : List Op) : Prop :=
  (ops.filterMap Op.now?).Pairwise (· ≤ ·)

/-- The key is never reset, and its limit and window are always these. -/
def UsedWith (key : GoString) (limit : Int64) (window : Duration)
    (ops : List Op) : Prop :=
  ∀ op ∈ ops, op.key = key → ∃ now, op = .allow key limit window now

variable {window : Duration} {key : GoString} {limit : Int64}

theorem UsedWith.of_append_left {ops later : List Op}
    (hused : UsedWith key limit window (ops ++ later)) :
    UsedWith key limit window ops :=
  fun op hop => hused op (List.mem_append_left later hop)

theorem InTime.of_append_left {ops later : List Op}
    (htime : InTime (ops ++ later)) : InTime ops := by
  unfold InTime at htime
  rw [List.filterMap_append] at htime
  exact (List.pairwise_append.mp htime).1

theorem InTime.le_last {ops : List Op} {now : ℤ}
    (htime : InTime (ops ++ [.allow key limit window now])) :
    ∀ earlier ∈ ops.filterMap Op.now?, earlier ≤ now := by
  unfold InTime at htime
  rw [List.filterMap_append] at htime
  intro earlier hearlier
  exact (List.pairwise_append.mp htime).2.2 earlier hearlier now
    (by simp [Op.now?])

/-- The calls of one key, as the list of their instants. -/
theorem UsedWith.exists_times {ops : List Op}
    (hused : UsedWith key limit window ops) (htime : InTime ops) :
    ∃ times : List ℤ, times.Pairwise (· ≤ ·) ∧
      times.Sublist (ops.filterMap Op.now?) ∧
      ops.filter (Op.key · = key) =
        times.map (Op.allow key limit window) := by
  have hall : ∃ times : List ℤ, times.Sublist (ops.filterMap Op.now?) ∧
      ops.filter (Op.key · = key) =
        times.map (Op.allow key limit window) := by
    clear htime
    induction ops with
    | nil => exact ⟨[], List.Sublist.refl [], rfl⟩
    | cons op ops ih =>
      obtain ⟨times, hsub, htimes⟩ :=
        ih fun op hop => hused op (List.mem_cons_of_mem _ hop)
      by_cases hkey : op.key = key
      · obtain ⟨now, rfl⟩ := hused op List.mem_cons_self hkey
        exact ⟨now :: times, hsub.cons_cons now, by
          rw [List.filter_cons_of_pos (by simpa using hkey), htimes]
          rfl⟩
      · have hdrop : (ops.filterMap Op.now?).Sublist
            ((op :: ops).filterMap Op.now?) :=
          (List.sublist_cons_self op ops).filterMap Op.now?
        exact ⟨times, hsub.trans hdrop, by
          rw [List.filter_cons_of_neg (by simpa using hkey), htimes]⟩
  obtain ⟨times, hsub, htimes⟩ := hall
  exact ⟨times, htime.sublist hsub, hsub, htimes⟩

/-- An event that counts in the interval from `first` to `last`. -/
def counted (first last : ℤ) (event : Op × Option State) : Bool :=
  event.1.now?.any (fun now => first ≤ now && now ≤ last) &&
    event.2.any State.allowed

/-- The number of calls for `key` that were allowed at an instant from
`first` to `last`. -/
def admitted (key : GoString) (first last : ℤ)
    (history : List (Op × Option State)) : ℕ :=
  (history.filter fun event => event.1.key = key).countP (counted first last)

theorem counted_le_allowed (first last : ℤ) (op : Op) (state : State) :
    (if counted first last (op, some state) then 1 else 0) ≤
      if state.allowed then 1 else 0 := by
  cases hallowed : state.allowed
  · simp [counted, hallowed]
  · rw [if_pos rfl]
    split <;> omega

theorem countP_counted_eq_zero {σ : Type} (step : σ → Op → Option State × σ)
    (state : σ) (key : GoString) (limit : Int64) (window : Duration)
    {times : List ℤ} {first last : ℤ} (hlate : ∀ now ∈ times, last < now) :
    (trace step state (times.map (Op.allow key limit window))).countP
      (counted first last) = 0 := by
  rw [List.countP_eq_zero]
  intro event hevent hcounted
  have hop : event.1 ∈ times.map (Op.allow key limit window) := by
    rw [← trace_map_fst step state (times.map (Op.allow key limit window))]
    exact List.mem_map_of_mem hevent
  obtain ⟨instant, hinstant, hallow⟩ := List.mem_map.mp hop
  have hlater := hlate instant hinstant
  simp only [counted, ← hallow, Op.now?, Option.any_some, Bool.and_eq_true,
    decide_eq_true_eq] at hcounted
  omega

def entryTrace {σ : Type} (step : σ → Op → Option State × σ) (key : GoString)
    (limit : Int64) (window : Duration) (state : σ) (times : List ℤ) :
    List (Op × Option State) :=
  trace step state (times.map (Op.allow key limit window))

theorem entryTrace_cons {σ : Type} (step : σ → Op → Option State × σ)
    (key : GoString) (limit : Int64) (window : Duration) (state : σ) (now : ℤ)
    (times : List ℤ) :
    entryTrace step key limit window state (now :: times) =
      (.allow key limit window now,
          (step state (.allow key limit window now)).1) ::
        entryTrace step key limit window
          (step state (.allow key limit window now)).2 times := rfl

theorem late_of_head_late {now : ℤ} {times : List ℤ} {last : ℤ}
    (htimes : (now :: times).Pairwise (· ≤ ·)) (hnow : last < now) :
    ∀ later ∈ now :: times, last < later := by
  intro later hlater
  rcases List.mem_cons.mp hlater with rfl | hlater
  · exact hnow
  · exact hnow.trans_le ((List.pairwise_cons.mp htimes).1 later hlater)

theorem timeSub_bounds {now earlier : ℤ} (hle : earlier ≤ now) :
    0 ≤ (timeSub now earlier).toInt ∧
      (timeSub now earlier).toInt ≤ now - earlier := by
  rcases timeSub_cases now earlier with h | h | h <;> omega

theorem seconds_div_seconds (d window : Duration) :
    seconds d / seconds window = (d.toInt : ℚ) / window.toInt := by
  unfold seconds
  rw [div_div_div_cancel_right₀ (by norm_num)]

theorem toInt_truncate_eq_min {x : ℚ} (hnonneg : 0 ≤ x) :
    (truncate x).toInt = min ⌊x⌋ (2 ^ 63 - 1) := by
  have hfloor : x.num.tdiv x.den = ⌊x⌋ := by
    rw [Int.tdiv_eq_ediv_of_nonneg (Rat.num_nonneg.mpr hnonneg),
      ← Rat.floor_intCast_div_natCast, Rat.num_div_den]
  have hlower : 0 ≤ ⌊x⌋ := Int.floor_nonneg.mpr hnonneg
  unfold truncate
  rw [hfloor]
  rcases ofIntClamp_cases ⌊x⌋ with h | h | h <;> omega

theorem toInt_truncate {x : ℚ} (hnonneg : 0 ≤ x) (hupper : x < 2 ^ 63) :
    (truncate x).toInt = ⌊x⌋ := by
  have hlt : ⌊x⌋ < 2 ^ 63 := by
    rw [Int.floor_lt]
    exact_mod_cast hupper
  rw [toInt_truncate_eq_min hnonneg]
  omega

end Ratelimit

end CacheGrid
