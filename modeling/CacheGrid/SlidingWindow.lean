import CacheGrid.RateLimiting

/-!
# The sliding window

`internal/ratelimit/slidingwindow.go`.  A window admits at most `limit` calls,
and a new window starts at least one window length after the one before it.
The weighted estimate never exceeds the limit by one, so its conversion to an
`int64` is exact.  All of this needs `2*windowLen` not to overflow: from a
length of `2^62` nanoseconds on the product is negative, every call starts a
new window, and every call is allowed.
-/

namespace CacheGrid

namespace Ratelimit

open SequentialRuns

structure Window where
  prevCount : Int64
  currCount : Int64
  limit : Int64
  windowLen : Duration
  currStart : ℤ

structure SlidingWindow where
  windows : AList fun _ : GoString => Window

namespace SlidingWindow

def new : SlidingWindow := ⟨∅⟩

def freshWindow (limit : Int64) (windowLen : Duration) (now : ℤ) : Window :=
  ⟨0, 0, limit, windowLen, now⟩

/-- "Update parameters" and "Advance windows". -/
def advance (w : Window) (limit : Int64) (windowLen : Duration) (now : ℤ) :
    Window :=
  let elapsed := timeSub now w.currStart
  if 2 * windowLen ≤ elapsed then ⟨0, 0, limit, windowLen, now⟩
  else if windowLen ≤ elapsed then
    ⟨w.currCount, 0, limit, windowLen, addDuration w.currStart windowLen⟩
  else ⟨w.prevCount, w.currCount, limit, windowLen, w.currStart⟩

def windowProgress (w : Window) (windowLen : Duration) (now : ℤ) : ℚ :=
  let progress := seconds (timeSub now w.currStart) / seconds windowLen
  if progress > 1 then 1 else progress

def estimatedCount (w : Window) (windowLen : Duration) (now : ℤ) : ℚ :=
  let prevWeight := 1 - windowProgress w windowLen now
  w.prevCount.toInt * prevWeight + w.currCount.toInt

def allowEntry (entry : Option Window) (limit : Int64) (windowLen : Duration)
    (now : ℤ) : State × Window :=
  let w := advance (entry.getD (freshWindow limit windowLen now)) limit
    windowLen now
  let estimated := estimatedCount w windowLen now
  let resetsAt := addDuration w.currStart windowLen
  if truncate estimated < limit then
    let remaining := limit - truncate estimated - 1
    (⟨true, if remaining < 0 then 0 else remaining, limit, resetsAt⟩,
      ⟨w.prevCount, w.currCount + 1, w.limit, w.windowLen, w.currStart⟩)
  else (⟨false, 0, limit, resetsAt⟩, w)

def allow (sw : SlidingWindow) (key : GoString) (limit : Int64)
    (windowLen : Duration) (now : ℤ) : State × SlidingWindow :=
  let next := allowEntry (sw.windows.lookup key) limit windowLen now
  (next.1, ⟨sw.windows.insert key next.2⟩)

def reset (sw : SlidingWindow) (key : GoString) : SlidingWindow :=
  ⟨sw.windows.erase key⟩

def step (sw : SlidingWindow) : Op → Option State × SlidingWindow
  | .allow key limit windowLen now =>
    let next := sw.allow key limit windowLen now
    (some next.1, next.2)
  | .reset key => (none, sw.reset key)

/-! ## One key -/

def entryStep (entry : Option Window) : Op → Option State × Option Window
  | .allow _ limit windowLen now =>
    let next := allowEntry entry limit windowLen now
    (some next.1, some next.2)
  | .reset _ => (none, none)

theorem entryStep_allow (entry : Option Window) (key : GoString) (limit : Int64)
    (windowLen : Duration) (now : ℤ) :
    entryStep entry (.allow key limit windowLen now) =
      (some (allowEntry entry limit windowLen now).1,
        some (allowEntry entry limit windowLen now).2) := rfl

theorem step_actsOnCell :
    ActsOnCell step entryStep (fun sw key => sw.windows.lookup key) Op.key where
  result_eq sw op := by cases op <;> rfl
  own_eq sw op := by
    cases op with
    | allow key limit windowLen now => exact AList.lookup_insert _
    | reset key => exact AList.lookup_erase _ _
  other_eq sw op k hne := by
    cases op with
    | allow key limit windowLen now => exact AList.lookup_insert_ne hne
    | reset key => exact AList.lookup_erase_ne hne

section Progress

variable {w : Window} {windowLen : Duration} {now later : ℤ}

theorem windowProgress_le_one (w : Window) (windowLen : Duration) (now : ℤ) :
    windowProgress w windowLen now ≤ 1 := by
  simp only [windowProgress]
  split
  · exact le_rfl
  · exact not_lt.mp ‹_›

theorem windowProgress_eq_min (w : Window) (windowLen : Duration) (now : ℤ) :
    windowProgress w windowLen now =
      min 1 ((timeSub now w.currStart).toInt / windowLen.toInt : ℚ) := by
  simp only [windowProgress, seconds_div_seconds]
  split
  · rw [min_eq_left (le_of_lt ‹_›)]
  · rw [min_eq_right (not_lt.mp ‹_›)]

theorem windowProgress_nonneg (hwindow : 0 < windowLen.toInt)
    (hstart : w.currStart ≤ now) : 0 ≤ windowProgress w windowLen now := by
  have hwindow' : (0 : ℚ) < windowLen.toInt := by exact_mod_cast hwindow
  have helapsed : (0 : ℚ) ≤ (timeSub now w.currStart).toInt := by
    exact_mod_cast (timeSub_bounds hstart).1
  rw [windowProgress_eq_min]
  positivity

theorem timeSub_mono (hle : now ≤ later) (u : ℤ) :
    (timeSub now u).toInt ≤ (timeSub later u).toInt := by
  rcases timeSub_cases now u with h | h | h <;>
    rcases timeSub_cases later u with h' | h' | h' <;> omega

theorem windowProgress_mono (hwindow : 0 < windowLen.toInt)
    (hle : now ≤ later) :
    windowProgress w windowLen now ≤ windowProgress w windowLen later := by
  have hwindow' : (0 : ℚ) < windowLen.toInt := by exact_mod_cast hwindow
  have helapsed : ((timeSub now w.currStart).toInt : ℚ) ≤
      (timeSub later w.currStart).toInt := by
    exact_mod_cast timeSub_mono hle w.currStart
  rw [windowProgress_eq_min, windowProgress_eq_min]
  gcongr

end Progress

section OneKey

variable {limit : Int64} {windowLen : Duration}

/-- The state of a window that has admitted `total` calls since `first`.  The
last fact is the potential: every window length that has passed since `first`
pays for `limit` calls. -/
structure Fair (limit : Int64) (windowLen : Duration) (first : ℤ) (total : ℕ)
    (now : ℤ) (w : Window) : Prop where
  start_le : w.currStart ≤ now
  prev_nonneg : 0 ≤ w.prevCount.toInt
  prev_le : w.prevCount.toInt ≤ limit.toInt
  curr_nonneg : 0 ≤ w.currCount.toInt
  curr_le : w.currCount.toInt ≤ limit.toInt
  estimate_lt : estimatedCount w windowLen now < limit.toInt + 1
  total_le : (total : ℤ) ≤
    limit.toInt * ((w.currStart - first) / windowLen.toInt) +
      w.currCount.toInt

theorem toInt_two_mul (hshort : windowLen.toInt < 2 ^ 62)
    (hwindow : 0 < windowLen.toInt) :
    (2 * windowLen).toInt = 2 * windowLen.toInt := by
  rw [Int64.toInt_mul, Int.bmod_eq_of_le] <;> simp <;> omega

theorem toInt_two_mul_neg (hlong : 2 ^ 62 ≤ windowLen.toInt) :
    (2 * windowLen).toInt < 0 := by
  have hlt := windowLen.toInt_lt
  rw [Int64.toInt_mul, Int.bmod_def]
  simp
  split <;> omega

theorem currCount_le_estimatedCount {w : Window}
    (hprev : 0 ≤ w.prevCount.toInt) (windowLen : Duration) (now : ℤ) :
    (w.currCount.toInt : ℚ) ≤ estimatedCount w windowLen now := by
  have hprev' : (0 : ℚ) ≤ w.prevCount.toInt := by exact_mod_cast hprev
  have hweight := sub_nonneg.mpr (windowProgress_le_one w windowLen now)
  simp only [estimatedCount]
  nlinarith

theorem estimatedCount_antitone {w : Window} {now later : ℤ}
    (hprev : 0 ≤ w.prevCount.toInt) (hwindow : 0 < windowLen.toInt)
    (hle : now ≤ later) :
    estimatedCount w windowLen later ≤ estimatedCount w windowLen now := by
  have hprev' : (0 : ℚ) ≤ w.prevCount.toInt := by exact_mod_cast hprev
  have hmono := windowProgress_mono (w := w) hwindow hle
  simp only [estimatedCount]
  gcongr

theorem fair_fresh (hlimit : 0 < limit.toInt) (now : ℤ) :
    Fair limit windowLen now 0 now (freshWindow limit windowLen now) where
  start_le := le_rfl
  prev_nonneg := le_rfl
  prev_le := hlimit.le
  curr_nonneg := le_rfl
  curr_le := hlimit.le
  estimate_lt := by
    have : (0 : ℚ) < limit.toInt := by exact_mod_cast hlimit
    simp [estimatedCount, freshWindow]
    linarith
  total_le := by simp [freshWindow]

variable {total : ℕ}

theorem fair_begun {first now : ℤ} {w : Window} (hlimit : 0 < limit.toInt)
    (hwindow : 0 < windowLen.toInt) (hstart : w.currStart ≤ now)
    (hprev : 0 ≤ w.prevCount.toInt) (hprev' : w.prevCount.toInt ≤ limit.toInt)
    (hcurr : w.currCount = 0)
    (htotal : (total : ℤ) ≤
      limit.toInt * ((w.currStart - first) / windowLen.toInt)) :
    Fair limit windowLen first total now w where
  start_le := hstart
  prev_nonneg := hprev
  prev_le := hprev'
  curr_nonneg := by simp [hcurr]
  curr_le := by simpa [hcurr] using hlimit.le
  estimate_lt := by
    have hprevQ : (0 : ℚ) ≤ w.prevCount.toInt := by exact_mod_cast hprev
    have hprevQ' : (w.prevCount.toInt : ℚ) ≤ limit.toInt := by
      exact_mod_cast hprev'
    have hnonneg := windowProgress_nonneg hwindow hstart
    simp only [estimatedCount, hcurr, Int64.toInt_zero, Int.cast_zero]
    nlinarith
  total_le := by
    simpa [hcurr] using htotal

theorem Fair.advance {first now later : ℤ} {w : Window}
    (hfair : Fair limit windowLen first total now w) (hlimit : 0 < limit.toInt)
    (hwindow : 0 < windowLen.toInt) (hshort : windowLen.toInt < 2 ^ 62)
    (hlater : now ≤ later) :
    Fair limit windowLen first total later
      (advance w limit windowLen later) := by
  have hstart := hfair.start_le.trans hlater
  have helapsed := timeSub_bounds hstart
  have hcurr := hfair.curr_le
  have htotal := hfair.total_le
  simp only [SlidingWindow.advance, Int64.le_iff_toInt_le,
    toInt_two_mul hshort hwindow]
  split
  · -- both windows have passed
    rename_i hboth
    refine fair_begun hlimit hwindow le_rfl le_rfl hlimit.le rfl ?_
    have hquot : (w.currStart - first) / windowLen.toInt + 1 ≤
        (later - first) / windowLen.toInt := by
      rw [← Int.add_mul_ediv_right _ _ hwindow.ne']
      exact Int.ediv_le_ediv hwindow (by omega)
    have := mul_le_mul_of_nonneg_left hquot hlimit.le
    linarith
  · split
    · -- the current window becomes the previous one
      rename_i hone
      refine fair_begun hlimit hwindow ?_ hfair.curr_nonneg hcurr rfl ?_
      · show w.currStart + windowLen.toInt ≤ later
        omega
      · show (total : ℤ) ≤ limit.toInt *
          ((w.currStart + windowLen.toInt - first) / windowLen.toInt)
        have hquot : (w.currStart + windowLen.toInt - first) /
            windowLen.toInt =
            (w.currStart - first) / windowLen.toInt + 1 := by
          rw [← Int.add_mul_ediv_right _ _ hwindow.ne']
          congr 1
          ring
        rw [hquot]
        linarith
    · exact ⟨hstart, hfair.prev_nonneg, hfair.prev_le, hfair.curr_nonneg,
        hfair.curr_le,
        (estimatedCount_antitone hfair.prev_nonneg hwindow hlater).trans_lt
          hfair.estimate_lt, htotal⟩

/-- The estimate fits into an `int64`, so the test of Allow is exact. -/
theorem Fair.truncate_lt_iff {first now : ℤ} {w : Window}
    (hfair : Fair limit windowLen first total now w) :
    truncate (estimatedCount w windowLen now) < limit ↔
      estimatedCount w windowLen now < limit.toInt := by
  have hcurr : (0 : ℚ) ≤ w.currCount.toInt := by
    exact_mod_cast hfair.curr_nonneg
  have hnonneg : 0 ≤ estimatedCount w windowLen now :=
    hcurr.trans
      (currCount_le_estimatedCount hfair.prev_nonneg windowLen now)
  have hlimit : (limit.toInt : ℚ) + 1 ≤ 2 ^ 63 := by
    have := limit.toInt_lt
    exact_mod_cast (by omega : limit.toInt + 1 ≤ 2 ^ 63)
  rw [Int64.lt_iff_toInt_lt,
    toInt_truncate hnonneg (hfair.estimate_lt.trans_le hlimit), Int.floor_lt]

theorem Fair.admit {first now : ℤ} {w : Window}
    (hfair : Fair limit windowLen first total now w)
    (hroom : estimatedCount w windowLen now < limit.toInt) :
    Fair limit windowLen first (total + 1) now
      ⟨w.prevCount, w.currCount + 1, w.limit, w.windowLen, w.currStart⟩ := by
  have hbelow : w.currCount.toInt < limit.toInt := by
    have := (currCount_le_estimatedCount hfair.prev_nonneg windowLen
      now).trans_lt hroom
    exact_mod_cast this
  have hnonneg := hfair.curr_nonneg
  have hcurr : (w.currCount + 1).toInt = w.currCount.toInt + 1 := by
    have := limit.toInt_lt
    rw [Int64.toInt_add, Int.bmod_eq_of_le] <;> simp <;> omega
  refine ⟨hfair.start_le, hfair.prev_nonneg, hfair.prev_le, ?_, ?_, ?_, ?_⟩
  · show 0 ≤ (w.currCount + 1).toInt
    omega
  · show (w.currCount + 1).toInt ≤ limit.toInt
    omega
  · have hmore : estimatedCount
        ⟨w.prevCount, w.currCount + 1, w.limit, w.windowLen, w.currStart⟩
        windowLen now = estimatedCount w windowLen now + 1 := by
      simp only [estimatedCount, windowProgress, hcurr]
      push_cast
      ring
    rw [hmore]
    linarith
  · have htotal := hfair.total_le
    show ((total + 1 : ℕ) : ℤ) ≤ limit.toInt *
      ((w.currStart - first) / windowLen.toInt) + (w.currCount + 1).toInt
    rw [hcurr]
    push_cast
    omega

theorem Fair.allowEntry {first now later : ℤ} {entry : Option Window}
    (hfair : Fair limit windowLen first total now
      (entry.getD (freshWindow limit windowLen later)))
    (hlimit : 0 < limit.toInt) (hwindow : 0 < windowLen.toInt)
    (hshort : windowLen.toInt < 2 ^ 62) (hlater : now ≤ later) :
    Fair limit windowLen first
      (total + if (allowEntry entry limit windowLen later).1.allowed then 1
        else 0) later (allowEntry entry limit windowLen later).2 := by
  have hadvanced := hfair.advance hlimit hwindow hshort hlater
  simp only [SlidingWindow.allowEntry, hadvanced.truncate_lt_iff]
  split
  · rename_i hroom
    exact hadvanced.admit hroom
  · exact hadvanced

theorem Fair.total_le_until {first now : ℤ} {w : Window}
    (hfair : Fair limit windowLen first total now w) (hlimit : 0 < limit.toInt)
    (hwindow : 0 < windowLen.toInt) {last : ℤ} (hlast : now ≤ last) :
    (total : ℤ) ≤ limit.toInt * ((last - first) / windowLen.toInt + 1) := by
  have hquot : (w.currStart - first) / windowLen.toInt ≤
      (last - first) / windowLen.toInt :=
    Int.ediv_le_ediv hwindow
      (sub_le_sub_right (hfair.start_le.trans hlast) first)
  have hscaled := mul_le_mul_of_nonneg_left hquot hlimit.le
  have htotal := hfair.total_le
  have hcurr := hfair.curr_le
  linarith

/-- The calls admitted until `last` never exceed `limit` for every window
length begun since `first`. -/
theorem Fair.countP_le {first now : ℤ} {w : Window}
    (hfair : Fair limit windowLen first total now w) (hlimit : 0 < limit.toInt)
    (hwindow : 0 < windowLen.toInt) (hshort : windowLen.toInt < 2 ^ 62)
    {times : List ℤ} (htimes : (now :: times).Pairwise (· ≤ ·))
    (key : GoString) {last : ℤ} (hlast : now ≤ last) :
    (total : ℤ) + (entryTrace entryStep key limit windowLen (some w) times).countP
        (counted first last) ≤
      limit.toInt * ((last - first) / windowLen.toInt + 1) := by
  induction times generalizing now total w with
  | nil =>
    simpa [entryTrace, trace] using
      hfair.total_le_until hlimit hwindow hlast
  | cons next times ih =>
    rw [List.pairwise_cons] at htimes
    have hnow := htimes.1 next List.mem_cons_self
    by_cases hnext : next ≤ last
    · have hentry : Fair limit windowLen first total now
          ((some w).getD (freshWindow limit windowLen next)) := hfair
      have hrest := ih (hentry.allowEntry hlimit hwindow hshort hnow)
        htimes.2 hnext
      have hhead := counted_le_allowed first last
        (.allow key limit windowLen next)
        (SlidingWindow.allowEntry (some w) limit windowLen next).1
      rw [Nat.cast_add] at hrest
      simp only [entryTrace_cons, entryStep_allow, List.countP_cons,
        Nat.cast_add]
      omega
    · have hlate := late_of_head_late htimes.2 (not_le.mp hnext)
      unfold entryTrace
      rw [countP_counted_eq_zero entryStep (some w) key limit windowLen
        hlate, Nat.cast_zero, add_zero]
      exact hfair.total_le_until hlimit hwindow hlast

/-- From a length of `2^62` nanoseconds on, every call is allowed. -/
theorem allowEntry_long {entry : Option Window} {now : ℤ}
    (hstart : (entry.getD (freshWindow limit windowLen now)).currStart ≤ now)
    (hlimit : 0 < limit.toInt) (hlong : 2 ^ 62 ≤ windowLen.toInt) :
    (allowEntry entry limit windowLen now).1.allowed = true ∧
      (allowEntry entry limit windowLen now).2.currStart = now := by
  have helapsed := (timeSub_bounds hstart).1
  have hadvance : advance (entry.getD (freshWindow limit windowLen now)) limit
      windowLen now = ⟨0, 0, limit, windowLen, now⟩ := by
    have hneg := toInt_two_mul_neg hlong
    simp only [advance, Int64.le_iff_toInt_le]
    rw [if_pos (by omega)]
  have hestimate : truncate (estimatedCount ⟨0, 0, limit, windowLen, now⟩
      windowLen now) < limit := by
    have hzero : estimatedCount ⟨0, 0, limit, windowLen, now⟩ windowLen now =
        0 := by
      simp [estimatedCount]
    rw [hzero, Int64.lt_iff_toInt_lt, toInt_truncate le_rfl (by norm_num)]
    simpa using hlimit
  simp only [allowEntry, hadvance, if_pos hestimate, and_self]

theorem countP_replicate_long (hlimit : 0 < limit.toInt)
    (hlong : 2 ^ 62 ≤ windowLen.toInt) (key : GoString) (now : ℤ) (n : ℕ)
    {entry : Option Window}
    (hstart : (entry.getD (freshWindow limit windowLen now)).currStart ≤
      now) :
    (entryTrace entryStep key limit windowLen entry (List.replicate n now)).countP
      (counted now now) = n := by
  induction n generalizing entry with
  | zero => simp [entryTrace, trace]
  | succ n ih =>
    obtain ⟨hallowed, hnext⟩ := allowEntry_long hstart hlimit hlong
    have hhead : counted now now (.allow key limit windowLen now,
        some (allowEntry entry limit windowLen now).1) = true := by
      simp [counted, Op.now?, hallowed]
    simp only [List.replicate_succ, entryTrace_cons, entryStep_allow]
    rw [List.countP_cons_of_pos hhead, ih (by simp [hnext])]

end OneKey

/-! ## The limiter -/

section Runs

variable {limit : Int64} {windowLen : Duration}

def firstCall (key : GoString) (ops : List Op) : Option ℤ :=
  ((ops.filter (Op.key · = key)).filterMap Op.now?).head?

theorem admitted_eq (key : GoString) (ops : List Op) (first last : ℤ) :
    admitted key first last (trace step new ops) =
      (trace entryStep none (ops.filter (Op.key · = key))).countP
        (counted first last) := by
  unfold admitted
  rw [step_actsOnCell.trace_filter]
  rfl

theorem run_admitted_le (hlimit : 0 < limit.toInt)
    (hwindow : 0 < windowLen.toInt) (hshort : windowLen.toInt < 2 ^ 62)
    {key : GoString} {ops : List Op} (htime : InTime ops)
    (hused : UsedWith key limit windowLen ops) {first : ℤ}
    (hfirst : firstCall key ops = some first) {T : ℤ} (hT : 0 ≤ T) :
    (admitted key first (first + T) (trace step new ops) : ℤ) ≤
      limit.toInt * (T / windowLen.toInt + 1) := by
  obtain ⟨times, htimes, _, hfilter⟩ := hused.exists_times htime
  have hhead : times.head? = some first := by
    rw [firstCall, hfilter, List.filterMap_map] at hfirst
    simpa [Function.comp_def, Op.now?] using hfirst
  obtain ⟨rest, rfl⟩ : ∃ rest, times = first :: rest := by
    cases times with
    | nil => cases hhead
    | cons now rest =>
      cases hhead
      exact ⟨rest, rfl⟩
  have hsorted : (first :: first :: rest).Pairwise (· ≤ ·) := by
    refine List.pairwise_cons.mpr ⟨fun later hlater => ?_, htimes⟩
    rcases List.mem_cons.mp hlater with rfl | hlater
    · exact le_rfl
    · exact (List.pairwise_cons.mp htimes).1 later hlater
  have hbound := (fair_fresh hlimit first).countP_le hlimit hwindow hshort
    hsorted key (le_add_of_nonneg_right hT)
  rw [Nat.cast_zero, zero_add, add_sub_cancel_left] at hbound
  -- the first call creates the window that `fair_fresh` starts from
  rw [admitted_eq, hfilter]
  exact hbound

def burst (key : GoString) (limit : Int64) (windowLen : Duration) (n : ℕ) :
    List Op :=
  List.replicate n (.allow key limit windowLen 0)

theorem burst_filter (key : GoString) (limit : Int64) (windowLen : Duration)
    (n : ℕ) :
    (burst key limit windowLen n).filter (Op.key · = key) =
      (List.replicate n 0).map (Op.allow key limit windowLen) := by
  rw [List.map_replicate, List.filter_eq_self.mpr]
  · rfl
  · intro op hop
    rw [List.eq_of_mem_replicate hop]
    exact decide_eq_true rfl

theorem inTime_burst (key : GoString) (limit : Int64) (windowLen : Duration)
    (n : ℕ) : InTime (burst key limit windowLen n) := by
  have hnow : (burst key limit windowLen n).filterMap Op.now? =
      List.replicate n 0 :=
    List.filterMap_replicate_of_some rfl
  unfold InTime
  rw [hnow]
  exact List.pairwise_replicate.mpr (Or.inr le_rfl)

theorem firstCall_burst (key : GoString) (limit : Int64)
    (windowLen : Duration) (n : ℕ) :
    firstCall key (burst key limit windowLen (n + 1)) = some 0 := by
  rw [firstCall, burst_filter, List.replicate_succ]
  rfl

theorem admitted_burst_long (hlimit : 0 < limit.toInt)
    (hlong : 2 ^ 62 ≤ windowLen.toInt) (key : GoString) (n : ℕ) :
    admitted key 0 0 (trace step new (burst key limit windowLen n)) = n := by
  rw [admitted_eq, burst_filter]
  exact countP_replicate_long hlimit hlong key 0 n le_rfl

/-- A sliding window used with one limit and one length.  From the first call
of the key on it admits at most `limit` calls for every window length begun,
exactly if twice the length is still an `int64`. -/
theorem run_admitted_iff (hlimit : 0 < limit.toInt)
    (hwindow : 0 < windowLen.toInt) :
    (∀ (key : GoString) (ops : List Op), InTime ops →
      UsedWith key limit windowLen ops →
      ∀ first, firstCall key ops = some first → ∀ T : ℤ, 0 ≤ T →
        (admitted key first (first + T) (trace step new ops) : ℤ) ≤
          limit.toInt * (T / windowLen.toInt + 1)) ↔
      windowLen.toInt < 2 ^ 62 := by
  constructor
  · intro hbound
    by_contra hlong
    rw [not_lt] at hlong
    -- one call more than the limit, all at one instant
    have hviolated := hbound [] (burst [] limit windowLen
      (limit.toInt.toNat + 1)) (inTime_burst ..)
      (fun op hop _ => ⟨0, List.eq_of_mem_replicate hop⟩) 0
      (firstCall_burst ..) 0 le_rfl
    rw [add_zero, admitted_burst_long hlimit hlong, Int.zero_ediv] at hviolated
    push_cast at hviolated
    omega
  · intro hshort key ops htime hused first hfirst T hT
    exact run_admitted_le hlimit hwindow hshort htime hused hfirst hT

/-- Three calls against a limit of one in ten nanoseconds. -/
theorem run_admitted_iff_ten :
    let ops : List Op := [.allow (ascii "k") 1 10 0, .allow (ascii "k") 1 10 3,
      .allow (ascii "k") 1 10 20]
    admitted (ascii "k") 0 25 (trace step new ops) = 2 ∧
      (admitted (ascii "k") 0 (0 + 25) (trace step new ops) : ℤ) ≤
        (1 : Int64).toInt * (25 / (10 : Duration).toInt + 1) := by
  refine ⟨by decide +kernel, ?_⟩
  refine (run_admitted_iff (by decide) (by decide)).mpr (by decide) (ascii "k")
    _ ?_ ?_ 0 rfl 25 (by decide)
  · unfold InTime
    decide
  · intro op hop _
    fin_cases hop
    · exact ⟨0, rfl⟩
    · exact ⟨3, rfl⟩
    · exact ⟨20, rfl⟩

/-- A window of `2^62` nanoseconds and a limit of one: both calls of the first
instant are allowed. -/
theorem run_exceeds_long_window :
    let windowLen : Duration := 4611686018427387904
    let ops : List Op := [.allow (ascii "k") 1 windowLen 0,
      .allow (ascii "k") 1 windowLen 0]
    firstCall (ascii "k") ops = some 0 ∧
      admitted (ascii "k") 0 (0 + 0) (trace step new ops) = 2 ∧
      (1 : Int64).toInt * (0 / windowLen.toInt + 1) = 1 := by
  decide +kernel

end Runs

end SlidingWindow

end Ratelimit

end CacheGrid
