import CacheGrid.RateLimiting

/-!
# The token bucket

`internal/ratelimit/tokenbucket.go`.  Between two calls a bucket gains at most
`limit / window` tokens per nanosecond and never holds more than `limit`, and
an allowed call costs one token.  So the tokens at the start of an interval
and the refill during it pay for every call allowed in it.
-/

namespace CacheGrid

namespace Ratelimit

open SequentialRuns

structure Bucket where
  tokens : ℚ
  limit : Int64
  lastFill : ℤ
  window : Duration

structure TokenBucket where
  buckets : AList fun _ : GoString => Bucket

namespace TokenBucket

def new : TokenBucket := ⟨∅⟩

def refill (b : Bucket) (limit : Int64) (window : Duration) (now : ℤ) : ℚ :=
  let elapsed := timeSub now b.lastFill
  let refillRate := (limit.toInt : ℚ) / seconds window
  let tokens := b.tokens + seconds elapsed * refillRate
  if tokens > limit.toInt then limit.toInt else tokens

def fresh (limit : Int64) (window : Duration) (now : ℤ) : Bucket :=
  ⟨limit.toInt, limit, now, window⟩

def allowEntry (entry : Option Bucket) (limit : Int64) (window : Duration)
    (now : ℤ) : State × Bucket :=
  let b := entry.getD (fresh limit window now)
  let tokens := refill b limit window now
  let resetsAt := addDuration now window
  if 1 ≤ tokens then
    (⟨true, truncate (tokens - 1), limit, resetsAt⟩,
      ⟨tokens - 1, limit, now, window⟩)
  else (⟨false, 0, limit, resetsAt⟩, ⟨tokens, limit, now, window⟩)

def allow (tb : TokenBucket) (key : GoString) (limit : Int64)
    (window : Duration) (now : ℤ) : State × TokenBucket :=
  let next := allowEntry (tb.buckets.lookup key) limit window now
  (next.1, ⟨tb.buckets.insert key next.2⟩)

def reset (tb : TokenBucket) (key : GoString) : TokenBucket :=
  ⟨tb.buckets.erase key⟩

def step (tb : TokenBucket) : Op → Option State × TokenBucket
  | .allow key limit window now =>
    let next := tb.allow key limit window now
    (some next.1, next.2)
  | .reset key => (none, tb.reset key)

/-! ## One key -/

def entryStep (entry : Option Bucket) : Op → Option State × Option Bucket
  | .allow _ limit window now =>
    let next := allowEntry entry limit window now
    (some next.1, some next.2)
  | .reset _ => (none, none)

theorem entryStep_allow (entry : Option Bucket) (key : GoString) (limit : Int64)
    (window : Duration) (now : ℤ) :
    entryStep entry (.allow key limit window now) =
      (some (allowEntry entry limit window now).1,
        some (allowEntry entry limit window now).2) := rfl

theorem step_actsOnCell :
    ActsOnCell step entryStep (fun tb key => tb.buckets.lookup key) Op.key where
  result_eq tb op := by cases op <;> rfl
  own_eq tb op := by
    cases op with
    | allow key limit window now => exact AList.lookup_insert _
    | reset key => exact AList.lookup_erase _ _
  other_eq tb op k hne := by
    cases op with
    | allow key limit window now => exact AList.lookup_insert_ne hne
    | reset key => exact AList.lookup_erase_ne hne

section OneKey

variable {limit : Int64} {window : Duration}

/-- The bucket was last filled at or before `now` and is neither overdrawn
nor overfull. -/
structure Sound (limit : Int64) (now : ℤ) (b : Bucket) : Prop where
  lastFill_le : b.lastFill ≤ now
  nonneg : 0 ≤ b.tokens
  le_limit : b.tokens ≤ limit.toInt

variable {b : Bucket}

theorem Sound.mono {now later : ℤ} (hsound : Sound limit now b)
    (hle : now ≤ later) : Sound limit later b :=
  ⟨hsound.lastFill_le.trans hle, hsound.nonneg, hsound.le_limit⟩

theorem sound_fresh (hlimit : 0 < limit.toInt) (now : ℤ) :
    Sound limit now (fresh limit window now) where
  lastFill_le := le_rfl
  nonneg := by
    have : (0 : ℚ) ≤ limit.toInt := by exact_mod_cast hlimit.le
    exact this
  le_limit := le_rfl

theorem refill_le (b : Bucket) (limit : Int64) (window : Duration) (now : ℤ) :
    refill b limit window now ≤ limit.toInt := by
  simp only [refill]
  split
  · exact le_rfl
  · exact not_lt.mp ‹_›

theorem earned_eq (elapsed window : Duration) (limit : Int64) :
    seconds elapsed * ((limit.toInt : ℚ) / seconds window) =
      limit.toInt * ((elapsed.toInt : ℚ) / window.toInt) := by
  rw [← seconds_div_seconds]
  ring

variable {now : ℤ}

theorem Sound.refill_nonneg (hsound : Sound limit now b)
    (hlimit : 0 < limit.toInt) (hwindow : 0 < window.toInt) :
    0 ≤ refill b limit window now := by
  have hlimit' : (0 : ℚ) ≤ limit.toInt := by exact_mod_cast hlimit.le
  have hwindow' : (0 : ℚ) ≤ window.toInt := by exact_mod_cast hwindow.le
  have helapsed : (0 : ℚ) ≤ (timeSub now b.lastFill).toInt := by
    exact_mod_cast (timeSub_bounds hsound.lastFill_le).1
  simp only [refill, earned_eq]
  split
  · exact hlimit'
  · have := hsound.nonneg
    positivity

theorem Sound.refill_growth (hsound : Sound limit now b)
    (hlimit : 0 < limit.toInt) (hwindow : 0 < window.toInt) :
    refill b limit window now ≤
      b.tokens + limit.toInt * (now - b.lastFill) / window.toInt := by
  have hlimit' : (0 : ℚ) ≤ limit.toInt := by exact_mod_cast hlimit.le
  have hwindow' : (0 : ℚ) < window.toInt := by exact_mod_cast hwindow
  have helapsed : ((timeSub now b.lastFill).toInt : ℚ) ≤ now - b.lastFill := by
    exact_mod_cast (timeSub_bounds hsound.lastFill_le).2
  have hearned : b.tokens + limit.toInt *
      (((timeSub now b.lastFill).toInt : ℚ) / window.toInt) ≤
      b.tokens + limit.toInt * (now - b.lastFill) / window.toInt := by
    rw [mul_div_assoc]
    gcongr
  simp only [refill, earned_eq]
  split
  · exact (le_of_lt ‹_›).trans hearned
  · exact hearned

theorem allowEntry_spends (entry : Option Bucket) (limit : Int64)
    (window : Duration) (now : ℤ) :
    ((if (allowEntry entry limit window now).1.allowed then 1 else 0 : ℕ) : ℚ) +
      (allowEntry entry limit window now).2.tokens =
      refill (entry.getD (fresh limit window now)) limit window now := by
  simp only [allowEntry]
  split <;> simp

theorem allowEntry_lastFill (entry : Option Bucket) (now : ℤ) :
    (allowEntry entry limit window now).2.lastFill = now := by
  simp only [allowEntry]
  split <;> rfl

def SoundEntry (limit : Int64) (now : ℤ) (entry : Option Bucket) : Prop :=
  ∀ b ∈ entry, Sound limit now b

variable {entry : Option Bucket}

theorem SoundEntry.getD (hsound : SoundEntry limit now entry)
    (hlimit : 0 < limit.toInt) (window : Duration) :
    Sound limit now (entry.getD (fresh limit window now)) := by
  cases entry with
  | none => exact sound_fresh hlimit now
  | some b => exact hsound b rfl

theorem SoundEntry.allow (hsound : SoundEntry limit now entry)
    (hlimit : 0 < limit.toInt) (hwindow : 0 < window.toInt) :
    Sound limit now (allowEntry entry limit window now).2 := by
  have hb := hsound.getD hlimit window
  have hnonneg := hb.refill_nonneg hlimit hwindow
  have hle := refill_le (entry.getD (fresh limit window now)) limit window now
  simp only [allowEntry]
  split
  · rename_i hone
    exact ⟨le_rfl, sub_nonneg.mpr hone, (sub_le_self _ zero_le_one).trans hle⟩
  · exact ⟨le_rfl, hnonneg, hle⟩

theorem SoundEntry.mono {now later : ℤ} (hsound : SoundEntry limit now entry)
    (hle : now ≤ later) :
    SoundEntry limit later entry :=
  fun b hb => (hsound b hb).mono hle

theorem SoundEntry.some_allow (hsound : SoundEntry limit now entry)
    (hlimit : 0 < limit.toInt) (hwindow : 0 < window.toInt) :
    SoundEntry limit now (some (allowEntry entry limit window now).2) := by
  intro b hb
  cases hb
  exact hsound.allow hlimit hwindow

theorem countP_entryTrace_cons_le (key : GoString) (limit : Int64)
    (window : Duration) (entry : Option Bucket) (now : ℤ) (times : List ℤ)
    (first last : ℤ) :
    (((entryTrace entryStep key limit window entry (now :: times)).countP
        (counted first last) : ℕ) : ℚ) +
        (allowEntry entry limit window now).2.tokens ≤
      refill (entry.getD (fresh limit window now)) limit window now +
        ((entryTrace entryStep key limit window
          (some (allowEntry entry limit window now).2) times).countP
            (counted first last) : ℕ) := by
  have hspends := allowEntry_spends entry limit window now
  have hhead := counted_le_allowed first last (.allow key limit window now)
    (allowEntry entry limit window now).1
  have hhead' : ((if counted first last (.allow key limit window now,
      some (allowEntry entry limit window now).1) then 1 else 0 : ℕ) : ℚ) ≤
      ((if (allowEntry entry limit window now).1.allowed then 1 else 0 : ℕ) :
        ℚ) := by
    exact_mod_cast hhead
  simp only [entryTrace_cons, entryStep_allow, List.countP_cons, Nat.cast_add]
  linarith

/-- The tokens of a bucket and its refill until `last` pay for all calls
allowed until then. -/
theorem Sound.countP_le (hsound : Sound limit now b) (hlimit : 0 < limit.toInt)
    (hwindow : 0 < window.toInt) {times : List ℤ}
    (htimes : (now :: times).Pairwise (· ≤ ·)) (key : GoString) (first : ℤ)
    {last : ℤ} (hlast : b.lastFill ≤ last) :
    (((entryTrace entryStep key limit window (some b) times).countP
        (counted first last) : ℕ) : ℚ) ≤
      b.tokens + limit.toInt * (last - b.lastFill) / window.toInt := by
  have hlimit' : (0 : ℚ) ≤ limit.toInt := by exact_mod_cast hlimit.le
  have hwindow' : (0 : ℚ) < window.toInt := by exact_mod_cast hwindow
  have hrest : ∀ from' : ℤ, from' ≤ last →
      (0 : ℚ) ≤ limit.toInt * (last - from') / window.toInt := by
    intro from' hfrom
    have : (0 : ℚ) ≤ last - from' := by exact_mod_cast sub_nonneg.mpr hfrom
    positivity
  induction times generalizing b now with
  | nil =>
    have := hsound.nonneg
    have := hrest b.lastFill hlast
    simp only [entryTrace, List.map_nil, trace, List.countP_nil,
      Nat.cast_zero]
    linarith
  | cons next times ih =>
    rw [List.pairwise_cons] at htimes
    have hsound' := hsound.mono (htimes.1 next List.mem_cons_self)
    have hentry : SoundEntry limit next (some b) := by
      intro b' hb'
      cases hb'
      exact hsound'
    by_cases hnext : next ≤ last
    · have hcons := countP_entryTrace_cons_le key limit window (some b) next
        times first last
      have hlater := ih (hentry.allow hlimit hwindow) htimes.2
        ((allowEntry_lastFill (some b) next).trans_le hnext)
      have hgrowth := hsound'.refill_growth hlimit hwindow
      rw [allowEntry_lastFill] at hlater
      have hsplit : limit.toInt * (last - b.lastFill : ℚ) / window.toInt =
          limit.toInt * (next - b.lastFill) / window.toInt +
            limit.toInt * (last - next) / window.toInt := by
        ring
      simp only [Option.getD_some] at hcons
      linarith
    · have hlate := late_of_head_late htimes.2 (not_le.mp hnext)
      unfold entryTrace
      rw [countP_counted_eq_zero entryStep (some b) key limit window hlate,
        Nat.cast_zero]
      have := hsound.nonneg
      have := hrest b.lastFill hlast
      linarith

/-- At most the limit and the refill during the interval are allowed in it,
wherever the interval starts. -/
theorem SoundEntry.countP_le {times : List ℤ}
    (hsound : ∀ now ∈ times, SoundEntry limit now entry)
    (hlimit : 0 < limit.toInt) (hwindow : 0 < window.toInt)
    (htimes : times.Pairwise (· ≤ ·)) (key : GoString) {first last : ℤ}
    (hfirst : first ≤ last) :
    (((entryTrace entryStep key limit window entry times).countP
        (counted first last) : ℕ) : ℚ) ≤
      limit.toInt + limit.toInt * (last - first) / window.toInt := by
  have hlimit' : (0 : ℚ) ≤ limit.toInt := by exact_mod_cast hlimit.le
  have hwindow' : (0 : ℚ) < window.toInt := by exact_mod_cast hwindow
  induction times generalizing entry with
  | nil =>
    have : (0 : ℚ) ≤ last - first := by
      exact_mod_cast sub_nonneg.mpr hfirst
    simp only [entryTrace, List.map_nil, trace, List.countP_nil,
      Nat.cast_zero]
    positivity
  | cons now times ih =>
    have hentry := hsound now List.mem_cons_self
    have hafter := hentry.allow hlimit hwindow
    have htimes' := List.pairwise_cons.mp htimes
    by_cases hbefore : now < first
    · have hskip : counted first last (.allow key limit window now,
          some (allowEntry entry limit window now).1) = false := by
        simp [counted, Op.now?, not_le.mpr hbefore]
      simp only [entryTrace_cons, entryStep_allow]
      rw [List.countP_cons_of_neg (by simp [hskip])]
      refine ih (fun later hlater => ?_) htimes'.2
      exact (hentry.some_allow hlimit hwindow).mono (htimes'.1 later hlater)
    · rw [not_lt] at hbefore
      have hcons := countP_entryTrace_cons_le key limit window entry now
        times first last
      have hcap := refill_le (entry.getD (fresh limit window now)) limit
        window now
      by_cases hnow : now ≤ last
      · have hlater := hafter.countP_le hlimit hwindow htimes key first
          ((allowEntry_lastFill entry now).trans_le hnow)
        have hshift : limit.toInt * (last - now : ℚ) / window.toInt ≤
            limit.toInt * (last - first) / window.toInt := by
          have : (first : ℚ) ≤ now := by exact_mod_cast hbefore
          gcongr
        rw [allowEntry_lastFill] at hlater
        linarith
      · have hlate := late_of_head_late htimes (not_le.mp hnow)
        have : (0 : ℚ) ≤ last - first := by
          exact_mod_cast sub_nonneg.mpr hfirst
        unfold entryTrace
        rw [countP_counted_eq_zero entryStep entry key limit window hlate,
          Nat.cast_zero]
        positivity

theorem SoundEntry.run {times : List ℤ}
    (hsound : ∀ now ∈ times, SoundEntry limit now entry)
    (hlimit : 0 < limit.toInt) (hwindow : 0 < window.toInt)
    (htimes : times.Pairwise (· ≤ ·)) (key : GoString) {later : ℤ}
    (hlater : ∀ now ∈ times, now ≤ later)
    (hstart : SoundEntry limit later entry) :
    SoundEntry limit later
      (SequentialRuns.run entryStep entry
        (times.map (Op.allow key limit window))).2 := by
  induction times generalizing entry with
  | nil => exact hstart
  | cons now times ih =>
    have htimes' := List.pairwise_cons.mp htimes
    have hafter := (hsound now List.mem_cons_self).some_allow hlimit hwindow
    refine ih (fun next hnext => ?_) htimes'.2
      (fun next hnext => hlater next (List.mem_cons_of_mem now hnext)) ?_
    · exact hafter.mono (htimes'.1 next hnext)
    · exact hafter.mono (hlater now List.mem_cons_self)

/-! ## Calls at one instant -/

theorem refill_same_instant (hle : b.tokens ≤ limit.toInt) (window : Duration) :
    refill b limit window b.lastFill = b.tokens := by
  have hzero : (timeSub b.lastFill b.lastFill).toInt = 0 := by
    rw [toInt_timeSub (by omega) (by omega), sub_self]
  simp only [refill, earned_eq, hzero]
  simp [not_lt.mpr hle]

theorem allowEntry_allowed (entry : Option Bucket) (limit : Int64)
    (window : Duration) (now : ℤ) :
    (allowEntry entry limit window now).1.allowed =
      decide (1 ≤ refill (entry.getD (fresh limit window now)) limit window
        now) := by
  simp only [allowEntry]
  split <;> simp [*]

/-- A bucket allows as many further calls at the same instant as it has whole
tokens. -/
theorem Sound.countP_replicate (hsound : Sound limit now b)
    (hfill : b.lastFill = now) (hlimit : 0 < limit.toInt)
    (hwindow : 0 < window.toInt) (key : GoString) (n : ℕ) :
    (entryTrace entryStep key limit window (some b) (List.replicate n now)).countP
        (fun event => event.2.any State.allowed) =
      min n ⌊b.tokens⌋.toNat := by
  induction n generalizing b with
  | zero => simp [entryTrace, trace]
  | succ n ih =>
    have hentry : SoundEntry limit now (some b) := by
      intro b' hb'
      cases hb'
      exact hsound
    have hcount := ih (hentry.allow hlimit hwindow)
      (allowEntry_lastFill (some b) now)
    have hspends := allowEntry_spends (some b) limit window now
    have hallowed := allowEntry_allowed (some b) limit window now
    have hrefill : refill b limit window now = b.tokens := by
      rw [← hfill]
      exact refill_same_instant hsound.le_limit window
    rw [Option.getD_some, hrefill] at hspends hallowed
    simp only [List.replicate_succ, entryTrace_cons, entryStep_allow,
      List.countP_cons]
    rw [hcount]
    simp only [Option.any_some, hallowed] at hspends ⊢
    by_cases hone : 1 ≤ b.tokens
    · have hfloor : 1 ≤ ⌊b.tokens⌋ := Int.le_floor.mpr (by simpa using hone)
      have htokens : (allowEntry (some b) limit window now).2.tokens =
          b.tokens - 1 := by
        simp only [hone, decide_true, if_true, Nat.cast_one] at hspends
        linarith
      rw [htokens, Int.floor_sub_one]
      simp only [hone, decide_true, if_true]
      omega
    · have hfloor : ⌊b.tokens⌋ < 1 := Int.floor_lt.mpr (by simpa using hone)
      have htokens : (allowEntry (some b) limit window now).2.tokens =
          b.tokens := by
        simp only [hone, decide_false] at hspends
        simpa using hspends
      rw [htokens]
      simp only [hone, decide_false]
      simp only [Bool.false_eq_true, if_false]
      omega

theorem SoundEntry.toInt_remaining (hsound : SoundEntry limit now entry)
    (hlimit : 0 < limit.toInt) (hwindow : 0 < window.toInt)
    (hallowed : (allowEntry entry limit window now).1.allowed = true) :
    (allowEntry entry limit window now).1.remaining.toInt =
      ⌊(allowEntry entry limit window now).2.tokens⌋ := by
  have hafter := hsound.allow hlimit hwindow
  rw [allowEntry_allowed, decide_eq_true_eq] at hallowed
  have hresult : (allowEntry entry limit window now).1.remaining =
      truncate (allowEntry entry limit window now).2.tokens := by
    simp only [allowEntry, if_pos hallowed]
  rw [hresult]
  apply toInt_truncate hafter.nonneg
  have hlt : (limit.toInt : ℚ) < 2 ^ 63 := by exact_mod_cast limit.toInt_lt
  exact hafter.le_limit.trans_lt hlt

end OneKey

/-! ## The limiter -/

section Runs

variable {key : GoString} {limit : Int64} {window : Duration} {ops : List Op}

theorem lookup_new (key : GoString) : new.buckets.lookup key = none :=
  AList.lookup_empty key

theorem soundEntry_none (limit : Int64) (now : ℤ) :
    SoundEntry limit now none := by
  intro b hb
  cases hb

theorem run_soundEntry (hlimit : 0 < limit.toInt) (hwindow : 0 < window.toInt)
    (htime : InTime ops) (hused : UsedWith key limit window ops) {later : ℤ}
    (hlater : ∀ now ∈ ops.filterMap Op.now?, now ≤ later) :
    SoundEntry limit later ((run step new ops).2.buckets.lookup key) := by
  obtain ⟨times, htimes, hsub, hfilter⟩ := hused.exists_times htime
  rw [step_actsOnCell.run_cell, hfilter, lookup_new]
  exact SoundEntry.run (fun now _ => soundEntry_none limit now) hlimit hwindow
    htimes key (fun now hnow => hlater now (hsub.subset hnow))
    (soundEntry_none limit later)

theorem run_admitted_le (hlimit : 0 < limit.toInt)
    (hwindow : 0 < window.toInt) (htime : InTime ops)
    (hused : UsedWith key limit window ops) {first last : ℤ}
    (hfirst : first ≤ last) :
    (admitted key first last (trace step new ops) : ℚ) ≤
      limit.toInt + limit.toInt * (last - first) / window.toInt := by
  obtain ⟨times, htimes, _, hfilter⟩ := hused.exists_times htime
  unfold admitted
  rw [step_actsOnCell.trace_filter, hfilter, lookup_new]
  exact SoundEntry.countP_le (fun now _ => soundEntry_none limit now) hlimit
    hwindow htimes key hfirst

theorem trace_replicate (tb : TokenBucket) (n : ℕ) (now : ℤ) :
    (trace step tb (List.replicate n (.allow key limit window now))).countP
        (fun event => event.2.any State.allowed) =
      (entryTrace entryStep key limit window (tb.buckets.lookup key)
        (List.replicate n now)).countP
        (fun event => event.2.any State.allowed) := by
  have hown : (List.replicate n (Op.allow key limit window now)).filter
      (Op.key · = key) = List.replicate n (.allow key limit window now) := by
    rw [List.filter_eq_self]
    intro op hop
    rw [List.eq_of_mem_replicate hop]
    exact decide_eq_true rfl
  have hall : (trace step tb
      (List.replicate n (.allow key limit window now))).filter
      (fun event => event.1.key = key) = trace step tb
      (List.replicate n (.allow key limit window now)) := by
    rw [List.filter_eq_self]
    intro event hevent
    have hop : event.1 ∈ List.replicate n (Op.allow key limit window now) := by
      rw [← trace_map_fst step tb
        (List.replicate n (.allow key limit window now))]
      exact List.mem_map_of_mem hevent
    rw [List.eq_of_mem_replicate hop]
    exact decide_eq_true rfl
  rw [← hall, step_actsOnCell.trace_filter, hown]
  unfold entryTrace
  rw [List.map_replicate]

/-- A token bucket used with one limit and one window.  In every interval it
allows at most the limit plus the refill of the interval; the tokens stay
between zero and the limit; and an allowed call reports how many further
calls it would allow at the same instant. -/
theorem run_rate_bound (hlimit : 0 < limit.toInt) (hwindow : 0 < window.toInt)
    (htime : InTime ops) (hused : UsedWith key limit window ops) :
    (∀ first T : ℤ, 0 ≤ T →
      (admitted key first (first + T) (trace step new ops) : ℚ) ≤
        limit.toInt + limit.toInt * T / window.toInt) ∧
    (∀ before after, ops = before ++ after →
      ∀ b ∈ (run step new before).2.buckets.lookup key,
        0 ≤ b.tokens ∧ b.tokens ≤ limit.toInt) ∧
    (∀ before now after,
      ops = before ++ .allow key limit window now :: after →
      let next := (run step new before).2.allow key limit window now
      next.1.allowed = true →
        0 ≤ next.1.remaining.toInt ∧
        ∀ n, (trace step next.2
            (List.replicate n (.allow key limit window now))).countP
              (fun event => event.2.any State.allowed) =
          min n next.1.remaining.toInt.toNat) := by
  refine ⟨fun first T hT => ?_, fun before after hops b hb => ?_, ?_⟩
  · have hbound := run_admitted_le hlimit hwindow htime hused
      (le_add_of_nonneg_right hT : first ≤ first + T)
    have hlength : ((first + T : ℤ) : ℚ) - first = T := by
      push_cast
      ring
    rwa [hlength] at hbound
  · subst hops
    obtain ⟨later, hlater⟩ :=
      (List.finite_toSet (before.filterMap Op.now?)).bddAbove
    have hsound := run_soundEntry hlimit hwindow htime.of_append_left
      hused.of_append_left (fun now hnow => hlater hnow) b hb
    exact ⟨hsound.nonneg, hsound.le_limit⟩
  · intro before now after hops next hallowed
    subst hops
    have hlater : ∀ earlier ∈ before.filterMap Op.now?, earlier ≤ now := by
      intro earlier hearlier
      unfold InTime at htime
      rw [List.filterMap_append] at htime
      exact (List.pairwise_append.mp htime).2.2 earlier hearlier now
        (List.mem_cons_self (l := after.filterMap Op.now?))
    have hsound := run_soundEntry hlimit hwindow htime.of_append_left
      hused.of_append_left hlater
    have hremaining := hsound.toInt_remaining hlimit hwindow hallowed
    have hafter := hsound.allow hlimit hwindow
    have hlookup : next.2.buckets.lookup key = some (allowEntry
        ((run step new before).2.buckets.lookup key) limit window now).2 :=
      AList.lookup_insert _
    refine ⟨?_, fun n => ?_⟩
    · exact hremaining.symm ▸ Int.floor_nonneg.mpr hafter.nonneg
    · rw [trace_replicate, hlookup, hafter.countP_replicate
        (allowEntry_lastFill _ now) hlimit hwindow, ← hremaining]
      rfl

/-- Two calls at one instant against a limit of two, then a denied third. -/
theorem run_rate_bound_burst :
    let call := Op.allow (ascii "k") 2 10 5
    admitted (ascii "k") 5 5 (trace step new [call, call, call]) = 2 ∧
      (admitted (ascii "k") 5 5 (trace step new [call, call, call]) : ℚ) ≤
        (2 : Int64).toInt + (2 : Int64).toInt * 0 / (10 : Duration).toInt := by
  refine ⟨by decide +kernel, ?_⟩
  have hused : UsedWith (ascii "k") 2 10
      (List.replicate 3 (.allow (ascii "k") 2 10 5)) := by
    intro op hop _
    exact ⟨5, List.eq_of_mem_replicate hop⟩
  have htime : InTime (List.replicate 3 (.allow (ascii "k") 2 10 5)) := by
    unfold InTime
    decide
  have hbound := (run_rate_bound (by decide) (by decide) htime hused).1 5 0
    le_rfl
  exact_mod_cast hbound

end Runs

end TokenBucket

end Ratelimit

end CacheGrid
