import Mathlib.Tactic
import Mathlib.Data.List.AList

/-!
# Go values: strings, instants, durations and hashes

The source's own types are kept where their width matters: a `time.Duration`
is an `int64` number of nanoseconds and a `uint32` hash wraps.  A Go string is
a sequence of bytes.  An instant (`time.Time`) is an integer number of
nanoseconds since the Unix epoch: `time.Time` reaches far beyond the range of
an `int64` count of nanoseconds, and only `UnixNano` wraps.
-/

namespace CacheGrid

abbrev Bytes := List UInt8

/-- A Go string, as the bytes it holds. -/
abbrev GoString := List UInt8

/-- The bytes of an ASCII literal of the source. -/
def ascii (literal : String) : GoString :=
  literal.toList.map fun c => c.val.toUInt8

/-- `%d` and `strconv.Itoa` of a non-negative number. -/
def decimal (n : ℕ) : GoString :=
  (Nat.toDigits 10 n).map fun c => c.val.toUInt8

theorem decimal_length_le {n width : ℕ} (hwidth : 0 < width)
    (hn : n < 10 ^ width) : (decimal n).length ≤ width := by
  unfold decimal
  rw [List.length_map]
  exact Nat.toDigits_length 10 n width hwidth hn

theorem decimal_ne_nil (n : ℕ) : decimal n ≠ [] := by
  simp [decimal, Nat.toDigits_ne_nil]

/-- `%x` of a non-negative number. -/
def hexadecimal (n : ℕ) : GoString :=
  (Nat.toDigits 16 n).map fun c => c.val.toUInt8

/-! ## Instants and durations -/

/-- `time.Duration`: an `int64` number of nanoseconds. -/
abbrev Duration := Int64

def addDuration (t : ℤ) (d : Duration) : ℤ := t + d.toInt

/-- `t.Sub(u)`, which saturates at the ends of `time.Duration`; read at the
instant `u` it is also `time.Until(t)`. -/
def timeSub (t u : ℤ) : Duration := Int64.ofIntClamp (t - u)

/-- `t.UnixNano()`, taken modulo `2^64`. -/
def unixNano (t : ℤ) : Int64 := Int64.ofInt t

theorem ofIntClamp_cases (n : ℤ) :
    (n < -2 ^ 63 ∧ (Int64.ofIntClamp n).toInt = -2 ^ 63) ∨
      (-2 ^ 63 ≤ n ∧ n < 2 ^ 63 ∧ (Int64.ofIntClamp n).toInt = n) ∨
      (2 ^ 63 ≤ n ∧ (Int64.ofIntClamp n).toInt = 2 ^ 63 - 1) := by
  by_cases hlower : -2 ^ 63 ≤ n
  · by_cases hupper : n < 2 ^ 63
    · refine Or.inr (Or.inl ⟨hlower, hupper, ?_⟩)
      apply Int64.toInt_ofIntClamp
      · rwa [Int64.toInt_minValue]
      · rw [Int64.toInt_maxValue]
        omega
    · refine Or.inr (Or.inr ⟨not_lt.mp hupper, ?_⟩)
      unfold Int64.ofIntClamp
      rw [dif_pos (by rw [Int64.toInt_minValue]; exact hlower),
        dif_neg (by rw [Int64.toInt_maxValue]; omega)]
      exact Int64.toInt_maxValue
  · refine Or.inl ⟨not_le.mp hlower, ?_⟩
    unfold Int64.ofIntClamp
    rw [dif_neg (by rw [Int64.toInt_minValue]; exact hlower)]
    exact Int64.toInt_minValue

theorem timeSub_cases (t u : ℤ) :
    (t - u < -2 ^ 63 ∧ (timeSub t u).toInt = -2 ^ 63) ∨
      (-2 ^ 63 ≤ t - u ∧ t - u < 2 ^ 63 ∧ (timeSub t u).toInt = t - u) ∨
      (2 ^ 63 ≤ t - u ∧ (timeSub t u).toInt = 2 ^ 63 - 1) :=
  ofIntClamp_cases (t - u)

theorem toInt_timeSub {t u : ℤ}
    (hlower : -2 ^ 63 ≤ t - u) (hupper : t - u < 2 ^ 63) :
    (timeSub t u).toInt = t - u := by
  rcases timeSub_cases t u with h | h | h <;> omega

theorem timeSub_neg_iff (t u : ℤ) : timeSub t u < 0 ↔ t < u := by
  rw [Int64.lt_iff_toInt_lt, Int64.toInt_zero]
  rcases timeSub_cases t u with h | h | h <;> omega

theorem timeSub_pos_iff (t u : ℤ) : 0 < timeSub t u ↔ u < t := by
  rw [Int64.lt_iff_toInt_lt, Int64.toInt_zero]
  rcases timeSub_cases t u with h | h | h <;> omega

theorem toInt_unixNano {t : ℤ}
    (hlower : -2 ^ 63 ≤ t) (hupper : t < 2 ^ 63) :
    (unixNano t).toInt = t :=
  Int64.toInt_ofInt_of_le hlower hupper

theorem toInt_unixNano_le {t : ℤ} (hpos : 0 ≤ t) : (unixNano t).toInt ≤ t := by
  have hsize : ((Int64.size : ℕ) : ℤ) = 2 ^ 64 := rfl
  unfold unixNano
  rw [Int64.toInt_ofInt, Int.bmod_def, hsize]
  split <;> omega

theorem Duration.pos_iff (d : Duration) : 0 < d ↔ 0 < d.toInt := by
  rw [Int64.lt_iff_toInt_lt]
  simp

/-- The clock readings taken during one call.  They never decrease and lie
between the start and the end of the call. -/
structure Readings where
  start : ℤ
  finish : ℤ
  now : ℕ → ℤ
  mono : Monotone now
  start_le : ∀ i, start ≤ now i
  le_finish : ∀ i, now i ≤ finish

def Readings.instant (t : ℤ) : Readings where
  start := t
  finish := t
  now := fun _ => t
  mono := monotone_const
  start_le := fun _ => le_rfl
  le_finish := fun _ => le_rfl

@[simp] theorem Readings.instant_now (t : ℤ) (i : ℕ) :
    (Readings.instant t).now i = t := rfl

def Readings.skip (clock : Readings) (n : ℕ) : Readings where
  start := clock.start
  finish := clock.finish
  now := fun i => clock.now (n + i)
  mono := fun _ _ hle => clock.mono (Nat.add_le_add_left hle n)
  start_le := fun i => clock.start_le (n + i)
  le_finish := fun i => clock.le_finish (n + i)

theorem Readings.start_le_finish (clock : Readings) :
    clock.start ≤ clock.finish :=
  (clock.start_le 0).trans (clock.le_finish 0)

/-! ## Big-endian integers -/

/-- The low `width` bytes of a number, most significant first. -/
def beBytes : ℕ → ℕ → Bytes
  | 0, _ => []
  | width + 1, n => beBytes width (n / 256) ++ [UInt8.ofNat n]

def beNat (bytes : Bytes) : ℕ :=
  bytes.foldl (fun n byte => n * 256 + byte.toNat) 0

@[simp] theorem beBytes_length (width n : ℕ) :
    (beBytes width n).length = width := by
  induction width generalizing n with
  | zero => rfl
  | succ width ih => simp [beBytes, ih]

theorem beNat_beBytes (width n : ℕ) :
    beNat (beBytes width n) = n % 256 ^ width := by
  induction width generalizing n with
  | zero => simp [beBytes, beNat, Nat.mod_one]
  | succ width ih =>
    have hhigh := ih (n / 256)
    simp only [beNat] at hhigh
    simp only [beNat, beBytes, List.foldl_append, List.foldl_cons,
      List.foldl_nil, hhigh, UInt8.toNat_ofNat']
    rw [pow_succ' 256 width, Nat.mod_mul]
    omega

/-- `binary.BigEndian.PutUint64` of an `int64`. -/
def putInt64 (n : Int64) : Bytes := beBytes 8 n.toUInt64.toNat

/-- `int64(binary.BigEndian.Uint64(bytes))`. -/
def readInt64 (bytes : Bytes) : Int64 := (UInt64.ofNat (beNat bytes)).toInt64

@[simp] theorem putInt64_length (n : Int64) : (putInt64 n).length = 8 :=
  beBytes_length 8 _

theorem readInt64_putInt64 (n : Int64) : readInt64 (putInt64 n) = n := by
  unfold readInt64 putInt64
  rw [beNat_beBytes, show 256 ^ 8 = 2 ^ 64 by norm_num,
    Nat.mod_eq_of_lt n.toUInt64.toNat_lt]
  simp

/-! ## Decimal numbers -/

/-- The loop of `strconv.Atoi` over the digits, from the number read so far. -/
def readDigits (read : ℕ) : GoString → Option ℕ
  | [] => some read
  | digit :: rest =>
    if 48 ≤ digit ∧ digit ≤ 57 then
      readDigits (10 * read + (digit.toNat - 48)) rest
    else none

def readDecimal (text : GoString) : Option ℕ :=
  if text = [] then none else readDigits 0 text

def inInt64 (n : ℤ) : Option Int64 :=
  if -2 ^ 63 ≤ n ∧ n < 2 ^ 63 then some (Int64.ofInt n) else none

/-- `strconv.Atoi`, where an `int` has 64 bits, and `strconv.ParseInt` with base
10 and 64 bits. -/
def atoi (text : GoString) : Option Int64 :=
  match text with
  | 45 :: digits => (readDecimal digits).bind fun n => inInt64 (-n)
  | 43 :: digits => (readDecimal digits).bind fun n => inInt64 n
  | digits => (readDecimal digits).bind fun n => inInt64 n

/-! ## Hashing -/

/-- `fnv.New32a` applied to the bytes of a string: 32-bit FNV-1a. -/
def fnv32a (key : GoString) : UInt32 :=
  key.foldl (fun hash byte => (hash ^^^ byte.toUInt32) * 16777619) 2166136261

example : fnv32a (ascii "a") = 0xe40c292c := by decide

end CacheGrid
