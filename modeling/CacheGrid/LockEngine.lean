import CacheGrid.GoValues
import CacheGrid.SequentialRuns

/-!
# The lock engine

`internal/lock`: an `Engine` keeps at most one entry for every key.  All
methods, and every pass of the cleanup goroutine, run under one mutex, so a
run is a sequence of calls, each with its own clock readings.  The sixteen
random bytes behind a token are a parameter of the call that draws them.
-/

namespace CacheGrid

namespace Lock

open SequentialRuns

structure Entry where
  key : GoString
  token : GoString
  fencingToken : UInt64
  expiresAt : ℤ
  owner : GoString
  deriving DecidableEq

def Entry.isExpired (e : Entry) (now : ℤ) : Bool := decide (e.expiresAt < now)

def Entry.setExpiresAt (e : Entry) (deadline : ℤ) : Entry :=
  { e with expiresAt := deadline }

structure Engine where
  locks : AList fun _ : GoString => Entry
  fencingSeq : UInt64

namespace Engine

def new : Engine := ⟨∅, 0⟩

end Engine

def hexDigit (n : ℕ) : UInt8 :=
  if n < 10 then UInt8.ofNat (48 + n) else UInt8.ofNat (87 + n)

def hexEncode (bytes : Bytes) : GoString :=
  bytes.flatMap fun byte =>
    [hexDigit (byte.toNat / 16), hexDigit (byte.toNat % 16)]

def generateToken (random : Fin 16 → UInt8) : GoString :=
  hexEncode (List.ofFn random)

namespace Engine

/-- The second half of `Acquire`: a new entry takes the place of whatever is
stored under the key. -/
def grant (e : Engine) (now : ℤ) (key : GoString) (ttl : Duration)
    (owner : GoString) (random : Fin 16 → UInt8) :
    (GoString × UInt64) × Engine :=
  let token := generateToken random
  let fencing := e.fencingSeq + 1
  ((token, fencing), {
    locks := e.locks.insert key
      ⟨key, token, fencing, addDuration now ttl, owner⟩
    fencingSeq := fencing })

/-- `Engine.Acquire`; `none` if the lock is held. -/
def acquire (e : Engine) (clock : Readings) (key : GoString) (ttl : Duration)
    (owner : GoString) (random : Fin 16 → UInt8) :
    Option (GoString × UInt64) × Engine :=
  match e.locks.lookup key with
  | none =>
    let granted := e.grant (clock.now 1) key ttl owner random
    (some granted.1, granted.2)
  | some existing =>
    if existing.isExpired (clock.now 0) then
      let granted := e.grant (clock.now 1) key ttl owner random
      (some granted.1, granted.2)
    else (none, e)

/-- `Engine.Release`, which does not look at the clock. -/
def release (e : Engine) (key token : GoString) : Bool × Engine :=
  match e.locks.lookup key with
  | none => (false, e)
  | some entry =>
    if entry.token ≠ token then (false, e)
    else (true, { e with locks := e.locks.erase key })

def extend (e : Engine) (clock : Readings) (key token : GoString)
    (ttl : Duration) : Bool × Engine :=
  match e.locks.lookup key with
  | none => (false, e)
  | some entry =>
    if entry.isExpired (clock.now 0) then (false, e)
    else if entry.token ≠ token then (false, e)
    else (true, { e with
      locks := e.locks.insert key
        (entry.setExpiresAt (addDuration (clock.now 1) ttl)) })

/-- The loop of one cleanup pass; `visit` says at which of the clock readings
a key is visited, the order of the iteration being open. -/
def sweep (clock : Readings) (visit : GoString → ℕ) :
    List (Σ _ : GoString, Entry) → Engine → Engine
  | [], e => e
  | ⟨key, entry⟩ :: rest, e =>
    if entry.isExpired (clock.now (visit key)) then
      sweep clock visit rest { e with locks := e.locks.erase key }
    else sweep clock visit rest e

def cleanup (e : Engine) (clock : Readings) (visit : GoString → ℕ) : Engine :=
  e.sweep clock visit e.locks.entries

end Engine

inductive Op where
  | acquire (key : GoString) (ttl : Duration) (owner : GoString)
      (random : Fin 16 → UInt8)
  | release (key token : GoString)
  | extend (key token : GoString) (ttl : Duration)
  | cleanup (visit : GoString → ℕ)

inductive Result where
  | acquired (granted : Option (GoString × UInt64))
  | flag (ok : Bool)
  | done
  deriving DecidableEq

def Engine.step (e : Engine) (call : Readings × Op) : Result × Engine :=
  match call.2 with
  | .acquire key ttl owner random =>
    let r := e.acquire call.1 key ttl owner random
    (.acquired r.1, r.2)
  | .release key token =>
    let r := e.release key token
    (.flag r.1, r.2)
  | .extend key token ttl =>
    let r := e.extend call.1 key token ttl
    (.flag r.1, r.2)
  | .cleanup visit => (.done, e.cleanup call.1 visit)

/-! ## What each call can do -/

theorem Entry.isExpired_iff {e : Entry} {now : ℤ} :
    e.isExpired now = true ↔ e.expiresAt < now := by
  simp [Entry.isExpired]

namespace Engine

theorem acquire_cases (e : Engine) (clock : Readings) (key : GoString)
    (ttl : Duration) (owner : GoString) (random : Fin 16 → UInt8) :
    e.acquire clock key ttl owner random = (none, e) ∨
      (∀ entry, e.locks.lookup key = some entry →
        entry.expiresAt < clock.now 0) ∧
      e.acquire clock key ttl owner random =
        (some (generateToken random, e.fencingSeq + 1),
          (e.grant (clock.now 1) key ttl owner random).2) := by
  unfold acquire
  cases hlookup : e.locks.lookup key with
  | none => exact Or.inr ⟨by simp, rfl⟩
  | some existing =>
    by_cases hexpired : existing.isExpired (clock.now 0) = true
    · refine Or.inr ⟨?_, by simp only [hexpired, if_true]; rfl⟩
      rintro _ ⟨⟩
      exact Entry.isExpired_iff.mp hexpired
    · exact Or.inl (by simp only [hexpired]; rfl)

theorem release_cases (e : Engine) (key token : GoString) :
    e.release key token = (false, e) ∨
      ∃ entry, e.locks.lookup key = some entry ∧ entry.token = token ∧
        e.release key token =
          (true, { e with locks := e.locks.erase key }) := by
  unfold release
  cases hlookup : e.locks.lookup key with
  | none => exact Or.inl rfl
  | some entry =>
    by_cases htoken : entry.token = token
    · exact Or.inr ⟨entry, rfl, htoken, by simp [htoken]⟩
    · exact Or.inl (by simp [htoken])

theorem extend_cases (e : Engine) (clock : Readings) (key token : GoString)
    (ttl : Duration) :
    e.extend clock key token ttl = (false, e) ∨
      ∃ entry, e.locks.lookup key = some entry ∧ entry.token = token ∧
        ¬ entry.expiresAt < clock.now 0 ∧
        e.extend clock key token ttl =
          (true, { e with
            locks := e.locks.insert key
              (entry.setExpiresAt (addDuration (clock.now 1) ttl)) }) := by
  unfold extend
  cases hlookup : e.locks.lookup key with
  | none => exact Or.inl rfl
  | some entry =>
    by_cases hexpired : entry.isExpired (clock.now 0) = true
    · exact Or.inl (by simp only [hexpired, if_true])
    · by_cases htoken : entry.token = token
      · have hlive := mt Entry.isExpired_iff.mpr hexpired
        exact Or.inr ⟨entry, rfl, htoken, hlive, by simp [hexpired, htoken]⟩
      · exact Or.inl (by simp [hexpired, htoken])

theorem refuses_other {e : Engine} {key token : GoString}
    (hother : ∀ entry, e.locks.lookup key = some entry →
      entry.token ≠ token) (clock : Readings) (ttl : Duration) :
    e.release key token = (false, e) ∧
      e.extend clock key token ttl = (false, e) := by
  constructor
  · rcases e.release_cases key token with
      hrefused | ⟨entry, hentry, htoken, _⟩
    · exact hrefused
    · exact absurd htoken (hother entry hentry)
  · rcases e.extend_cases clock key token ttl with
      hrefused | ⟨entry, hentry, htoken, _⟩
    · exact hrefused
    · exact absurd htoken (hother entry hentry)

theorem sweep_lookup (clock : Readings) (visit : GoString → ℕ)
    (entries : List (Σ _ : GoString, Entry)) (e : Engine) (key : GoString) :
    (e.sweep clock visit entries).locks.lookup key =
        e.locks.lookup key ∨
      (e.sweep clock visit entries).locks.lookup key = none ∧
        ∃ entry, ⟨key, entry⟩ ∈ entries ∧
          entry.expiresAt < clock.now (visit key) := by
  induction entries generalizing e with
  | nil => exact Or.inl rfl
  | cons head rest ih =>
    obtain ⟨other, entry⟩ := head
    rw [sweep]
    by_cases hexpired : entry.isExpired (clock.now (visit other)) = true
    · rw [if_pos hexpired]
      rcases ih { e with locks := e.locks.erase other } with
        hsame | ⟨hnone, found, hmem, hlt⟩
      · by_cases hkey : key = other
        · subst hkey
          refine Or.inr ⟨hsame.trans (AList.lookup_erase _ _), entry, ?_,
            Entry.isExpired_iff.mp hexpired⟩
          exact List.mem_cons_self
        · exact Or.inl (hsame.trans (AList.lookup_erase_ne hkey))
      · exact Or.inr ⟨hnone, found, List.mem_cons_of_mem _ hmem, hlt⟩
    · rw [if_neg hexpired]
      rcases ih e with hsame | ⟨hnone, found, hmem, hlt⟩
      · exact Or.inl hsame
      · exact Or.inr ⟨hnone, found, List.mem_cons_of_mem _ hmem, hlt⟩

theorem sweep_fencingSeq (clock : Readings) (visit : GoString → ℕ)
    (entries : List (Σ _ : GoString, Entry)) (e : Engine) :
    (e.sweep clock visit entries).fencingSeq = e.fencingSeq := by
  induction entries generalizing e with
  | nil => rfl
  | cons head rest ih =>
    rw [sweep]
    split
    · exact ih _
    · exact ih _

theorem cleanup_lookup (e : Engine) (clock : Readings)
    (visit : GoString → ℕ) (key : GoString) :
    (e.cleanup clock visit).locks.lookup key = e.locks.lookup key ∨
      (e.cleanup clock visit).locks.lookup key = none ∧
        ∃ entry, e.locks.lookup key = some entry ∧
          entry.expiresAt < clock.now (visit key) := by
  rcases sweep_lookup clock visit e.locks.entries e key with
    hsame | ⟨hnone, entry, hmem, hlt⟩
  · exact Or.inl hsame
  · exact Or.inr ⟨hnone, entry, AList.mem_lookup_iff.mpr hmem, hlt⟩

theorem step_cases (e : Engine) (call : Readings × Op) :
    (∃ key ttl owner random token,
        call.2 = .acquire key ttl owner random ∧
        (e.step call).1 = .acquired (some (token, e.fencingSeq + 1)) ∧
        (e.step call).2.fencingSeq = e.fencingSeq + 1) ∨
      (∀ granted, (e.step call).1 ≠ .acquired (some granted)) ∧
        (e.step call).2.fencingSeq = e.fencingSeq := by
  obtain ⟨clock, op⟩ := call
  cases op with
  | acquire key ttl owner random =>
    rcases e.acquire_cases clock key ttl owner random with
      hrefused | ⟨_, hgranted⟩
    · exact Or.inr (by simp [step, hrefused])
    · exact Or.inl ⟨key, ttl, owner, random, generateToken random, rfl,
        by simp [step, hgranted], by simp [step, hgranted, grant]⟩
  | release key token =>
    rcases e.release_cases key token with hrefused | ⟨_, _, _, hreleased⟩
    · exact Or.inr (by simp [step, hrefused])
    · exact Or.inr (by simp [step, hreleased])
  | extend key token ttl =>
    rcases e.extend_cases clock key token ttl with
      hrefused | ⟨_, _, _, _, hextended⟩
    · exact Or.inr (by simp [step, hrefused])
    · exact Or.inr (by simp [step, hextended])
  | cleanup visit =>
    refine Or.inr ⟨by simp [step], ?_⟩
    exact sweep_fencingSeq clock visit e.locks.entries e

end Engine

end Lock

end CacheGrid
