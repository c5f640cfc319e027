import CacheGrid.LockEngine

/-!
# What the cleanup of the lock engine changes

The cleanup goroutine removes entries whose deadline has passed.  Acquire,
Extend and IsHeld treat such an entry as no entry.  Release does not look at
the deadline: it takes the token of an expired lock as long as the entry is
still there.  Apart from that, no caller can tell when the cleanup has run.
-/

namespace CacheGrid

namespace Lock

open SequentialRuns

def Engine.isHeld (e : Engine) (clock : Readings) (key : GoString) : Bool :=
  match e.locks.lookup key with
  | none => false
  | some entry => !entry.isExpired (clock.now 0)

inductive Request where
  | op (op : Op)
  | isHeld (key : GoString)

def Request.isCleanup : Request → Bool
  | .op (.cleanup _) => true
  | _ => false

def Engine.serve (e : Engine) (call : Readings × Request) : Result × Engine :=
  match call.2 with
  | .op op => e.step (call.1, op)
  | .isHeld key => (.flag (e.isHeld call.1 key), e)

/-- A cleanup pass returns nothing. -/
def Result.isVisible (r : Result) : Bool := decide (r ≠ .done)

/-- A Release with the token of the entry under its key comes before the
deadline of the entry. -/
def Engine.ReleasesLive (e : Engine) (call : Readings × Request) : Prop :=
  match call.2 with
  | .op (.release key token) => ∀ entry ∈ e.locks.lookup key,
      entry.token = token → call.1.start ≤ entry.expiresAt
  | _ => True

/-- `cleaned` is `e` without some entries that are past their deadline at
every later call. -/
structure Cleaned (later : List (Readings × Request)) (e cleaned : Engine) :
    Prop where
  ordered : later.Pairwise fun c d => c.1.finish ≤ d.1.start
  fencingSeq_eq : cleaned.fencingSeq = e.fencingSeq
  lookup : ∀ key, cleaned.locks.lookup key = e.locks.lookup key ∨
    cleaned.locks.lookup key = none ∧ ∃ entry,
      e.locks.lookup key = some entry ∧
        ∀ call ∈ later, entry.expiresAt < call.1.start

namespace Cleaned

variable {call : Readings × Request} {later : List (Readings × Request)}
  {e cleaned : Engine}

theorem refl {calls : List (Readings × Request)}
    (hordered : calls.Pairwise fun c d => c.1.finish ≤ d.1.start)
    (e : Engine) : Cleaned calls e e where
  ordered := hordered
  fencingSeq_eq := rfl
  lookup _ := Or.inl rfl

theorem tail (hcleaned : Cleaned (call :: later) e cleaned) :
    Cleaned later e cleaned where
  ordered := (List.pairwise_cons.mp hcleaned.ordered).2
  fencingSeq_eq := hcleaned.fencingSeq_eq
  lookup key := by
    rcases hcleaned.lookup key with hsame | ⟨hnone, entry, hentry, hpast⟩
    · exact Or.inl hsame
    · exact Or.inr ⟨hnone, entry, hentry,
        fun other hother => hpast other (List.mem_cons_of_mem _ hother)⟩

theorem lookup_now (hcleaned : Cleaned (call :: later) e cleaned)
    (key : GoString) :
    cleaned.locks.lookup key = e.locks.lookup key ∨
      cleaned.locks.lookup key = none ∧ ∃ entry,
        e.locks.lookup key = some entry ∧
          entry.expiresAt < call.1.start ∧
          entry.isExpired (call.1.now 0) = true := by
  rcases hcleaned.lookup key with hsame | ⟨hnone, entry, hentry, hpast⟩
  · exact Or.inl hsame
  · have hstart := hpast call List.mem_cons_self
    exact Or.inr ⟨hnone, entry, hentry, hstart, Entry.isExpired_iff.mpr
      (hstart.trans_le (call.1.start_le 0))⟩

theorem insert (hcleaned : Cleaned later e cleaned) (key : GoString)
    (entry : Entry) (fencing : UInt64) :
    Cleaned later ⟨e.locks.insert key entry, fencing⟩
      ⟨cleaned.locks.insert key entry, fencing⟩ where
  ordered := hcleaned.ordered
  fencingSeq_eq := rfl
  lookup other := by
    by_cases hother : other = key
    · subst hother
      simp
    · simpa [AList.lookup_insert_ne hother] using hcleaned.lookup other

theorem erase (hcleaned : Cleaned later e cleaned) (key : GoString) :
    Cleaned later { e with locks := e.locks.erase key }
      { cleaned with locks := cleaned.locks.erase key } where
  ordered := hcleaned.ordered
  fencingSeq_eq := hcleaned.fencingSeq_eq
  lookup other := by
    by_cases hother : other = key
    · subst hother
      simp
    · simpa [AList.lookup_erase_ne hother] using hcleaned.lookup other

theorem cleanup {clock : Readings} {request : Request}
    (hcleaned : Cleaned ((clock, request) :: later) e cleaned)
    (visit : GoString → ℕ) :
    Cleaned later e (cleaned.cleanup clock visit) where
  ordered := hcleaned.tail.ordered
  fencingSeq_eq :=
    (cleaned.sweep_fencingSeq clock visit _).trans hcleaned.fencingSeq_eq
  lookup key := by
    have hearlier := (List.pairwise_cons.mp hcleaned.ordered).1
    rcases cleaned.cleanup_lookup clock visit key with
      hkept | ⟨hgone, entry, hentry, hpast⟩
    · rw [hkept]
      exact hcleaned.tail.lookup key
    · rcases hcleaned.tail.lookup key with hsame | ⟨_, hexpired⟩
      · refine Or.inr ⟨hgone, entry, hsame.symm.trans hentry, ?_⟩
        intro other hother
        calc
          entry.expiresAt < clock.now (visit key) := hpast
          _ ≤ clock.finish := clock.le_finish _
          _ ≤ other.1.start := hearlier other hother
      · exact Or.inr ⟨hgone, hexpired⟩

/-! ## The four methods -/

section Methods

variable {clock : Readings} {request : Request}
  (hcleaned : Cleaned ((clock, request) :: later) e cleaned)

include hcleaned

theorem acquire (key : GoString) (ttl : Duration) (owner : GoString)
    (random : Fin 16 → UInt8) :
    (cleaned.acquire clock key ttl owner random).1 =
        (e.acquire clock key ttl owner random).1 ∧
      Cleaned later (e.acquire clock key ttl owner random).2
        (cleaned.acquire clock key ttl owner random).2 := by
  have hgrant : (cleaned.grant (clock.now 1) key ttl owner random).1 =
      (e.grant (clock.now 1) key ttl owner random).1 ∧
      Cleaned later (e.grant (clock.now 1) key ttl owner random).2
        (cleaned.grant (clock.now 1) key ttl owner random).2 := by
    unfold Engine.grant
    rw [hcleaned.fencingSeq_eq]
    exact ⟨rfl, hcleaned.tail.insert key _ _⟩
  unfold Engine.acquire
  rcases hcleaned.lookup_now key with hsame | ⟨hnone, entry, hentry, _, hpast⟩
  · rw [hsame]
    split
    · exact ⟨congrArg some hgrant.1, hgrant.2⟩
    · split
      · exact ⟨congrArg some hgrant.1, hgrant.2⟩
      · exact ⟨rfl, hcleaned.tail⟩
  · rw [hnone, hentry]
    simp only [show entry.isExpired (clock.now 0) = true from hpast, if_true]
    exact ⟨congrArg some hgrant.1, hgrant.2⟩

theorem release {key token : GoString}
    (hlive : ∀ entry ∈ e.locks.lookup key, entry.token = token →
      clock.start ≤ entry.expiresAt) :
    (cleaned.release key token).1 = (e.release key token).1 ∧
      Cleaned later (e.release key token).2
        (cleaned.release key token).2 := by
  unfold Engine.release
  rcases hcleaned.lookup_now key with
    hsame | ⟨hnone, entry, hentry, hpast, _⟩
  · rw [hsame]
    split
    · exact ⟨rfl, hcleaned.tail⟩
    · split
      · exact ⟨rfl, hcleaned.tail⟩
      · exact ⟨rfl, hcleaned.tail.erase key⟩
  · have htoken : entry.token ≠ token := fun heq =>
      absurd (hlive entry hentry heq) (not_le.mpr hpast)
    rw [hnone, hentry]
    simp only [ne_eq, htoken, not_false_eq_true, if_true]
    exact ⟨trivial, hcleaned.tail⟩

theorem extend (key token : GoString) (ttl : Duration) :
    (cleaned.extend clock key token ttl).1 =
        (e.extend clock key token ttl).1 ∧
      Cleaned later (e.extend clock key token ttl).2
        (cleaned.extend clock key token ttl).2 := by
  unfold Engine.extend
  rcases hcleaned.lookup_now key with hsame | ⟨hnone, entry, hentry, _, hpast⟩
  · rw [hsame]
    split
    · exact ⟨rfl, hcleaned.tail⟩
    · split
      · exact ⟨rfl, hcleaned.tail⟩
      · split
        · exact ⟨rfl, hcleaned.tail⟩
        · rw [hcleaned.fencingSeq_eq]
          exact ⟨rfl, hcleaned.tail.insert key _ _⟩
  · rw [hnone, hentry]
    simp only [show entry.isExpired (clock.now 0) = true from hpast, if_true]
    exact ⟨trivial, hcleaned.tail⟩

theorem isHeld (key : GoString) :
    cleaned.isHeld clock key = e.isHeld clock key := by
  unfold Engine.isHeld
  rcases hcleaned.lookup_now key with hsame | ⟨hnone, entry, hentry, _, hpast⟩
  · rw [hsame]
  · rw [hnone, hentry]
    simp only [show entry.isExpired (clock.now 0) = true from hpast,
      Bool.not_true]

end Methods

/-- A call that is not a cleanup pass has the same result on both engines, and
leaves them as far apart as they were. -/
theorem serve (hcleaned : Cleaned (call :: later) e cleaned)
    (hmethod : call.2.isCleanup = false) (hlive : e.ReleasesLive call) :
    (cleaned.serve call).1 = (e.serve call).1 ∧
      (e.serve call).1.isVisible = true ∧
      Cleaned later (e.serve call).2 (cleaned.serve call).2 := by
  obtain ⟨clock, request⟩ := call
  cases request with
  | op op =>
    cases op with
    | acquire key ttl owner random =>
      obtain ⟨hresult, hnext⟩ := hcleaned.acquire key ttl owner random
      exact ⟨congrArg Result.acquired hresult, by
        simp [Result.isVisible, Engine.serve, Engine.step], hnext⟩
    | release key token =>
      obtain ⟨hresult, hnext⟩ := hcleaned.release hlive
      exact ⟨congrArg Result.flag hresult, by
        simp [Result.isVisible, Engine.serve, Engine.step], hnext⟩
    | extend key token ttl =>
      obtain ⟨hresult, hnext⟩ := hcleaned.extend key token ttl
      exact ⟨congrArg Result.flag hresult, by
        simp [Result.isVisible, Engine.serve, Engine.step], hnext⟩
    | cleanup visit => contradiction
  | isHeld key =>
    exact ⟨congrArg Result.flag (hcleaned.isHeld key), by
      simp [Result.isVisible, Engine.serve], hcleaned.tail⟩

end Cleaned

/-- Take any calls, in order, with cleanup passes anywhere in between.  If
without the passes no Release finds its own lock expired, then every call has
the result that it has without the passes. -/
theorem cleanup_unobservable (e : Engine) {calls : List (Readings × Request)}
    (hordered : calls.Pairwise fun c d => c.1.finish ≤ d.1.start)
    (hlive : Meets Engine.serve Engine.ReleasesLive e
      (calls.filter fun call => !call.2.isCleanup)) :
    (run Engine.serve e calls).1.filter Result.isVisible =
      (run Engine.serve e (calls.filter fun call => !call.2.isCleanup)).1 := by
  refine run_silent ?_ ?_ (Cleaned.refl hordered e) hlive
  · intro call later e cleaned hsilent hcleaned
    obtain ⟨clock, request⟩ := call
    cases request with
    | op op =>
      cases op with
      | cleanup visit => exact ⟨rfl, hcleaned.cleanup visit⟩
      | _ => contradiction
    | isHeld key => contradiction
  · intro call later e cleaned hmethod hcleaned hlive
    exact hcleaned.serve hmethod hlive

/-- A lock that lives one nanosecond, a pass of the cleanup at five, and a
call at six. -/
def lockAndCleanup (request : Request) : List (Readings × Request) :=
  [(.instant 0, .op (.acquire [107] 1 [] fun _ => 0)),
    (.instant 5, .op (.cleanup fun _ => 0)), (.instant 6, request)]

theorem cleanup_unobservable_by_isHeld :
    let calls := lockAndCleanup (.isHeld [107])
    (run Engine.serve .new calls).1.filter Result.isVisible =
      (run Engine.serve .new
        (calls.filter fun call => !call.2.isCleanup)).1 := by
  refine cleanup_unobservable .new ?_ ⟨trivial, trivial, trivial⟩
  simp [lockAndCleanup, Readings.instant]

/-- Release takes the token of an expired lock, unless the cleanup has run. -/
theorem cleanup_observed_by_release :
    let token := generateToken fun _ => 0
    let calls := lockAndCleanup (.op (.release [107] token))
    (run Engine.serve .new calls).1.filter Result.isVisible =
      [.acquired (some (token, 1)), .flag false] ∧
    (run Engine.serve .new
      (calls.filter fun call => !call.2.isCleanup)).1 =
      [.acquired (some (token, 1)), .flag true] := by
  decide +kernel

end Lock

end CacheGrid
