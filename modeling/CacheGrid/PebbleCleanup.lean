import CacheGrid.PebbleLedger

/-!
# Expiry cleanup on disk

Get, Exists, TTL and DeleteExpired read a record, decide that it has expired
and delete its key in a later step.  A Set may fall between the two steps, and
then the delete hits the record that was just written.

If every such delete still finds the record its call has read, no record is
removed before its deadline has passed.
-/

namespace CacheGrid

open InterleavedPrograms TimedMap

namespace PebbleStore

variable {ι : Type}

def cleans : StoreOp → Bool
  | .delete _ => false
  | .incr _ _ _ => false
  | _ => true

/-! ## What a call has seen -/

structure Seen where
  found : Option (GoString × Bytes)
  visited : List (GoString × Bytes)
  reading : Option ℤ

def Seen.nothing : Seen := ⟨none, [], none⟩

def Seen.Wrote (seen : Seen) (value : Bytes) (ttl : Duration)
    (raw : Bytes) : Prop :=
  if 0 < ttl.toInt then
    ∃ t, seen.reading = some t ∧
      raw = pack (unixNano (addDuration t ttl)) value
  else raw = pack 0 value

/-- A call deletes only a key whose record it has read and found expired; TTL
takes a record to be expired already at its deadline. -/
def watch (call : StoreOp) : Discipline pebbleSignature Seen where
  guard := fun seen op =>
    match op with
    | .set key raw => ∃ value ttl, call = .set key value ttl ∧
        seen.Wrote value ttl raw
    | .delete key => ∃ raw t, seen.found = some (key, raw) ∧
        seen.reading = some t ∧ (decode raw).2 ≠ 0 ∧
        ((decode raw).2 < unixNano t ∨
          call = .ttl key ∧ (decode raw).2.toInt ≤ t)
    | .commit deleted => ∃ t, seen.reading = some t ∧
        ∀ key ∈ deleted, ∃ raw, (key, raw) ∈ seen.visited ∧
          expiredRaw (unixNano t) raw = true
    | _ => True
  update := fun seen op answer =>
    match op, answer with
    | .get key, some raw => { seen with found := some (key, raw) }
    | .iterate, some entries => { seen with visited := entries }
    | .now, t => { seen with reading := some t }
    | _, _ => seen

variable {raw : Bytes} {key : GoString}

theorem removeExpired_follows {α : Type} {call : StoreOp} {t : ℤ} {seen : Seen}
    {value : α} (hfound : seen.found = some (key, raw))
    (hreading : seen.reading = some t) (hdeadline : (decode raw).2 ≠ 0)
    (hexpired : (decode raw).2 < unixNano t ∨
      call = .ttl key ∧ (decode raw).2.toInt ≤ t) :
    Follows (watch call) (fun _ _ => True) seen
      (removeExpired key >>= fun _ => pure value) :=
  ⟨⟨raw, t, hfound, hreading, hdeadline, hexpired⟩,
    fun _ => ⟨trivial, fun _ => trivial⟩⟩

theorem isExpired_follows {α : Type} {call : StoreOp} {seen : Seen}
    {missing present : α} (hfound : seen.found = some (key, raw)) :
    Follows (watch call) (fun _ _ => True) seen
      (isExpired (decode raw).2 >>= fun expired =>
        if expired = true then removeExpired key >>= fun _ => pure missing
        else pure present) := by
  apply follows_bind
  unfold isExpired
  by_cases hdeadline : (decode raw).2 = 0
  · rw [if_neg (by simpa using hdeadline)]
    trivial
  · rw [if_pos hdeadline]
    apply follows_perform trivial
    intro t
    by_cases hexpired : (decode raw).2 < unixNano t
    · simp only [hexpired, decide_true]
      exact removeExpired_follows hfound rfl hdeadline (Or.inl hexpired)
    · simp only [hexpired, decide_false]
      trivial

theorem encode_follows (call : StoreOp) (seen : Seen) (value : Bytes)
    (ttl : Duration) :
    Follows (watch call) (fun seen raw => seen.Wrote value ttl raw) seen
      (encode value ttl) := by
  unfold encode Seen.Wrote
  by_cases hpos : 0 < ttl.toInt
  · rw [if_pos ((Duration.pos_iff ttl).mpr hpos)]
    simp only [hpos, if_true]
    apply follows_perform trivial
    intro t
    exact ⟨t, rfl, rfl⟩
  · rw [if_neg (by rwa [Duration.pos_iff])]
    simp only [hpos, if_false]
    exact rfl

theorem set_follows (key : GoString) (value : Bytes) (ttl : Duration) :
    Follows (watch (.set key value ttl)) (fun _ _ => True) .nothing
      (set key value ttl) := by
  apply follows_perform trivial
  intro existing
  apply follows_bind
  apply (encode_follows _ _ value ttl).mono
  intro seen raw hwrote
  refine follows_perform ?_ ?_
  · exact ⟨value, ttl, rfl, hwrote⟩
  · intro answer
    cases answer with
    | error err => trivial
    | ok written =>
      cases existing with
      | none => exact ⟨trivial, fun _ => trivial⟩
      | some old => trivial

theorem ttl_follows (key : GoString) :
    Follows (watch (.ttl key)) (fun _ _ => True) .nothing (ttl key) := by
  apply follows_perform trivial
  intro found
  cases found with
  | none => trivial
  | some raw =>
    by_cases hdeadline : (decode raw).2 = 0
    · simp only [hdeadline, if_true]
      trivial
    · simp only [hdeadline, if_false]
      apply follows_perform trivial
      intro t
      by_cases hover : timeSub (decode raw).2.toInt t ≤ 0
      · simp only [hover, if_true]
        refine removeExpired_follows rfl rfl hdeadline (Or.inr ⟨rfl, ?_⟩)
        rw [← Int64.not_lt, timeSub_pos_iff] at hover
        omega
      · simp only [hover, if_false]
        trivial

theorem fireAll_follows (call : StoreOp) (seen : Seen)
    (expired : List (GoString × Bytes)) (count : ℕ) :
    Follows (watch call) (fun _ _ => True) seen
      (fireAll expired >>= fun _ => pure count) := by
  induction expired with
  | nil => trivial
  | cons entry rest ih => exact ⟨trivial, fun _ => ih⟩

theorem deleteExpired_follows :
    Follows (watch .deleteExpired) (fun _ _ => True) .nothing
      deleteExpired := by
  apply follows_perform trivial
  intro t
  apply follows_perform trivial
  intro visited
  cases visited with
  | none => trivial
  | some entries =>
    by_cases hempty : (expiredEntries (unixNano t) entries).length = 0
    · simp only [hempty, if_true]
      trivial
    · simp only [hempty, if_false]
      apply follows_perform
      · exact ⟨t, rfl, fun key hkey => mem_expiredEntries.mp hkey⟩
      · intro _
        apply follows_perform trivial
        intro _
        apply follows_perform trivial
        intro callback
        cases callback with
        | true => exact fireAll_follows _ _ _ _
        | false => trivial

theorem call_follows (codec : Msgpack) {op : StoreOp}
    (hcleans : cleans op = true) :
    Follows (watch op) (fun _ _ => True) .nothing (call codec op) := by
  cases op with
  | get key =>
    apply follows_map
    apply follows_perform trivial
    intro found
    cases found with
    | none => trivial
    | some raw => exact isExpired_follows rfl
  | «exists» key =>
    apply follows_map
    apply follows_perform trivial
    intro found
    cases found with
    | none => trivial
    | some raw => exact isExpired_follows rfl
  | set key value ttl => exact follows_map (set_follows key value ttl)
  | ttl key => exact follows_map (ttl_follows key)
  | deleteExpired => exact follows_map deleteExpired_follows
  | delete key => simp [cleans] at hcleans
  | incr key delta ttl => simp [cleans] at hcleans

/-! ## Runs -/

abbrev Log (ι : Type) := List (Event ι pebbleSignature)

structure Seen.Logged (i : ι) (log : Log ι) (seen : Seen) : Prop where
  found : ∀ key raw, seen.found = some (key, raw) →
    ⟨i, .get key, some raw⟩ ∈ log
  visited : ∀ key raw, (key, raw) ∈ seen.visited →
    ∃ entries, ⟨i, .iterate, some entries⟩ ∈ log ∧ (key, raw) ∈ entries
  reading : ∀ t, seen.reading = some t → ⟨i, .now, t⟩ ∈ log

variable {i : ι}

theorem Seen.Logged.append {log : Log ι} {seen : Seen}
    (hlogged : seen.Logged i log) (event : Event ι pebbleSignature) :
    seen.Logged i (log ++ [event]) where
  found := fun key raw hfound =>
    List.mem_append_left _ (hlogged.found key raw hfound)
  visited := by
    intro key raw hvisited
    obtain ⟨entries, hmem, hentry⟩ := hlogged.visited key raw hvisited
    exact ⟨entries, List.mem_append_left _ hmem, hentry⟩
  reading := fun t hreading =>
    List.mem_append_left _ (hlogged.reading t hreading)

/-- The bytes last written under `key`, starting from those in the database
before the run. -/
def lastWrite (key : GoString) (initial : Option Bytes) (log : Log ι) :
    Option Bytes :=
  log.foldl (fun last event =>
    match event.op with
    | .set other raw => if key = other then some raw else last
    | _ => last) initial

theorem lastWrite_append (key : GoString) (initial : Option Bytes)
    (log : Log ι) (event : Event ι pebbleSignature) :
    lastWrite key initial (log ++ [event]) =
      match event.op with
      | .set other raw =>
        if key = other then some raw else lastWrite key initial log
      | _ => lastWrite key initial log := by
  simp only [lastWrite, List.foldl_append, List.foldl_cons, List.foldl_nil]

def LastSetBy (i : ι) (key : GoString) (raw : Bytes) (log : Log ι) : Prop :=
  ∃ before answer after, log = before ++ ⟨i, .set key raw, answer⟩ :: after ∧
    ∀ event ∈ after, ∀ other, event.op ≠ .set key other

theorem LastSetBy.lastWrite_eq {log : Log ι} (hlast : LastSetBy i key raw log)
    (initial : Option Bytes) : lastWrite key initial log = some raw := by
  obtain ⟨before, answer, after, rfl, hafter⟩ := hlast
  induction after using List.reverseRecOn with
  | nil => simp [lastWrite_append]
  | append_singleton after event ih =>
    rw [show before ++ ⟨i, .set key raw, answer⟩ :: (after ++ [event]) =
      (before ++ ⟨i, .set key raw, answer⟩ :: after) ++ [event] by simp,
      lastWrite_append]
    have hrest := ih fun other hother =>
      hafter other (List.mem_append_left _ hother)
    have hnot := hafter event (by simp)
    split
    · rename_i other written hop
      have hkey : key ≠ other := by
        rintro rfl
        exact hnot written hop
      rw [if_neg hkey, hrest]
    · exact hrest

/-- The bytes a Set has written: its value, under the deadline of its ttl. -/
def Written (log : Log ι) (i : ι) (value : Bytes) (ttl : Duration)
    (raw : Bytes) : Prop :=
  ∃ expiresAtNano, raw = pack expiresAtNano value ∧
    (expiresAtNano = 0 ∨ 0 < ttl.toInt ∧
      ∃ t, ⟨i, .now, t⟩ ∈ log ∧ expiresAtNano.toInt = t + ttl.toInt)

theorem Written.append {log : Log ι} {value : Bytes} {ttl : Duration}
    (hwritten : Written log i value ttl raw) (event : Event ι pebbleSignature) :
    Written (log ++ [event]) i value ttl raw := by
  obtain ⟨expiresAtNano, hraw, hdeadline⟩ := hwritten
  refine ⟨expiresAtNano, hraw, ?_⟩
  rcases hdeadline with hzero | ⟨hpos, t, hmem, heq⟩
  · exact Or.inl hzero
  · exact Or.inr ⟨hpos, t, List.mem_append_left _ hmem, heq⟩

variable [DecidableEq ι]

def seenBy (calls : ι → StoreOp) (log : Log ι) (i : ι) : Seen :=
  ghostOf (fun i => watch (calls i)) (fun _ => .nothing) log i

theorem seenBy_logged (calls : ι → StoreOp) (log : Log ι) (i : ι) :
    (seenBy calls log i).Logged i log := by
  apply ghostOf_induction (fun log seen => Seen.Logged i log seen)
  · constructor <;> simp [Seen.nothing]
  · intro log seen op answer hlogged
    have hmem : (⟨i, op, answer⟩ : Event ι pebbleSignature) ∈
        log ++ [⟨i, op, answer⟩] := by simp
    have hold := hlogged.append ⟨i, op, answer⟩
    cases op with
    | get key =>
      cases answer with
      | none => exact hold
      | some raw =>
        refine ⟨?_, hold.visited, hold.reading⟩
        rintro _ _ ⟨⟩
        exact hmem
    | iterate =>
      cases answer with
      | none => exact hold
      | some entries =>
        exact ⟨hold.found, fun _ _ hentry => ⟨entries, hmem, hentry⟩,
          hold.reading⟩
    | now =>
      refine ⟨hold.found, hold.visited, ?_⟩
      rintro _ ⟨⟩
      exact hmem
    | _ => exact hold
  · intro log seen event hlogged
    exact hlogged.append event

/-- A step that deletes still finds what its call has read: no Set has come in
between.  A TTL that deletes has not read the clock exactly at the deadline,
and a Set writes a deadline below `2^63` nanoseconds. -/
def StepUndisturbed (calls : ι → StoreOp) (store : PebbleStore) (log : Log ι)
    (i : ι) : PebbleOp → Prop
  | .delete key => ∀ raw, ⟨i, .get key, some raw⟩ ∈ log →
      (store.db.lookup key = none ∨ store.db.lookup key = some raw) ∧
      (calls i = .ttl key → ∀ t, ⟨i, .now, t⟩ ∈ log →
        t ≠ (decode raw).2.toInt)
  | .commit deleted => ∀ entries key raw, ⟨i, .iterate, some entries⟩ ∈ log →
      key ∈ deleted → (key, raw) ∈ entries →
      store.db.lookup key = none ∨ store.db.lookup key = some raw
  | .set key _ => ∀ value ttl t, calls i = .set key value ttl →
      0 < ttl.toInt → ⟨i, .now, t⟩ ∈ log → t + ttl.toInt < 2 ^ 63
  | _ => True

def Undisturbed (calls : ι → StoreOp)
    (config : Config ι pebbleSignature PebbleStore StoreResult) :
    Label ι ℤ Empty → Prop
  | .thread i _ => ∀ op next, config.threads i = .act op next →
      StepUndisturbed calls config.shared config.log i op
  | .env _ => True

/-- The record written last under a key stays until its deadline has passed,
and a Set that made the last write is readable until the deadline of its
ttl. -/
structure KeepsFreshWrites (calls : ι → StoreOp) (initial : PebbleStore)
    (config : Config ι pebbleSignature PebbleStore StoreResult) : Prop where
  kept : ∀ key raw,
    lastWrite key (initial.db.lookup key) config.log = some raw →
    (recordOf raw).dead config.shared.clock = false →
    config.shared.db.lookup key = some raw
  readable : ∀ i key value ttl raw, calls i = .set key value ttl →
    LastSetBy i key raw config.log →
    ∀ now, config.shared.clock ≤ now →
      (0 < ttl.toInt → ∀ t, ⟨i, .now, t⟩ ∈ config.log →
        now ≤ t + ttl.toInt) →
      (get key).Ends machine now config.shared
        fun found _ => found = some value

/-! ## No step removes a fresh record -/

theorem recordOf_dead_of_lt {now : ℤ} (hdeadline : (decode raw).2 ≠ 0)
    (hlt : (decode raw).2.toInt < now) :
    (recordOf raw).dead now = true := by
  apply Record.dead_iff.mpr
  exact ⟨(decode raw).2.toInt, by simp [recordOf, hdeadline], hlt⟩

theorem toInt_lt_of_lt_unixNano {expiresAtNano : Int64} {t : ℤ}
    (hpos : 0 ≤ t) (hlt : expiresAtNano < unixNano t) :
    expiresAtNano.toInt < t := by
  rw [Int64.lt_iff_toInt_lt] at hlt
  exact hlt.trans_le (toInt_unixNano_le hpos)

structure CleanupInvariant (calls : ι → StoreOp) (initial : PebbleStore)
    (config : Config ι pebbleSignature PebbleStore StoreResult) : Prop where
  disciplined : config.Disciplined (fun i => watch (calls i))
    (fun _ => .nothing) (fun _ _ _ => True)
  clock : 0 ≤ config.shared.clock
  readings : ∀ i t, ⟨i, .now, t⟩ ∈ config.log →
    0 ≤ t ∧ t ≤ config.shared.clock
  kept : ∀ key raw,
    lastWrite key (initial.db.lookup key) config.log = some raw →
    (recordOf raw).dead config.shared.clock = false →
    config.shared.db.lookup key = some raw
  written : ∀ i key raw answer, ⟨i, .set key raw, answer⟩ ∈ config.log →
    ∀ value ttl, calls i = .set key value ttl →
      Written config.log i value ttl raw

section Step

variable {calls : ι → StoreOp} {initial : PebbleStore}
  {config : Config ι pebbleSignature PebbleStore StoreResult}

theorem CleanupInvariant.guarded (hinv : CleanupInvariant calls initial config)
    {op : PebbleOp} {next : op.Answer → Program StoreResult}
    (hthread : config.threads i = .act op next) :
    (watch (calls i)).guard (seenBy calls config.log i) op := by
  have hfollow := hinv.disciplined i
  rw [hthread] at hfollow
  exact hfollow.1

theorem CleanupInvariant.delete_dead
    (hinv : CleanupInvariant calls initial config)
    (hguard : (watch (calls i)).guard (seenBy calls config.log i)
      (.delete key))
    (hundisturbed : StepUndisturbed calls config.shared config.log i
      (.delete key))
    (hlookup : config.shared.db.lookup key = some raw) :
    (recordOf raw).dead config.shared.clock = true := by
  obtain ⟨read, t, hfound, hreading, hdeadline, hexpired⟩ := hguard
  have hlogged := seenBy_logged calls config.log i
  have hmem := hlogged.reading t hreading
  obtain ⟨hstill, hexact⟩ :=
    hundisturbed read (hlogged.found key read hfound)
  obtain ⟨hpos, hclock⟩ := hinv.readings i t hmem
  have hread : raw = read := by
    rw [hlookup] at hstill
    simpa using hstill
  subst read
  apply recordOf_dead_of_lt hdeadline
  rcases hexpired with hlt | ⟨hcall, hle⟩
  · exact (toInt_lt_of_lt_unixNano hpos hlt).trans_le hclock
  · have hne := hexact hcall t hmem
    omega

theorem CleanupInvariant.commit_dead
    (hinv : CleanupInvariant calls initial config) {deleted : List GoString}
    (hguard : (watch (calls i)).guard (seenBy calls config.log i)
      (.commit deleted))
    (hundisturbed : StepUndisturbed calls config.shared config.log i
      (.commit deleted))
    (hkey : key ∈ deleted) (hlookup : config.shared.db.lookup key = some raw) :
    (recordOf raw).dead config.shared.clock = true := by
  obtain ⟨t, hreading, hvisited⟩ := hguard
  obtain ⟨read, hread, hexpired⟩ := hvisited key hkey
  have hlogged := seenBy_logged calls config.log i
  obtain ⟨entries, hmem, hentry⟩ := hlogged.visited key read hread
  obtain ⟨hpos, hclock⟩ := hinv.readings i t (hlogged.reading t hreading)
  have hsame : raw = read := by
    have hstill := hundisturbed entries key read hmem hkey hentry
    rw [hlookup] at hstill
    simpa using hstill
  subst read
  obtain ⟨hdeadline, hlt⟩ := of_decide_eq_true hexpired
  exact recordOf_dead_of_lt hdeadline
    ((toInt_lt_of_lt_unixNano hpos hlt).trans_le hclock)

/-- A step leaves a record in place, writes over it, or finds it dead. -/
theorem CleanupInvariant.effect_cases
    (hinv : CleanupInvariant calls initial config) {op : PebbleOp}
    (hguard : (watch (calls i)).guard (seenBy calls config.log i) op)
    (hundisturbed : StepUndisturbed calls config.shared config.log i op)
    (hlookup : config.shared.db.lookup key = some raw)
    (hother : ∀ written, op ≠ .set key written)
    (hfresh : (recordOf raw).dead config.shared.clock = false) :
    effect key op (some raw) = some raw := by
  cases op with
  | set other written =>
    have hkey : key ≠ other := by
      rintro rfl
      exact hother written rfl
    simp [effect, hkey]
  | delete other =>
    by_cases hkey : key = other
    · subst hkey
      have hdead := hinv.delete_dead hguard hundisturbed hlookup
      rw [hfresh] at hdead
      contradiction
    · simp [effect, hkey]
  | commit deleted =>
    by_cases hkey : key ∈ deleted
    · have hdead := hinv.commit_dead hguard hundisturbed hkey hlookup
      rw [hfresh] at hdead
      contradiction
    · simp [effect, hkey]
  | _ => rfl

theorem CleanupInvariant.kept_step
    (hinv : CleanupInvariant calls initial config) {op : PebbleOp}
    {answer : op.Answer} {reading : ℤ} {after : PebbleStore}
    (hguard : (watch (calls i)).guard (seenBy calls config.log i) op)
    (hundisturbed : StepUndisturbed calls config.shared config.log i op)
    (hexec : config.shared.exec op reading = some (answer, after))
    (hlast : lastWrite key (initial.db.lookup key)
      (config.log ++ [⟨i, op, answer⟩]) = some raw)
    (hfresh : (recordOf raw).dead after.clock = false) :
    after.db.lookup key = some raw := by
  rw [exec_lookup hexec key]
  by_cases hset : ∃ written, op = .set key written
  · obtain ⟨written, rfl⟩ := hset
    rw [lastWrite_append] at hlast
    simpa [effect] using hlast
  · have hother : ∀ written, op ≠ .set key written := fun written heq =>
      hset ⟨written, heq⟩
    have hbefore : lastWrite key (initial.db.lookup key) config.log =
        some raw := by
      rw [lastWrite_append] at hlast
      cases op with
      | set other written =>
        have hkey : key ≠ other := by
          rintro rfl
          exact hother written rfl
        simpa [hkey] using hlast
      | _ => exact hlast
    have hearlier : (recordOf raw).dead config.shared.clock = false := by
      by_contra hdead
      rw [Bool.not_eq_false] at hdead
      rw [Record.dead_mono (exec_clock hexec) hdead] at hfresh
      contradiction
    have hlookup := hinv.kept key raw hbefore hearlier
    rw [hlookup]
    exact hinv.effect_cases hguard hundisturbed hlookup hother hearlier

theorem CleanupInvariant.written_of_guard
    (hinv : CleanupInvariant calls initial config)
    (hguard : (watch (calls i)).guard (seenBy calls config.log i)
      (.set key raw))
    (hundisturbed : StepUndisturbed calls config.shared config.log i
      (.set key raw))
    {value : Bytes} {ttl : Duration} (hcall : calls i = .set key value ttl) :
    Written config.log i value ttl raw := by
  obtain ⟨value', ttl', hcall', hwrote⟩ := hguard
  rw [hcall, StoreOp.set.injEq] at hcall'
  obtain ⟨_, rfl, rfl⟩ := hcall'
  unfold Seen.Wrote at hwrote
  split at hwrote
  · rename_i hpos
    obtain ⟨t, hreading, hraw⟩ := hwrote
    have hmem := (seenBy_logged calls config.log i).reading t hreading
    have hbound := hundisturbed value ttl t hcall hpos hmem
    have hstart := (hinv.readings i t hmem).1
    refine ⟨_, hraw, Or.inr ⟨hpos, t, hmem, ?_⟩⟩
    unfold addDuration
    exact toInt_unixNano (by omega) hbound
  · exact ⟨0, hwrote, Or.inl rfl⟩

theorem CleanupInvariant.step (hinv : CleanupInvariant calls initial config)
    {next : Config ι pebbleSignature PebbleStore StoreResult}
    {label : Label ι ℤ Empty} (hok : Undisturbed calls config label)
    (hstep : config.step machine label = some next) :
    CleanupInvariant calls initial next := by
  have hdisciplined := hinv.disciplined.step hstep
  cases label with
  | env event => cases event
  | thread i reading =>
    obtain ⟨op, continuation, answer, hthread, hexec, hthreads, hlog⟩ :=
      Config.step_thread_cases hstep
    have hguard := hinv.guarded hthread
    have hundisturbed := hok op continuation hthread
    have hclock := exec_clock hexec
    refine ⟨hdisciplined, hinv.clock.trans hclock, ?_, ?_, ?_⟩
    · intro j t hmem
      rw [hlog, List.mem_append, List.mem_singleton] at hmem
      rcases hmem with hold | heq
      · obtain ⟨hpos, hle⟩ := hinv.readings j t hold
        exact ⟨hpos, hle.trans hclock⟩
      · cases heq
        obtain ⟨hle, rfl, hafter⟩ := exec_now_eq hexec
        rw [hafter]
        exact ⟨hinv.clock.trans hle, le_rfl⟩
    · intro key raw hlast hfresh
      rw [hlog] at hlast
      exact hinv.kept_step hguard hundisturbed hexec hlast hfresh
    · intro j key raw written hmem value ttl hcall
      rw [hlog, List.mem_append, List.mem_singleton] at hmem
      rw [hlog]
      apply Written.append
      rcases hmem with hold | heq
      · exact hinv.written j key raw written hold value ttl hcall
      · cases heq
        exact hinv.written_of_guard hguard hundisturbed hcall

end Step

theorem cleanupInvariant_start (codec : Msgpack) {calls : ι → StoreOp}
    (hcalls : ∀ i, cleans (calls i) = true) {store : PebbleStore}
    (hclock : 0 ≤ store.clock) :
    CleanupInvariant calls store
      (Config.start store fun i => call codec (calls i)) where
  disciplined := fun i => call_follows codec (hcalls i)
  clock := hclock
  readings := by simp [Config.start]
  kept := fun _ _ hlast _ => hlast
  written := by simp [Config.start]

theorem get_ends_live {store : PebbleStore} {now : ℤ}
    (hlookup : store.db.lookup key = some raw) (hclock : store.clock ≤ now)
    (hpos : 0 ≤ now) (hlive : (recordOf raw).dead now = false) :
    (get key).Ends machine now store
      fun found _ => found = some (decode raw).1 := by
  apply Prog.ends_perform rfl
  rw [hlookup]
  apply Prog.ends_bind
  unfold isExpired
  by_cases hdeadline : (decode raw).2 = 0
  · rw [if_neg (by simpa using hdeadline)]
    apply Prog.ends_ret
    apply Prog.ends_ret
    rfl
  · rw [if_pos hdeadline]
    apply Prog.ends_perform (exec_now hclock)
    apply Prog.ends_ret
    have hnot : ¬ (decode raw).2 < unixNano now := by
      intro hlt
      rw [recordOf_dead_of_lt hdeadline
        (toInt_lt_of_lt_unixNano hpos hlt)] at hlive
      contradiction
    simp only [hnot, decide_false]
    apply Prog.ends_ret
    rfl

/-- In every run in which no Set comes between the read and the delete of a
cleanup, no record is removed before its deadline has passed. -/
theorem cleanup_keeps_fresh_writes (codec : Msgpack) {calls : ι → StoreOp}
    (hcalls : ∀ i, cleans (calls i) = true) {store : PebbleStore}
    (hclock : 0 ≤ store.clock)
    {config : Config ι pebbleSignature PebbleStore StoreResult}
    (hreach : Config.Reaches machine (Undisturbed calls)
      (Config.start store fun i => call codec (calls i)) config) :
    KeepsFreshWrites calls store config := by
  have hinv : CleanupInvariant calls store config :=
    hreach.invariant (CleanupInvariant calls store)
      (cleanupInvariant_start codec hcalls hclock)
      fun _ _ _ hinv hok hstep => hinv.step hok hstep
  refine ⟨hinv.kept, ?_⟩
  intro i key value ttl raw hcall hlast now hnow hdeadline
  have hmem : ∃ answer, ⟨i, .set key raw, answer⟩ ∈ config.log := by
    obtain ⟨before, answer, after, hlog, _⟩ := hlast
    exact ⟨answer, by simp [hlog]⟩
  obtain ⟨answer, hmem⟩ := hmem
  obtain ⟨expiresAtNano, rfl, hwritten⟩ :=
    hinv.written i key raw answer hmem value ttl hcall
  have hlive : (recordOf (pack expiresAtNano value)).dead now = false := by
    by_contra hdead
    rw [Bool.not_eq_false, recordOf_pack, Record.dead_iff] at hdead
    obtain ⟨deadline, heq, hlt⟩ := hdead
    rcases hwritten with rfl | ⟨hpos, t, ht, htoInt⟩
    · simp at heq
    · have hle := hdeadline hpos t ht
      by_cases hzero : expiresAtNano = 0
      · simp [hzero] at heq
      · simp only [hzero, if_false, Option.some.injEq] at heq
        omega
  have hearlier :
      (recordOf (pack expiresAtNano value)).dead config.shared.clock =
        false := by
    by_contra hdead
    rw [Bool.not_eq_false] at hdead
    rw [Record.dead_mono hnow hdead] at hlive
    contradiction
  have hlookup := hinv.kept key _ (hlast.lastWrite_eq _) hearlier
  have hget := get_ends_live hlookup hnow (hinv.clock.trans hnow) hlive
  simpa using hget

/-! ## A Set between the read and the delete -/

def getAndSet : Bool → StoreOp
  | false => .get (ascii "k")
  | true => .set (ascii "k") (ascii "new") 0

def expiredStore : PebbleStore where
  db := AList.singleton (ascii "k") (pack 5 (ascii "old"))
  locked := false
  count := 1
  onExpire := false
  fired := []
  clock := 10

def getAndSetStart : Config Bool pebbleSignature PebbleStore StoreResult :=
  Config.start expiredStore fun i => call .int64 (getAndSet i)

/-- Get removes the expired record, then Set writes a new one. -/
theorem cleanup_keeps_fresh_writes_in_turn :
    ∃ config, Config.Reaches machine (Undisturbed getAndSet) getAndSetStart
        config ∧
      config.threads true = .ret .done ∧
      KeepsFreshWrites getAndSet expiredStore config := by
  obtain ⟨config, hreach, hreturned⟩ : ∃ config, Config.Reaches machine
      (Undisturbed getAndSet) getAndSetStart config ∧
        config.threads true = .ret .done := by
    refine ⟨_, .head ⟨.thread false 10, ?_, rfl⟩
      (.head ⟨.thread false 10, ?_, rfl⟩ (.head ⟨.thread false 10, ?_, rfl⟩
        (.head ⟨.thread true 10, ?_, rfl⟩ (.head ⟨.thread true 10, ?_, rfl⟩
          (.head ⟨.thread true 10, ?_, rfl⟩ .refl))))), rfl⟩
    all_goals
      intro op next hop
      cases hop
      try trivial
    · intro raw hmem
      have hraw : raw = pack 5 (ascii "old") := by
        rcases List.mem_append.mp hmem with hfirst | hsecond
        · cases List.mem_singleton.mp hfirst
          rfl
        · cases List.mem_singleton.mp hsecond
      subst hraw
      exact ⟨Or.inr rfl, fun hcall => by simp [getAndSet] at hcall⟩
    · intro value ttl t hcall hpos
      cases hcall
      simp at hpos
  exact ⟨config, hreach, hreturned, cleanup_keeps_fresh_writes .int64
    (fun i => by cases i <;> rfl) (by decide) hreach⟩

/-- The Get reads the expired record, the Set then writes a record without a
deadline and returns, and the Get deletes it. -/
theorem stale_delete_loses_fresh_write :
    ∃ config, Config.Reaches machine anyStep getAndSetStart config ∧
      config.threads true = .ret .done ∧
      config.shared.db.lookup (ascii "k") = none ∧
      ¬ KeepsFreshWrites getAndSet expiredStore config := by
  have hrun : getAndSetStart.runWith machine anyStep [.thread false 10,
      .thread false 10, .thread true 10, .thread true 10,
      .thread false 10] = some _ := rfl
  refine ⟨_, Config.reaches_of_runWith hrun, rfl, rfl, ?_⟩
  intro hkeeps
  have hkept := hkeeps.kept (ascii "k") (pack 0 (ascii "new")) rfl rfl
  contradiction

end PebbleStore

end CacheGrid
