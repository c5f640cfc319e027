import CacheGrid.Store
import CacheGrid.InterleavedPrograms

/-!
# The disk store

`PebbleStore` keeps its records in a Pebble database, each with an eight byte
deadline in front of the value.  Every method is a program over the atomic
steps it takes: the calls into the database, the clock, the mutex of Incr, the
atomic counter and the callback pointer.  The database is an exact map that
does not fail; the branches of the source that handle a failure are kept in
the programs.  An iterator visits the records in the order in which the map
lists them, where Pebble's goes by the keys; what depends on it is the order
of the callbacks of one sweep.
-/

namespace CacheGrid

open InterleavedPrograms

inductive PebbleOp where
  | get (key : GoString)
  | set (key : GoString) (raw : Bytes)
  | delete (key : GoString)
  | iterate
  | commit (deleted : List GoString)
  | now
  | addCount (delta : Int64)
  | lock
  | unlock
  | loadOnExpire
  | callback (key : GoString) (value : Bytes)

/-- `db.Get` and `db.NewIter` answer `none` where the source sees an error,
`db.Set` and `db.Delete` return theirs. -/
abbrev PebbleOp.Answer : PebbleOp → Type
  | .get _ => Option Bytes
  | .set _ _ => Except GoString Unit
  | .delete _ => Except GoString Unit
  | .iterate => Option (List (GoString × Bytes))
  | .commit _ => Unit
  | .now => ℤ
  | .addCount _ => Unit
  | .lock => Unit
  | .unlock => Unit
  | .loadOnExpire => Bool
  | .callback _ _ => Unit

abbrev pebbleSignature : Signature := ⟨PebbleOp, PebbleOp.Answer⟩

structure PebbleStore where
  db : AList fun _ : GoString => Bytes
  locked : Bool
  count : Int64
  onExpire : Bool
  fired : List Callback
  /-- The last clock reading of any call. -/
  clock : ℤ

namespace PebbleStore

abbrev Program := Prog pebbleSignature

abbrev perform (op : PebbleOp) : Program op.Answer :=
  Prog.perform (S := pebbleSignature) op

/-! ## Records -/

/-- What `encode` writes: the deadline, then the value. -/
def pack (expiresAtNano : Int64) (value : Bytes) : Bytes :=
  putInt64 expiresAtNano ++ value

def encode (value : Bytes) (ttl : Duration) : Program Bytes :=
  if 0 < ttl then do
    let now ← perform .now
    pure (pack (unixNano (addDuration now ttl)) value)
  else pure (pack 0 value)

def decode (raw : Bytes) : Bytes × Int64 :=
  if raw.length < 8 then ([], 0)
  else (raw.drop 8, readInt64 (raw.take 8))

@[simp] theorem decode_pack (expiresAtNano : Int64) (value : Bytes) :
    decode (pack expiresAtNano value) = (value, expiresAtNano) := by
  have hlength : ¬ (pack expiresAtNano value).length < 8 := by
    simp [pack]
  have hdrop : (pack expiresAtNano value).drop 8 = value := by
    rw [pack, List.drop_left' (putInt64_length expiresAtNano)]
  have htake : (pack expiresAtNano value).take 8 =
      putInt64 expiresAtNano := by
    rw [pack, List.take_left' (putInt64_length expiresAtNano)]
  simp only [decode, hlength, if_false, hdrop, htake, readInt64_putInt64]

def isExpired (expiresAtNano : Int64) : Program Bool :=
  if expiresAtNano ≠ 0 then do
    let now ← perform .now
    pure (decide (expiresAtNano < unixNano now))
  else pure false

/-! ## The methods -/

/-- The lazy removal in Get, Exists and TTL; an error of `db.Delete` is
ignored. -/
def removeExpired (key : GoString) : Program Unit := do
  let _ ← perform (.delete key)
  perform (.addCount (-1))

def get (key : GoString) : Program (Option Bytes) := do
  match ← perform (.get key) with
  | none => pure none
  | some raw =>
    let decoded := decode raw
    if ← isExpired decoded.2 then
      removeExpired key
      pure none
    else pure (some decoded.1)

def set (key : GoString) (value : Bytes) (ttl : Duration) :
    Program Unit := do
  let existing ← perform (.get key)
  let encoded ← encode value ttl
  match ← perform (.set key encoded) with
  | .error _ => pure ()
  | .ok _ =>
    if existing.isNone then
      perform (.addCount 1)
    else pure ()

def delete (key : GoString) : Program Bool := do
  match ← perform (.get key) with
  | none => pure false
  | some _ =>
    match ← perform (.delete key) with
    | .error _ => pure false
    | .ok _ =>
      perform (.addCount (-1))
      pure true

def «exists» (key : GoString) : Program Bool := do
  match ← perform (.get key) with
  | none => pure false
  | some raw =>
    if ← isExpired (decode raw).2 then
      removeExpired key
      pure false
    else pure true

def ttl (key : GoString) : Program Duration := do
  match ← perform (.get key) with
  | none => pure 0
  | some raw =>
    let expiresAtNano := (decode raw).2
    if expiresAtNano = 0 then pure (-1)
    else
      let now ← perform .now
      let remaining := timeSub expiresAtNano.toInt now
      if remaining ≤ 0 then
        removeExpired key
        pure 0
      else pure remaining

/-- The end of `Incr`, from `current += delta` on, under the mutex. -/
def incrStore (codec : Msgpack) (key : GoString) (current delta : Int64)
    (ttl : Duration) : Program (Except GoString Int64) :=
  match codec.marshal (current + delta) with
  | .error err => pure (.error err)
  | .ok newValue => do
    let encoded ← encode newValue ttl
    let existing ← perform (.get key)
    match ← perform (.set key encoded) with
    | .error err => pure (.error err)
    | .ok _ =>
      if existing.isNone then
        perform (.addCount 1)
        pure (.ok (current + delta))
      else pure (.ok (current + delta))

/-- The ttl that `Incr` keeps of a live counter. -/
def preservedTTL (expiresAtNano : Int64) : Program Duration :=
  if expiresAtNano ≠ 0 then do
    let now ← perform .now
    let remaining := timeSub expiresAtNano.toInt now
    pure (if 0 < remaining then remaining else 0)
  else pure 0

def incrLocked (codec : Msgpack) (key : GoString) (delta : Int64)
    (defaultTTL : Duration) : Program (Except GoString Int64) := do
  match ← perform (.get key) with
  | none => incrStore codec key 0 delta defaultTTL
  | some raw =>
    let decoded := decode raw
    if ← isExpired decoded.2 then
      perform (.addCount (-1))
      incrStore codec key 0 delta defaultTTL
    else
      match codec.unmarshal decoded.1 with
      | .error err => pure (.error err)
      | .ok current =>
        let ttl ← preservedTTL decoded.2
        incrStore codec key current delta ttl

def incr (codec : Msgpack) (key : GoString) (delta : Int64)
    (defaultTTL : Duration) : Program (Except GoString Int64) := do
  perform .lock
  let result ← incrLocked codec key delta defaultTTL
  perform .unlock
  pure result

def expiredEntries (now : Int64) (entries : List (GoString × Bytes)) :
    List (GoString × Bytes) :=
  entries.filterMap fun entry =>
    if entry.2.length < 8 then none
    else
      let expiresAtNano := readInt64 (entry.2.take 8)
      if expiresAtNano ≠ 0 ∧ expiresAtNano < now then
        some (entry.1, entry.2.drop 8)
      else none

def fireAll : List (GoString × Bytes) → Program Unit
  | [] => pure ()
  | entry :: rest => do
    perform (.callback entry.1 entry.2)
    fireAll rest

def deleteExpired : Program ℕ := do
  let now ← perform .now
  match ← perform .iterate with
  | none => pure 0
  | some entries =>
    let expired := expiredEntries (unixNano now) entries
    if expired.length = 0 then pure 0
    else
      perform (.commit (expired.map Prod.fst))
      perform (.addCount (Int64.ofInt (-expired.length)))
      if ← perform .loadOnExpire then
        fireAll expired
        pure expired.length
      else pure expired.length

def call (codec : Msgpack) : StoreOp → Program StoreResult
  | .get key => StoreResult.value <$> get key
  | .set key value ttl => (fun _ => StoreResult.done) <$> set key value ttl
  | .delete key => StoreResult.flag <$> delete key
  | .exists key => StoreResult.flag <$> «exists» key
  | .ttl key => StoreResult.remaining <$> ttl key
  | .incr key delta defaultTTL =>
    StoreResult.counter <$> incr codec key delta defaultTTL
  | .deleteExpired => StoreResult.removed <$> deleteExpired

/-! ## The store under its atomic steps -/

def snapshot (store : PebbleStore) : List (GoString × Bytes) :=
  store.db.entries.map fun entry => (entry.1, entry.2)

/-- One atomic step; the scheduler chooses the clock reading, which never
goes back.  A taken mutex blocks. -/
def exec (store : PebbleStore) :
    (op : PebbleOp) → ℤ → Option (op.Answer × PebbleStore)
  | .get key, _ => some (store.db.lookup key, store)
  | .set key raw, _ =>
    some (.ok (), { store with db := store.db.insert key raw })
  | .delete key, _ => some (.ok (), { store with db := store.db.erase key })
  | .iterate, _ => some (some store.snapshot, store)
  | .commit deleted, _ =>
    some ((), { store with
      db := deleted.foldl (fun db key => db.erase key) store.db })
  | .now, reading =>
    if store.clock ≤ reading then
      some (reading, { store with clock := reading })
    else none
  | .addCount delta, _ =>
    some ((), { store with count := store.count + delta })
  | .lock, _ =>
    if store.locked then none else some ((), { store with locked := true })
  | .unlock, _ => some ((), { store with locked := false })
  | .loadOnExpire, _ => some (store.onExpire, store)
  | .callback key value, _ =>
    some ((), { store with fired := store.fired ++ [.expire key value] })

def machine : Semantics pebbleSignature PebbleStore ℤ Empty where
  exec := exec
  env := fun _ event => nomatch event

def effect (key : GoString) : PebbleOp → Option Bytes → Option Bytes
  | .set other raw, cell => if key = other then some raw else cell
  | .delete other, cell => if key = other then none else cell
  | .commit deleted, cell => if key ∈ deleted then none else cell
  | _, cell => cell

theorem commit_lookup (deleted : List GoString)
    (db : AList fun _ : GoString => Bytes) (key : GoString) :
    (deleted.foldl (fun db key => db.erase key) db).lookup key =
      if key ∈ deleted then none else db.lookup key := by
  induction deleted generalizing db with
  | nil => rfl
  | cons first rest ih =>
    rw [List.foldl_cons, ih]
    by_cases hkey : key = first
    · subst key
      simp
    · simp [hkey, AList.lookup_erase_ne hkey]

variable {store after : PebbleStore}

theorem exec_now_eq {reading answer : ℤ}
    (hexec : store.exec .now reading = some (answer, after)) :
    store.clock ≤ reading ∧ answer = reading ∧
      after = { store with clock := reading } := by
  simp only [exec] at hexec
  split at hexec
  · rename_i hclock
    cases hexec
    exact ⟨hclock, rfl, rfl⟩
  · contradiction

theorem exec_lock_eq {reading : ℤ} {answer : Unit}
    (hexec : store.exec .lock reading = some (answer, after)) :
    store.locked = false ∧ after = { store with locked := true } := by
  simp only [exec] at hexec
  split at hexec
  · contradiction
  · rename_i hfree
    cases hexec
    exact ⟨Bool.eq_false_iff.mpr hfree, rfl⟩

theorem exec_lookup {op : PebbleOp} {reading : ℤ} {answer : op.Answer}
    (hexec : store.exec op reading = some (answer, after)) (key : GoString) :
    after.db.lookup key = effect key op (store.db.lookup key) := by
  cases op with
  | set other raw =>
    cases hexec
    by_cases hkey : key = other
    · subst hkey
      simp [effect]
    · simp [effect, hkey, AList.lookup_insert_ne hkey]
  | delete other =>
    cases hexec
    by_cases hkey : key = other
    · subst hkey
      simp [effect]
    · simp [effect, hkey, AList.lookup_erase_ne hkey]
  | commit deleted =>
    cases hexec
    exact commit_lookup deleted store.db key
  | now =>
    obtain ⟨_, _, rfl⟩ := exec_now_eq hexec
    rfl
  | lock =>
    obtain ⟨_, rfl⟩ := exec_lock_eq hexec
    rfl
  | _ =>
    cases hexec
    rfl

theorem exec_clock {op : PebbleOp} {reading : ℤ} {answer : op.Answer}
    (hexec : store.exec op reading = some (answer, after)) :
    store.clock ≤ after.clock := by
  cases op with
  | now =>
    obtain ⟨hclock, _, rfl⟩ := exec_now_eq hexec
    exact hclock
  | lock =>
    obtain ⟨_, rfl⟩ := exec_lock_eq hexec
    exact le_rfl
  | _ =>
    cases hexec
    exact le_rfl

def new (onExpire : Bool) (clock : ℤ) : PebbleStore where
  db := ∅
  locked := false
  count := 0
  onExpire := onExpire
  fired := []
  clock := clock

end PebbleStore

end CacheGrid
