import CacheGrid.Store

/-!
# One partition of the memory cache

`Entry`, `LRUList` and `Shard` of `internal/cache`.  The map, the recency list
and the running size are three separate structures, updated by hand in every
operation exactly as the source does.

A `*list.Element` is an allocation number.  Entries are never mutated after
they are pushed, so the list holds them by value, each with the number of the
element that carries it.  The `int64` sizes are exact integers: they add up
lengths of byte strings that the shard holds.

Every operation takes the clock readings of its call, in the order in which
the source takes them.  Sections under the shard mutex run one after the
other, so an operation is a function of the shard.
-/

namespace CacheGrid

/-- `cache.Entry`.  The zero `time.Time` of an entry without expiry is
`none`. -/
structure Entry where
  key : GoString
  value : Bytes
  expiresAt : Option ℤ
  size : ℤ
  element : ℕ
  deriving DecidableEq

def Entry.isExpired (e : Entry) (now : ℤ) : Bool :=
  match e.expiresAt with
  | none => false
  | some deadline => decide (deadline < now)

def Entry.ttl (e : Entry) (now : ℤ) : Duration :=
  match e.expiresAt with
  | none => -1
  | some deadline =>
    let remaining := timeSub deadline now
    if remaining < 0 then 0 else remaining

def estimateSize (key : GoString) (value : Bytes) : ℤ :=
  key.length + value.length + 184

/-- `container/list` behind `LRUList`, front first.  Element numbers are
handed out once. -/
structure LRUList where
  elements : List Entry
  nextElement : ℕ
  fresh : ∀ e ∈ elements, e.element < nextElement
  nodup : (elements.map Entry.element).Nodup

namespace LRUList

def new : LRUList where
  elements := []
  nextElement := 0
  fresh := by simp
  nodup := by simp

def keep (l : LRUList) (p : Entry → Bool) : LRUList where
  elements := l.elements.filter p
  nextElement := l.nextElement
  fresh := fun e he => l.fresh e (List.mem_filter.mp he).1
  nodup := l.nodup.sublist (List.filter_sublist.map Entry.element)

def pushFront (l : LRUList) (e : Entry) : ℕ × LRUList :=
  (l.nextElement, {
    elements := { e with element := l.nextElement } :: l.elements
    nextElement := l.nextElement + 1
    fresh := by
      intro other hother
      rcases List.mem_cons.mp hother with rfl | hold
      · exact Nat.lt_succ_self _
      · exact Nat.lt_succ_of_lt (l.fresh other hold)
    nodup := by
      refine List.nodup_cons.mpr ⟨?_, l.nodup⟩
      intro hmem
      obtain ⟨other, hother, heq⟩ := List.mem_map.mp hmem
      exact absurd heq (Nat.ne_of_lt (l.fresh other hother)) })

def remove (l : LRUList) (element : ℕ) : LRUList :=
  l.keep fun e => e.element ≠ element

/-- `MoveToFront`; an element that is not in the list changes nothing. -/
def moveToFront (l : LRUList) (element : ℕ) : LRUList where
  elements := l.elements.filter (fun e => e.element = element) ++
    l.elements.filter (fun e => e.element ≠ element)
  nextElement := l.nextElement
  fresh := by
    intro e he
    rcases List.mem_append.mp he with h | h
    · exact l.fresh e (List.mem_filter.mp h).1
    · exact l.fresh e (List.mem_filter.mp h).1
  nodup := by
    have hperm : (l.elements.filter (fun e => e.element = element) ++
        l.elements.filter (fun e => e.element ≠ element)).Perm l.elements := by
      simpa using List.filter_append_perm
        (fun e : Entry => decide (e.element = element)) l.elements
    exact (hperm.map Entry.element).nodup_iff.mpr l.nodup

/-- `RemoveOldest`: the back of the list, `nil` if it is empty. -/
def removeOldest (l : LRUList) : Option Entry × LRUList :=
  (l.elements.getLast?, {
    elements := l.elements.dropLast
    nextElement := l.nextElement
    fresh := fun e he => l.fresh e (List.mem_of_mem_dropLast he)
    nodup := l.nodup.sublist ((List.dropLast_sublist _).map Entry.element) })

def len (l : LRUList) : ℕ := l.elements.length

end LRUList

/-- `cache.Shard`.  A callback is present (`true`) or `nil` (`false`). -/
structure Shard where
  items : AList fun _ : GoString => Entry
  lru : LRUList
  size : ℤ
  maxSize : ℤ
  onEvict : Bool
  onExpire : Bool

namespace Shard

/-- `NewShard`, with the callbacks that `SetOnEvict` and `SetOnExpire`
install before the first operation. -/
def new (maxSize : ℤ) (onEvict onExpire : Bool) : Shard where
  items := ∅
  lru := .new
  size := 0
  maxSize := maxSize
  onEvict := onEvict
  onExpire := onExpire

def removeLocked (s : Shard) (key : GoString) (e : Entry) : Shard :=
  { s with
    lru := s.lru.remove e.element
    size := s.size - e.size
    items := s.items.erase key }

/-- The loop of `evictLocked`.  Every round removes an element, so as many
rounds as there are elements are enough. -/
def evictLoop : ℕ → Shard → List Callback × Shard
  | 0, s => ([], s)
  | rounds + 1, s =>
    if s.maxSize < s.size ∧ 0 < s.lru.len then
      match s.lru.removeOldest with
      | (none, lru) => evictLoop rounds { s with lru := lru }
      | (some oldest, lru) =>
        let rest := evictLoop rounds { s with
          lru := lru
          size := s.size - oldest.size
          items := s.items.erase oldest.key }
        (if s.onEvict then
            .evict oldest.key oldest.value :: rest.1
          else rest.1, rest.2)
    else ([], s)

def evictLocked (s : Shard) : List Callback × Shard :=
  if s.maxSize ≤ 0 then ([], s) else s.evictLoop s.lru.len

def pushEntry (s : Shard) (key : GoString) (value : Bytes)
    (expiresAt : Option ℤ) : Shard :=
  let e : Entry := ⟨key, value, expiresAt, estimateSize key value, 0⟩
  let pushed := s.lru.pushFront e
  { s with
    lru := pushed.2
    items := s.items.insert key { e with element := pushed.1 }
    size := s.size + e.size }

def storeLocked (s : Shard) (key : GoString) (value : Bytes)
    (expiresAt : Option ℤ) : List Callback × Shard :=
  (s.pushEntry key value expiresAt).evictLocked

/-- `var expiresAt time.Time; if ttl > 0 { expiresAt = time.Now().Add(ttl) }` -/
def expiry (now : ℤ) (ttl : Duration) : Option ℤ :=
  if 0 < ttl then some (addDuration now ttl) else none

def get (s : Shard) (clock : Readings) (key : GoString) :
    Option Bytes × Shard :=
  match s.items.lookup key with
  | none => (none, s)
  | some e =>
    if e.isExpired (clock.now 0) then (none, s.removeLocked key e)
    else (some e.value, { s with lru := s.lru.moveToFront e.element })

def setLocked (s : Shard) (key : GoString) (value : Bytes)
    (expiresAt : Option ℤ) : List Callback × Shard :=
  match s.items.lookup key with
  | some existing =>
    storeLocked { s with
      size := s.size - existing.size
      lru := s.lru.remove existing.element } key value expiresAt
  | none => s.storeLocked key value expiresAt

def set (s : Shard) (clock : Readings) (key : GoString) (value : Bytes)
    (ttl : Duration) : List Callback × Shard :=
  s.setLocked key value (expiry (clock.now 0) ttl)

def delete (s : Shard) (key : GoString) : Bool × Shard :=
  match s.items.lookup key with
  | none => (false, s)
  | some e => (true, s.removeLocked key e)

/-- The second section of `Exists` and `TTL`, under the write lock: look the
key up again and remove it if it is still expired. -/
def removeIfExpired (s : Shard) (now : ℤ) (key : GoString) : Shard :=
  match s.items.lookup key with
  | none => s
  | some e => if e.isExpired now then s.removeLocked key e else s

def «exists» (s : Shard) (clock : Readings) (key : GoString) : Bool × Shard :=
  match s.items.lookup key with
  | none => (false, s)
  | some e =>
    if e.isExpired (clock.now 0) then
      (false, s.removeIfExpired (clock.now 1) key)
    else (true, s)

def ttl (s : Shard) (clock : Readings) (key : GoString) : Duration × Shard :=
  match s.items.lookup key with
  | none => (0, s)
  | some e =>
    if e.isExpired (clock.now 0) then
      (0, s.removeIfExpired (clock.now 1) key)
    else (e.ttl (clock.now 1), s)

/-- The end of `Shard.Incr`, from `current += delta` on. -/
def incrStore (s : Shard) (codec : Msgpack) (now : ℤ) (key : GoString)
    (current delta : Int64) (ttl : Duration) :
    Except GoString Int64 × List Callback × Shard :=
  match codec.marshal (current + delta) with
  | .error err => (.error err, [], s)
  | .ok value =>
    (.ok (current + delta), s.storeLocked key value (expiry now ttl))

/-- What `Shard.Incr` keeps of a live counter's TTL. -/
def preservedTTL (e : Entry) (now : ℤ) : Duration :=
  match e.expiresAt with
  | none => 0
  | some deadline =>
    let remaining := timeSub deadline now
    if 0 < remaining then remaining else 0

def incr (s : Shard) (codec : Msgpack) (clock : Readings) (key : GoString)
    (delta : Int64) (ttl : Duration) :
    Except GoString Int64 × List Callback × Shard :=
  match s.items.lookup key with
  | none => s.incrStore codec (clock.now 2) key 0 delta ttl
  | some e =>
    if e.isExpired (clock.now 0) then
      -- the condition of the `else if` reads the clock again
      let s := if e.isExpired (clock.now 1) then s.removeLocked key e else s
      s.incrStore codec (clock.now 2) key 0 delta ttl
    else
      match codec.unmarshal e.value with
      | .error err => (.error err, [], s)
      | .ok current =>
        (s.removeLocked key e).incrStore codec (clock.now 2) key current
          delta (preservedTTL e (clock.now 1))

def sweep (now : ℤ) : List (Σ _ : GoString, Entry) → Shard →
    ℕ × List Callback × Shard
  | [], s => (0, [], s)
  | ⟨key, e⟩ :: rest, s =>
    if e.isExpired now then
      let swept := sweep now rest (s.removeLocked key e)
      (swept.1 + 1,
        if s.onExpire then .expire key e.value :: swept.2.1 else swept.2.1,
        swept.2.2)
    else sweep now rest s

def deleteExpired (s : Shard) (clock : Readings) :
    ℕ × List Callback × Shard :=
  sweep (clock.now 0) s.items.entries s

def step (codec : Msgpack) (s : Shard) (call : Readings × StoreOp) :
    (StoreResult × List Callback) × Shard :=
  match call.2 with
  | .get key =>
    let r := s.get call.1 key
    ((.value r.1, []), r.2)
  | .set key value ttl =>
    let r := s.set call.1 key value ttl
    ((.done, r.1), r.2)
  | .delete key =>
    let r := s.delete key
    ((.flag r.1, []), r.2)
  | .exists key =>
    let r := s.exists call.1 key
    ((.flag r.1, []), r.2)
  | .ttl key =>
    let r := s.ttl call.1 key
    ((.remaining r.1, []), r.2)
  | .incr key delta defaultTTL =>
    let r := s.incr codec call.1 key delta defaultTTL
    ((.counter r.1, r.2.1), r.2.2)
  | .deleteExpired =>
    let r := s.deleteExpired call.1
    ((.removed r.1, r.2.1), r.2.2)

end Shard

end CacheGrid
