import CacheGrid.ShardInvariant
import CacheGrid.StoreLedger

/-!
# An unlimited shard keeps a ledger

Forget the recency list and the sizes, and a shard without a size limit is a
ledger: every call with a key returns what the record under that key alone
determines, and changes that record only.
-/

namespace CacheGrid

open SequentialRuns TimedMap

/-- What an entry means to a reader. -/
def Entry.record (e : Entry) : Record Bytes := ⟨e.value, e.expiresAt⟩

@[simp] theorem Entry.record_dead (e : Entry) (now : ℤ) :
    e.record.dead now = e.isExpired now := rfl

@[simp] theorem Entry.record_value (e : Entry) :
    e.record.value = e.value := rfl

namespace Shard

def contents (s : Shard) : Contents GoString Bytes :=
  fun key => (s.items.lookup key).map Entry.record

variable {key : GoString} {s : Shard}

theorem contents_of_none (hlookup : s.items.lookup key = none) :
    s.contents key = none := by
  simp [contents, hlookup]

theorem contents_of_some {e : Entry} (hlookup : s.items.lookup key = some e) :
    s.contents key = some e.record := by
  simp [contents, hlookup]

theorem expiry_eq_deadlineOf (now : ℤ) (ttl : Duration) :
    expiry now ttl = deadlineOf now ttl := by
  simp only [expiry, deadlineOf, addDuration, Duration.pos_iff]

theorem cellPreservedTTL_record (e : Entry) (now : ℤ) :
    cellPreservedTTL e.record now = preservedTTL e now := rfl

theorem contents_removeLocked (s : Shard) (key : GoString) (e : Entry) :
    (s.removeLocked key e).contents = Function.update s.contents key none := by
  funext other
  by_cases hother : other = key
  · subst other
    simp [contents, removeLocked]
  · rw [Function.update_of_ne hother]
    simp [contents, removeLocked, AList.lookup_erase_ne hother]

theorem Detached.contents_pushEntry {s base : Shard}
    (hbase : Detached s base key) (value : Bytes) (expiresAt : Option ℤ) :
    (base.pushEntry key value expiresAt).contents =
      Function.update s.contents key (some ⟨value, expiresAt⟩) := by
  funext other
  by_cases hother : other = key
  · subst other
    simp [contents, pushedEntry, Entry.record]
  · rw [Function.update_of_ne hother]
    simp [contents, AList.lookup_insert_ne hother,
      hbase.lookup_eq other hother]

theorem Detached.contents_storeLocked {s base : Shard}
    (hbase : Detached s base key) (hunlimited : s.maxSize ≤ 0) (value : Bytes)
    (expiresAt : Option ℤ) :
    (base.storeLocked key value expiresAt).2.contents =
      Function.update s.contents key (some ⟨value, expiresAt⟩) := by
  have hbaseUnlimited : base.maxSize ≤ 0 := by
    have hmax : base.maxSize = s.maxSize :=
      congrArg Prod.fst hbase.settings_eq
    omega
  rw [storeLocked_unlimited hbaseUnlimited, hbase.contents_pushEntry]

/-! ## One call with a key -/

/-- A call on `key` returned `result` and left `after`, as the ledger says. -/
structure FollowsCell (s : Shard) (key : GoString)
    (answer : StoreResult × Cell) (result : StoreResult) (after : Shard) :
    Prop where
  result_eq : result = answer.1
  contents_eq : after.contents = Function.update s.contents key answer.2

theorem followsCell_same {s after : Shard} (hafter : after.contents = s.contents)
    (key : GoString) (result : StoreResult) :
    FollowsCell s key (result, s.contents key) result after where
  result_eq := rfl
  contents_eq := by rw [hafter, Function.update_eq_self]

theorem followsCell_removeLocked (s : Shard) (key : GoString) (e : Entry)
    (result : StoreResult) :
    FollowsCell s key (result, none) result (s.removeLocked key e) where
  result_eq := rfl
  contents_eq := contents_removeLocked s key e

/-- The second section of Exists and TTL finds the record expired again, at
its later reading. -/
theorem followsCell_removeIfExpired {clock : Readings} {e : Entry}
    (hlookup : s.items.lookup key = some e)
    (hexpired : e.isExpired (clock.now 0) = true) (result : StoreResult) :
    FollowsCell s key (result, none) result
      (s.removeIfExpired (clock.now 1) key) := by
  have hlater := isExpired_mono (clock.mono (Nat.zero_le 1)) hexpired
  simp only [removeIfExpired, hlookup, hlater, if_true]
  exact followsCell_removeLocked s key e result

theorem get_followsCell (s : Shard) (codec : Msgpack) (clock : Readings)
    (key : GoString) :
    FollowsCell s key (cellStep codec clock (.get key) (s.contents key))
      (.value (s.get clock key).1) (s.get clock key).2 := by
  cases hlookup : s.items.lookup key with
  | none =>
    have hcell := contents_of_none hlookup
    simp only [Shard.get, hlookup, hcell, cellStep]
    exact hcell ▸ followsCell_same rfl key _
  | some e =>
    have hcell := contents_of_some hlookup
    simp only [Shard.get, hlookup, hcell, cellStep, Entry.record_dead]
    by_cases hexpired : e.isExpired (clock.now 0) = true
    · simp only [hexpired, if_true]
      exact followsCell_removeLocked s key e _
    · simp only [hexpired]
      have hmoved : contents { s with
          lru := s.lru.moveToFront e.element } = s.contents := rfl
      exact hcell ▸ followsCell_same hmoved key _

theorem Coherent.set_followsCell (hcoherent : s.Coherent)
    (hunlimited : s.maxSize ≤ 0) (codec : Msgpack) (clock : Readings)
    (key : GoString) (value : Bytes) (ttl : Duration) :
    FollowsCell s key
      (cellStep codec clock (.set key value ttl) (s.contents key))
      .done (s.set clock key value ttl).2 := by
  obtain ⟨base, hbase, hset⟩ := hcoherent.set_cases clock key value ttl
  refine ⟨rfl, ?_⟩
  rw [hset, hbase.contents_storeLocked hunlimited, expiry_eq_deadlineOf]
  rfl

theorem delete_followsCell (s : Shard) (codec : Msgpack) (clock : Readings)
    (key : GoString) :
    FollowsCell s key (cellStep codec clock (.delete key) (s.contents key))
      (.flag (s.delete key).1) (s.delete key).2 := by
  cases hlookup : s.items.lookup key with
  | none =>
    have hcell := contents_of_none hlookup
    have hsame := followsCell_same rfl key (.flag false) (s := s)
    rw [hcell] at hsame
    simpa [Shard.delete, hlookup, hcell, cellStep] using hsame
  | some e =>
    simp only [Shard.delete, hlookup, contents_of_some hlookup, cellStep]
    exact followsCell_removeLocked s key e _

theorem exists_followsCell (s : Shard) (codec : Msgpack) (clock : Readings)
    (key : GoString) :
    FollowsCell s key (cellStep codec clock (.exists key) (s.contents key))
      (.flag (s.exists clock key).1) (s.exists clock key).2 := by
  cases hlookup : s.items.lookup key with
  | none =>
    have hcell := contents_of_none hlookup
    simp only [Shard.exists, hlookup, hcell, cellStep]
    exact hcell ▸ followsCell_same rfl key _
  | some e =>
    have hcell := contents_of_some hlookup
    simp only [Shard.exists, hlookup, hcell, cellStep, Entry.record_dead]
    by_cases hexpired : e.isExpired (clock.now 0) = true
    · simp only [hexpired, if_true]
      exact followsCell_removeIfExpired hlookup hexpired _
    · simp only [hexpired]
      exact hcell ▸ followsCell_same rfl key _

theorem ttl_followsCell (s : Shard) (codec : Msgpack) (clock : Readings)
    (key : GoString) :
    FollowsCell s key (cellStep codec clock (.ttl key) (s.contents key))
      (.remaining (s.ttl clock key).1) (s.ttl clock key).2 := by
  cases hlookup : s.items.lookup key with
  | none =>
    have hcell := contents_of_none hlookup
    simp only [Shard.ttl, hlookup, hcell, cellStep]
    exact hcell ▸ followsCell_same rfl key _
  | some e =>
    have hcell := contents_of_some hlookup
    simp only [Shard.ttl, hlookup, hcell, cellStep, Entry.record_dead]
    by_cases hexpired : e.isExpired (clock.now 0) = true
    · simp only [hexpired, if_true]
      exact followsCell_removeIfExpired hlookup hexpired _
    · simp only [hexpired]
      exact hcell ▸ followsCell_same rfl key _

theorem Detached.incrStore_followsCell {s base : Shard}
    (hbase : Detached s base key) (hunlimited : s.maxSize ≤ 0)
    (habsent : base.contents = Function.update s.contents key none)
    (codec : Msgpack) (now : ℤ) (current delta : Int64) (ttl : Duration) :
    FollowsCell s key (cellCount codec now current delta ttl)
      (.counter (base.incrStore codec now key current delta ttl).1)
      (base.incrStore codec now key current delta ttl).2.2 := by
  unfold incrStore cellCount
  cases codec.marshal (current + delta) with
  | error err => exact ⟨rfl, habsent⟩
  | ok value =>
    refine ⟨rfl, ?_⟩
    rw [← expiry_eq_deadlineOf]
    exact hbase.contents_storeLocked hunlimited value _

/-- Incr and the ledger leave the record alone, or both count from the same
number with the same time to live. -/
theorem Coherent.incr_cell_cases (hcoherent : s.Coherent) (codec : Msgpack)
    (clock : Readings) (key : GoString) (delta : Int64) (ttl : Duration) :
    (∃ err, s.incr codec clock key delta ttl = (.error err, [], s) ∧
      cellStep codec clock (.incr key delta ttl) (s.contents key) =
        (.counter (.error err), s.contents key)) ∨
    ∃ base current kept, Detached s base key ∧
      base.contents = Function.update s.contents key none ∧
      s.incr codec clock key delta ttl =
        base.incrStore codec (clock.now 2) key current delta kept ∧
      cellStep codec clock (.incr key delta ttl) (s.contents key) =
        cellCount codec (clock.now 2) current delta kept := by
  cases hlookup : s.items.lookup key with
  | none =>
    have hcell := contents_of_none hlookup
    simp only [Shard.incr, hlookup, hcell, cellStep]
    refine .inr ⟨s, 0, ttl, hcoherent.detached_of_absent hlookup, ?_, rfl,
      rfl⟩
    rw [← hcell, Function.update_eq_self]
  | some e =>
    have hcell := contents_of_some hlookup
    have hbase := hcoherent.detached_removeLocked hlookup
    have habsent := contents_removeLocked s key e
    simp only [Shard.incr, hlookup, hcell, cellStep, Entry.record_dead,
      Entry.record_value, cellPreservedTTL_record]
    by_cases hexpired : e.isExpired (clock.now 0) = true
    · have hlater := isExpired_mono (clock.mono (Nat.zero_le 1)) hexpired
      simp only [hexpired, hlater, if_true]
      exact .inr ⟨_, 0, ttl, hbase, habsent, rfl, rfl⟩
    · simp only [hexpired]
      cases codec.unmarshal e.value with
      | error err => exact .inl ⟨err, rfl, rfl⟩
      | ok current =>
        exact .inr ⟨_, current, preservedTTL e (clock.now 1), hbase,
          habsent, rfl, rfl⟩

theorem Coherent.incr_followsCell (hcoherent : s.Coherent)
    (hunlimited : s.maxSize ≤ 0) (codec : Msgpack) (clock : Readings)
    (key : GoString) (delta : Int64) (ttl : Duration) :
    FollowsCell s key
      (cellStep codec clock (.incr key delta ttl) (s.contents key))
      (.counter (s.incr codec clock key delta ttl).1)
      (s.incr codec clock key delta ttl).2.2 := by
  rcases hcoherent.incr_cell_cases codec clock key delta ttl with
    ⟨err, hincr, hcell⟩ | ⟨base, current, kept, hbase, habsent, hincr, hcell⟩
  · rw [hincr, hcell]
    exact followsCell_same rfl key _
  · rw [hincr, hcell]
    exact hbase.incrStore_followsCell hunlimited habsent ..

theorem Coherent.step_followsCell (hcoherent : s.Coherent)
    (hunlimited : s.maxSize ≤ 0) (codec : Msgpack) {call : Readings × StoreOp}
    (hkey : call.2.key? = some key) :
    FollowsCell s key (cellStep codec call.1 call.2 (s.contents key))
      (step codec s call).1.1 (step codec s call).2 := by
  obtain ⟨clock, op⟩ := call
  cases op with
  | get k =>
    obtain rfl := Option.some.inj hkey
    exact get_followsCell s codec clock k
  | set k value ttl =>
    obtain rfl := Option.some.inj hkey
    exact hcoherent.set_followsCell hunlimited codec clock k value ttl
  | delete k =>
    obtain rfl := Option.some.inj hkey
    exact delete_followsCell s codec clock k
  | «exists» k =>
    obtain rfl := Option.some.inj hkey
    exact exists_followsCell s codec clock k
  | ttl k =>
    obtain rfl := Option.some.inj hkey
    exact ttl_followsCell s codec clock k
  | incr k delta defaultTTL =>
    obtain rfl := Option.some.inj hkey
    exact hcoherent.incr_followsCell hunlimited codec clock k delta
      defaultTTL
  | deleteExpired => simp [StoreOp.key?] at hkey

/-! ## A sweep -/

theorem Invariant.deleteExpired_ledger (hinv : s.Invariant) (clock : Readings) :
    (s.deleteExpired clock).2.2.contents =
        (fun key => (s.contents key).filter fun r => !r.dead (clock.now 0)) ∧
      (s.deleteExpired clock).1 =
        (sweptKeys (fun _ => 0) clock s.contents).ncard := by
  have hsweeps := hinv.deleteExpired_sweeps clock
  constructor
  · funext key
    simp only [contents, hsweeps.lookup]
    change Option.map _ (if (s.items.lookup key).any _ then _ else _) = _
    cases s.items.lookup key with
    | none => rfl
    | some e =>
      cases hexpired : e.isExpired (clock.now 0) <;>
        simp [Option.filter, hexpired]
  · rw [hsweeps.count,
      length_filter_entries s.items fun e => e.isExpired (clock.now 0)]
    congr 1
    ext key
    cases hlookup : s.items.lookup key with
    | none => simp [sweptKeys, hlookup, contents_of_none hlookup]
    | some e => simp [sweptKeys, hlookup, contents_of_some hlookup]

end Shard

end CacheGrid
