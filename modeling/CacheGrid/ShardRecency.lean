import CacheGrid.ShardInvariant

/-!
# Eviction is exact least-recently-used

A touch is a hitting Get, a Set or a successful Incr.  The recency list is
ordered by the number of the operation that last touched each key, and a store
with a limit keeps the longest prefix, in that order, that fits.
-/

namespace CacheGrid

open SequentialRuns

/-- The key an operation touches, given its result. -/
def touched : StoreOp → StoreResult → Option GoString
  | .get key, .value (some _) => some key
  | .set key _ _, _ => some key
  | .incr key _ _, .counter (.ok _) => some key
  | _, _ => none

/-- The number, from 1, of the last operation that touched `key`; 0 if none
did. -/
def lastTouch (history : List (Option GoString)) (key : GoString) : ℕ :=
  (history.zipIdx 1).foldl
    (fun last entry => if entry.1 = some key then entry.2 else last) 0

@[simp] theorem lastTouch_append (history : List (Option GoString))
    (touch : Option GoString) (key : GoString) :
    lastTouch (history ++ [touch]) key =
      if touch = some key then history.length + 1
      else lastTouch history key := by
  simp [lastTouch, List.zipIdx_append, add_comm]

theorem lastTouch_le_length (history : List (Option GoString))
    (key : GoString) : lastTouch history key ≤ history.length := by
  induction history using List.reverseRecOn with
  | nil => simp [lastTouch]
  | append_singleton history touch ih =>
    rw [lastTouch_append, List.length_append, List.length_singleton]
    split_ifs <;> omega

/-- The keys are listed by strictly decreasing last touch. -/
def OrderedByTouch (history : List (Option GoString))
    (entries : List Entry) : Prop :=
  entries.Pairwise fun newer older =>
    lastTouch history older.key < lastTouch history newer.key

theorem OrderedByTouch.append_none {history : List (Option GoString)}
    {entries : List Entry} (hordered : OrderedByTouch history entries) :
    OrderedByTouch (history ++ [none]) entries := by
  simpa [OrderedByTouch] using hordered

theorem OrderedByTouch.append_touch {history : List (Option GoString)}
    {entries : List Entry} (hordered : OrderedByTouch history entries)
    (e : Entry) :
    OrderedByTouch (history ++ [some e.key])
      (e :: without e.key entries) := by
  have hother : ∀ other ∈ without e.key entries,
      lastTouch (history ++ [some e.key]) other.key =
        lastTouch history other.key := by
    intro other hmem
    have hne : e.key ≠ other.key := Ne.symm (mem_without.mp hmem).2
    simp [hne]
  refine List.pairwise_cons.mpr ⟨?_, ?_⟩
  · intro other hmem
    rw [hother other hmem, lastTouch_append, if_pos rfl]
    have hle := lastTouch_le_length history other.key
    omega
  · refine (hordered.sublist (without_sublist e.key entries)).imp_of_mem ?_
    intro newer older hnewer holder hlt
    rw [hother newer hnewer, hother older holder]
    exact hlt

namespace Shard

/-! ## What one operation does to the list -/

/-- What storing `value` under `key` leaves in the shard: the longest prefix
of the new entry followed by the other keys in recency order that fits under
the limit.  The rest is evicted, and reported once each if there is an
`OnEvict`.  Of the new entry only the number of its list element is open. -/
structure KeepsLongestPrefix (s : Shard) (key : GoString) (value : Bytes)
    (expiresAt : Option ℤ) (callbacks : List Callback) (after : Shard)
    (kept evicted : List Entry) : Prop where
  order : ∃ element, kept ++ evicted =
    ⟨key, value, expiresAt, estimateSize key value, element⟩ ::
      without key s.lru.elements
  elements : after.lru.elements = kept
  present : ∀ other, other ∈ after.items ↔ other ∈ kept.map Entry.key
  fits : totalSize kept ≤ s.maxSize
  longest : ∀ front, front <+: kept ++ evicted →
    totalSize front ≤ s.maxSize → front <+: kept
  callbacks_eq : callbacks =
    if s.onEvict then evicted.reverse.map fun e => .evict e.key e.value
    else []

variable {s : Shard}

theorem Coherent.mem_items_iff (hcoherent : s.Coherent) (key : GoString) :
    key ∈ s.items ↔ key ∈ s.lru.elements.map Entry.key := by
  rw [← AList.lookup_isSome, Option.isSome_iff_exists, List.mem_map]
  exact exists_congr fun e => hcoherent.lookup_iff key e

variable {key : GoString}

theorem Detached.keepsLongestPrefix {s base : Shard}
    (hbase : Detached s base key) (hlimited : 0 < s.maxSize) (value : Bytes)
    (expiresAt : Option ℤ) :
    ∃ kept evicted,
      KeepsLongestPrefix s key value expiresAt
        (base.storeLocked key value expiresAt).1
        (base.storeLocked key value expiresAt).2 kept evicted := by
  have hmaxSize : base.maxSize = s.maxSize :=
    congrArg Prod.fst hbase.settings_eq
  have honEvict : base.onEvict = s.onEvict :=
    congrArg (fun settings => settings.2.1) hbase.settings_eq
  obtain ⟨kept, evicted, hevicts⟩ :=
    hbase.away.storeLocked_evicts (hmaxSize ▸ hlimited) value expiresAt
  refine ⟨kept, evicted, ?_⟩
  have hsplit := hevicts.split
  have htotal := hevicts.coherent.total
  rw [hevicts.elements] at htotal
  exact {
    order := ⟨base.lru.nextElement, by
      rw [← hsplit, pushEntry_elements, hbase.elements]
      rfl⟩
    elements := hevicts.elements
    present := by
      intro other
      rw [hevicts.coherent.mem_items_iff, hevicts.elements]
    fits := by
      rcases hevicts.fits with hempty | hfits
      · rw [hempty, totalSize_nil]
        exact hlimited.le
      · rw [← htotal, ← hmaxSize]
        exact hfits
    longest := by
      intro front hfront hsize
      rw [← hsplit] at hfront
      exact hevicts.longest front hfront (by simpa [hmaxSize] using hsize)
    callbacks_eq := by simpa [honEvict] using hevicts.callbacks_eq }

theorem Coherent.set_keepsLongestPrefix (hcoherent : s.Coherent)
    (hlimited : 0 < s.maxSize) (clock : Readings) (key : GoString)
    (value : Bytes) (ttl : Duration) :
    ∃ kept evicted,
      KeepsLongestPrefix s key value (expiry (clock.now 0) ttl)
        (s.set clock key value ttl).1 (s.set clock key value ttl).2 kept
        evicted := by
  obtain ⟨base, hbase, hset⟩ := hcoherent.set_cases clock key value ttl
  rw [hset]
  exact hbase.keepsLongestPrefix hlimited value _

theorem incrStore_ok {codec : Msgpack} {now : ℤ} {current delta n : Int64}
    {ttl : Duration}
    (hok : (s.incrStore codec now key current delta ttl).1 = .ok n) :
    ∃ value, codec.marshal n = .ok value ∧
      (s.incrStore codec now key current delta ttl).2 =
        s.storeLocked key value (expiry now ttl) := by
  unfold incrStore at hok ⊢
  cases hmarshal : codec.marshal (current + delta) with
  | error err => simp [hmarshal] at hok
  | ok value =>
    simp only [hmarshal, Except.ok.injEq] at hok ⊢
    subst n
    exact ⟨value, hmarshal, rfl⟩

theorem Invariant.incr_keepsLongestPrefix (hinv : s.Invariant)
    (hlimited : 0 < s.maxSize) {codec : Msgpack} {clock : Readings}
    {delta n : Int64} {ttl : Duration}
    (hok : (s.incr codec clock key delta ttl).1 = .ok n) :
    ∃ value kept evicted, codec.marshal n = .ok value ∧
      KeepsLongestPrefix s key value
        (expiry (clock.now 2) (s.counterTTL clock key ttl))
        (s.incr codec clock key delta ttl).2.1
        (s.incr codec clock key delta ttl).2.2 kept evicted := by
  rcases hinv.incr_cases codec clock key delta ttl with
    ⟨err, hincr⟩ | ⟨base, current, _, hbase, hincr⟩
  · simp [hincr] at hok
  · rw [hincr] at hok ⊢
    obtain ⟨value, hvalue, hstore⟩ := incrStore_ok hok
    obtain ⟨kept, evicted, hkeeps⟩ :=
      hbase.keepsLongestPrefix hlimited value
        (expiry (clock.now 2) (s.counterTTL clock key ttl))
    rw [hstore]
    exact ⟨value, kept, evicted, hvalue, hkeeps⟩

/-- How an operation that touches the given key changes the list. -/
def Reorders (s after : Shard) : Option GoString → Prop
  | some key => ∃ e : Entry, e.key = key ∧
      after.lru.elements <+: e :: without key s.lru.elements
  | none => after.lru.elements.Sublist s.lru.elements

theorem Detached.storeLocked_reorders {s base : Shard}
    (hbase : Detached s base key) (value : Bytes) (expiresAt : Option ℤ) :
    Reorders s (base.storeLocked key value expiresAt).2 (some key) := by
  by_cases hlimited : 0 < s.maxSize
  · obtain ⟨kept, evicted, hkeeps⟩ :=
      hbase.keepsLongestPrefix hlimited value expiresAt
    obtain ⟨element, horder⟩ := hkeeps.order
    refine ⟨⟨key, value, expiresAt, estimateSize key value, element⟩, rfl, ?_⟩
    rw [hkeeps.elements, ← horder]
    exact List.prefix_append kept evicted
  · have hmaxSize : base.maxSize = s.maxSize :=
      congrArg Prod.fst hbase.settings_eq
    rw [storeLocked_unlimited (hmaxSize ▸ not_lt.mp hlimited)]
    refine ⟨base.pushedEntry key value expiresAt, rfl, ?_⟩
    rw [pushEntry_elements, hbase.elements]

theorem Detached.incrStore_reorders {s base : Shard}
    (hbase : Detached s base key) (codec : Msgpack) (now : ℤ)
    (current delta : Int64) (ttl newTTL : Duration) :
    Reorders s (base.incrStore codec now key current delta newTTL).2.2
      (touched (.incr key delta ttl) (.counter
        (base.incrStore codec now key current delta newTTL).1)) := by
  unfold incrStore
  cases codec.marshal (current + delta) with
  | error err =>
    change base.lru.elements.Sublist s.lru.elements
    rw [hbase.elements]
    exact without_sublist _ _
  | ok value => exact hbase.storeLocked_reorders value _

theorem Coherent.removeLocked_reorders (hcoherent : s.Coherent) {e : Entry}
    (hlookup : s.items.lookup key = some e) :
    Reorders s (s.removeLocked key e) none := by
  change (s.removeLocked key e).lru.elements.Sublist s.lru.elements
  rw [(hcoherent.detached_removeLocked hlookup).elements]
  exact without_sublist _ _

theorem reorders_refl (s : Shard) : Reorders s s none := List.Sublist.refl _

theorem Coherent.removeIfExpired_reorders (hcoherent : s.Coherent) (now : ℤ)
    (key : GoString) :
    Reorders s (s.removeIfExpired now key) none := by
  unfold removeIfExpired
  cases hlookup : s.items.lookup key with
  | none => exact reorders_refl s
  | some e =>
    simp only
    split
    · exact hcoherent.removeLocked_reorders hlookup
    · exact reorders_refl s

/-- One operation moves the key it touches to the front and otherwise only
removes entries from the list. -/
theorem Invariant.step_reorders (hinv : s.Invariant) (codec : Msgpack)
    (call : Readings × StoreOp) :
    Reorders s (Shard.step codec s call).2
      (touched call.2 (Shard.step codec s call).1.1) := by
  obtain ⟨clock, op⟩ := call
  cases op with
  | get key =>
    simp only [Shard.step, Shard.get]
    cases hlookup : s.items.lookup key with
    | none => exact reorders_refl s
    | some e =>
      simp only
      split
      · exact hinv.removeLocked_reorders hlookup
      · obtain ⟨hmem, hkey⟩ := (hinv.lookup_iff key e).mp hlookup
        refine ⟨e, hkey, ?_⟩
        subst key
        rw [LRUList.moveToFront_elements hinv.keysNodup hmem]
  | set key value ttl =>
    obtain ⟨base, hbase, hset⟩ := hinv.set_cases clock key value ttl
    simp only [Shard.step, hset]
    exact hbase.storeLocked_reorders value _
  | delete key =>
    simp only [Shard.step, Shard.delete]
    cases hlookup : s.items.lookup key with
    | none => exact reorders_refl s
    | some e => exact hinv.removeLocked_reorders hlookup
  | «exists» key =>
    simp only [Shard.step]
    rcases exists_cases s clock key with hsame | hremoved
    · rw [hsame]
      exact reorders_refl s
    · rw [hremoved]
      exact hinv.removeIfExpired_reorders _ key
  | ttl key =>
    simp only [Shard.step]
    rcases ttl_cases s clock key with hsame | hremoved
    · rw [hsame]
      exact reorders_refl s
    · rw [hremoved]
      exact hinv.removeIfExpired_reorders _ key
  | incr key delta defaultTTL =>
    rcases hinv.incr_cases codec clock key delta defaultTTL with
      ⟨err, hincr⟩ | ⟨base, current, _, hbase, hincr⟩
    · simp only [Shard.step, hincr]
      exact reorders_refl s
    · simp only [Shard.step, hincr]
      exact hbase.incrStore_reorders ..
  | deleteExpired => exact (hinv.deleteExpired_sweeps clock).sublist

/-! ## Whole runs -/

def touches (codec : Msgpack) (s : Shard)
    (calls : List (Readings × StoreOp)) : List (Option GoString) :=
  List.zipWith (fun call result => touched call.2 result.1) calls
    (run (step codec) s calls).1

theorem touches_append_singleton (codec : Msgpack) (s : Shard)
    (calls : List (Readings × StoreOp)) (call : Readings × StoreOp) :
    touches codec s (calls ++ [call]) =
      touches codec s calls ++
        [touched call.2
          (step codec (run (step codec) s calls).2 call).1.1] := by
  unfold touches
  rw [run_append_singleton_results,
    List.zipWith_append (by simp)]
  rfl

theorem OrderedByTouch.reorders {history : List (Option GoString)}
    {s after : Shard} {touch : Option GoString}
    (hordered : OrderedByTouch history s.lru.elements)
    (hreorders : Reorders s after touch) :
    OrderedByTouch (history ++ [touch]) after.lru.elements := by
  cases touch with
  | none =>
    exact (hordered.append_none).sublist hreorders
  | some key =>
    obtain ⟨e, rfl, hfront⟩ := hreorders
    exact (hordered.append_touch e).sublist hfront.sublist

theorem run_orderedByTouch (codec : Msgpack) (maxSize : ℤ)
    (onEvict onExpire : Bool) (calls : List (Readings × StoreOp)) :
    OrderedByTouch (touches codec (new maxSize onEvict onExpire) calls)
      (run (step codec) (new maxSize onEvict onExpire) calls).2.lru.elements := by
  induction calls using List.reverseRecOn with
  | nil => exact List.Pairwise.nil
  | append_singleton calls call ih =>
    obtain ⟨hinv, _⟩ := run_reachable codec maxSize onEvict onExpire calls
    rw [touches_append_singleton, run_append_singleton_state]
    exact OrderedByTouch.reorders ih (hinv.step_reorders codec call)

/-- Eviction is exact size-bounded LRU.  After every run, the list orders the
present keys by strictly decreasing last touch; and from every state so
reached, a Set or a successful Incr under a limit keeps exactly the longest
fitting prefix of its key followed by the other keys in recency order. -/
theorem run_evicts_least_recent (codec : Msgpack) (maxSize : ℤ)
    (onEvict onExpire : Bool) (calls : List (Readings × StoreOp)) :
    let s := (run (step codec) (new maxSize onEvict onExpire) calls).2
    OrderedByTouch (touches codec (new maxSize onEvict onExpire) calls)
        s.lru.elements ∧
      (0 < maxSize → ∀ clock key value ttl, ∃ kept evicted,
        KeepsLongestPrefix s key value (expiry (clock.now 0) ttl)
          (s.set clock key value ttl).1 (s.set clock key value ttl).2 kept
          evicted) ∧
      (0 < maxSize → ∀ clock key delta ttl n,
        (s.incr codec clock key delta ttl).1 = .ok n →
        ∃ value kept evicted, codec.marshal n = .ok value ∧
          KeepsLongestPrefix s key value
            (expiry (clock.now 2) (s.counterTTL clock key ttl))
            (s.incr codec clock key delta ttl).2.1
            (s.incr codec clock key delta ttl).2.2 kept evicted) := by
  intro s
  obtain ⟨hinv, hsettings⟩ :=
    run_reachable codec maxSize onEvict onExpire calls
  have hmaxSize : s.maxSize = maxSize := congrArg Prod.fst hsettings
  refine ⟨run_orderedByTouch codec maxSize onEvict onExpire calls, ?_, ?_⟩
  · intro hlimited clock key value ttl
    exact hinv.set_keepsLongestPrefix (hmaxSize.symm ▸ hlimited) clock key
      value ttl
  · intro hlimited clock key delta ttl n hok
    exact hinv.incr_keepsLongestPrefix (hmaxSize.symm ▸ hlimited) hok

end Shard

end CacheGrid
