import CacheGrid.PebbleCalls

/-!
# The records of the disk store: their number and their deadlines

The store counts its records when the database is opened and adjusts the
counter with every call.  The counter stays exact as long as Incr does not
find an expired counter, which it takes off twice in effect: once in the
counter, and never in the database.

A record carries its deadline as an `int64` number of nanoseconds.  The value
always comes back; the deadline does as long as the clock and the deadline
have wrapped equally often.
-/

namespace CacheGrid

open InterleavedPrograms SequentialRuns

namespace PebbleStore

/-! ## The number of records -/

def countKeys (db : AList fun _ : GoString => Bytes) : Int64 :=
  db.entries.foldl (fun count _ => count + 1) 0

/-- `NewPebbleStore` on a database that is there already. -/
def opened (db : AList fun _ : GoString => Bytes) (onExpire : Bool)
    (clock : ℤ) : PebbleStore where
  db := db
  locked := false
  count := countKeys db
  onExpire := onExpire
  fired := []
  clock := clock

def len (store : PebbleStore) : Int64 := store.count

theorem foldl_count (entries : List ((_ : GoString) × Bytes)) (n : ℕ) :
    entries.foldl (fun count _ => count + 1) (Int64.ofNat n) =
      Int64.ofNat (n + entries.length) := by
  induction entries generalizing n with
  | nil => rfl
  | cons entry rest ih =>
    have hnext : Int64.ofNat n + 1 = Int64.ofNat (n + 1) := by
      rw [Int64.ofNat_add]
      rfl
    rw [List.foldl_cons, hnext, ih, List.length_cons]
    congr 1
    omega

theorem countKeys_eq (db : AList fun _ : GoString => Bytes) :
    countKeys db = Int64.ofNat db.entries.length := by
  have hcount := foldl_count db.entries 0
  rwa [Nat.zero_add] at hcount

section Lengths

variable {db : AList fun _ : GoString => Bytes} {key : GoString}

theorem length_keys (db : AList fun _ : GoString => Bytes) :
    db.keys.length = db.entries.length := List.length_map ..

theorem mem_keys_of_lookup {raw : Bytes} (hraw : db.lookup key = some raw) :
    key ∈ db.keys :=
  AList.mem_keys.mp (AList.lookup_isSome.mp (by simp [hraw]))

theorem length_erase (hkey : key ∈ db.keys) :
    (db.erase key).entries.length + 1 = db.entries.length := by
  have hkeys : (db.erase key).keys.length = db.keys.length - 1 := by
    rw [AList.keys_erase]
    exact @List.length_erase_of_mem _ instBEqOfDecidableEq _ _ _ hkey
  have hpos := List.length_pos_of_mem hkey
  rw [← length_keys, ← length_keys]
  omega

theorem length_insert (raw : Bytes) :
    (db.insert key raw).entries.length =
      if (db.lookup key).isNone then db.entries.length + 1
      else db.entries.length := by
  rw [← length_keys, AList.keys_insert, List.length_cons]
  cases hraw : db.lookup key with
  | none =>
    have hnew : key ∉ db.keys := fun hmem =>
      AList.lookup_eq_none.mp hraw (AList.mem_keys.mpr hmem)
    rw [@List.erase_of_not_mem _ instBEqOfDecidableEq _ _ _ hnew,
      length_keys]
    rfl
  | some other =>
    have hmem := mem_keys_of_lookup hraw
    rw [← AList.keys_erase, length_keys, length_erase hmem]
    rfl

theorem length_foldl_erase {keys : List GoString} (hnodup : keys.Nodup)
    (hmem : ∀ key ∈ keys, key ∈ db.keys) :
    (keys.foldl (fun db key => db.erase key) db).entries.length +
      keys.length = db.entries.length := by
  induction keys generalizing db with
  | nil => rfl
  | cons key rest ih =>
    have hrest : ∀ other ∈ rest, other ∈ (db.erase key).keys := by
      intro other hother
      have hne : other ≠ key := by
        rintro rfl
        exact (List.nodup_cons.mp hnodup).1 hother
      rw [← AList.mem_keys, AList.mem_erase]
      exact ⟨hne, AList.mem_keys.mpr
        (hmem other (List.mem_cons_of_mem _ hother))⟩
    have hlength := ih (List.nodup_cons.mp hnodup).2 hrest
    have herase := length_erase (hmem key List.mem_cons_self)
    rw [List.foldl_cons, List.length_cons]
    omega

end Lengths

theorem expiredEntries_sublist (now : Int64) (store : PebbleStore) :
    ((expiredEntries now store.snapshot).map Prod.fst).Sublist
      store.db.keys := by
  have hkeys : store.snapshot.map Prod.fst = store.db.keys := by
    simp [snapshot, AList.keys, List.keys]
  rw [← hkeys, expiredEntries_eq, List.map_map]
  exact List.filter_sublist.map Prod.fst

def CountsRecords (store : PebbleStore) : Prop :=
  store.count = Int64.ofNat store.db.entries.length

theorem countsRecords_opened (db : AList fun _ : GoString => Bytes)
    (onExpire : Bool) (clock : ℤ) : (opened db onExpire clock).CountsRecords :=
  countKeys_eq db

theorem CountsRecords.sub {store : PebbleStore} (hcounts : store.CountsRecords)
    {m removed : ℕ} (hlength : m + removed = store.db.entries.length) :
    store.count + Int64.ofInt (-removed) = Int64.ofNat m := by
  rw [hcounts, ← hlength, Int64.ofNat_add, Int64.add_assoc, Int64.ofInt_neg]
  exact (congrArg (Int64.ofNat m + ·) (Int64.add_right_neg _)).trans
    (Int64.add_zero _)

theorem CountsRecords.sub_one {store : PebbleStore}
    (hcounts : store.CountsRecords) {key : GoString} {raw : Bytes}
    (hraw : store.db.lookup key = some raw) :
    store.count + (-1) =
      Int64.ofNat (store.db.erase key).entries.length := by
  have hone : (-1 : Int64) = Int64.ofInt (-((1 : ℕ) : ℤ)) := by decide
  rw [hone]
  exact hcounts.sub (length_erase (mem_keys_of_lookup hraw))

theorem CountsRecords.insert {store : PebbleStore}
    (hcounts : store.CountsRecords) (key : GoString) (raw : Bytes) :
    (if (store.db.lookup key).isNone then store.count + 1 else store.count) =
      Int64.ofNat (store.db.insert key raw).entries.length := by
  rw [hcounts, length_insert]
  split
  · rw [Int64.ofNat_add]
    rfl
  · rfl

/-- Incr does not find an expired record under its key. -/
def FindsCounterLive (store : PebbleStore) (call : Readings × StoreOp) :
    Prop :=
  match call.2 with
  | .incr key _ _ => ∀ raw ∈ store.db.lookup key,
      expiredRaw (unixNano (call.1.now 0)) raw = false
  | _ => True

instance decidableFindsCounterLive (store : PebbleStore)
    (call : Readings × StoreOp) : Decidable (store.FindsCounterLive call) :=
  match call with
  | (clock, .incr key _ _) => inferInstanceAs (Decidable
      (∀ raw ∈ store.db.lookup key,
        expiredRaw (unixNano (clock.now 0)) raw = false))
  | (_, .get _) | (_, .set _ _ _) | (_, .delete _) | (_, .exists _)
  | (_, .ttl _) | (_, .deleteExpired) => isTrue trivial

theorem CountsRecords.impl_call {store : PebbleStore}
    (hcounts : store.CountsRecords) (codec : Msgpack) {call : Readings × StoreOp}
    (hlive : store.FindsCounterLive call) :
    ((impl codec).call store call).2.CountsRecords := by
  obtain ⟨clock, op⟩ := call
  rcases impl_call_effect codec store clock op with ⟨hsame, _⟩ | ⟨heffect, _⟩
  · rwa [hsame]
  unfold CountsRecords
  generalize ((impl codec).call store (clock, op)).2 = after at heffect
  cases heffect with
  | kept hkey hafter =>
    rw [hafter.count_eq, hafter.db_eq]
    exact hcounts
  | dropped hkey hread hraw hlapsed hafter =>
    rw [hafter.count_eq, hafter.db_eq]
    exact hcounts.sub_one hraw
  | deleted hraw hafter =>
    rw [hafter.count_eq, hafter.db_eq]
    exact hcounts.sub_one hraw
  | written hkey hread hafter =>
    rw [hafter.count_eq, hafter.db_eq]
    exact hcounts.insert _ _
  | miscounted hraw hexpired hcount hfired hdb =>
    rw [hlive _ hraw] at hexpired
    contradiction
  | swept hafter =>
    have hsublist := expiredEntries_sublist (unixNano (clock.now 0)) store
    have hlength := length_foldl_erase
      (hsublist.nodup store.db.nodupKeys) (fun _ h => hsublist.subset h)
    rw [List.length_map] at hlength
    rw [hafter.count_eq, hafter.db_eq]
    exact hcounts.sub hlength

/-- Starting from any database, after every run of calls in which Incr finds
no expired record, Len is the number of records. -/
theorem len_eq_length (codec : Msgpack)
    (db : AList fun _ : GoString => Bytes) (onExpire : Bool) (clock : ℤ)
    {calls : List (Readings × StoreOp)}
    (hmeets : Meets (impl codec).call FindsCounterLive
      (opened db onExpire clock) calls) :
    let store := (run (impl codec).call (opened db onExpire clock) calls).2
    store.len = Int64.ofNat store.db.entries.length :=
  run_invariant_of_meets CountsRecords
    (fun _ _ hcounts hlive => hcounts.impl_call codec hlive)
    (countsRecords_opened db onExpire clock) hmeets

/-- A counter that lives one nanosecond is set, and found and incremented at
its deadline. -/
theorem len_eq_length_two_calls :
    let calls := [(Readings.instant 0, StoreOp.set [107] [1] 1),
      (Readings.instant 1, StoreOp.incr [107] 1 0)]
    let store := (run (impl .int64).call (opened ∅ true 0) calls).2
    Meets (impl .int64).call FindsCounterLive (opened ∅ true 0) calls ∧
      store.len = Int64.ofNat store.db.entries.length := by
  have hmeets : Meets (impl .int64).call FindsCounterLive (opened ∅ true 0)
      [(Readings.instant 0, StoreOp.set [107] [1] 1),
        (Readings.instant 1, StoreOp.incr [107] 1 0)] := by decide +kernel
  exact ⟨hmeets, len_eq_length .int64 ∅ true 0 hmeets⟩

/-- An expired counter that is incremented stays in the database, with a new
value, and is no longer counted. -/
theorem len_misses_expired_counter :
    let store := (run (impl .int64).call (opened ∅ true 0)
      [(Readings.instant 0, StoreOp.set [107] [1] 1),
        (Readings.instant 5, StoreOp.incr [107] 1 0)]).2
    store.len = 0 ∧ store.db.entries.length = 1 := by
  decide +kernel

/-! ## The deadline of a record -/

/-- How often `UnixNano` has wrapped at a time. -/
def era (t : ℤ) : ℤ := (t + 2 ^ 63) / 2 ^ 64

theorem toInt_unixNano_era (t : ℤ) :
    (unixNano t).toInt = t - 2 ^ 64 * era t := by
  have hsize : ((Int64.size : ℕ) : ℤ) = 2 ^ 64 := rfl
  unfold unixNano era
  rw [Int64.toInt_ofInt, Int.bmod_def, hsize]
  split <;> omega

theorem encode_solo {value : Bytes} {ttl : Duration} {now : ℤ}
    {store : PebbleStore} (hclock : store.clock ≤ now) :
    ∃ after : PebbleStore, after.clock ≤ now ∧
      (encode value ttl).solo machine now store =
        some (encodedAt value ttl now, after) := by
  unfold encode encodedAt
  split
  · rw [Prog.solo_perform_bind (exec_now hclock)]
    exact ⟨{ store with clock := now }, le_rfl, rfl⟩
  · exact ⟨store, hclock, rfl⟩

theorem isExpired_solo {expiresAtNano : Int64} {now : ℤ}
    {store : PebbleStore} (hclock : store.clock ≤ now) :
    ∃ after : PebbleStore,
      (isExpired expiresAtNano).solo machine now store =
        some (decide (expiresAtNano ≠ 0 ∧ expiresAtNano < unixNano now),
          after) := by
  unfold isExpired
  split
  · rename_i hdeadline
    rw [Prog.solo_perform_bind (exec_now hclock)]
    exact ⟨{ store with clock := now }, by simp [hdeadline, Prog.solo]⟩
  · rename_i hnone
    exact ⟨store, by simp [hnone, Prog.solo]⟩

theorem expiry_encodedAt (value : Bytes) {ttl : Duration} {s t : ℤ}
    (hs : InRange s) (hpos : 0 < ttl) :
    ((decode (encodedAt value ttl s)).2 ≠ 0 ∧
        (decode (encodedAt value ttl s)).2 < unixNano t) ↔
      unixNano (addDuration s ttl) < unixNano t := by
  have hpositive := (Duration.pos_iff ttl).mp hpos
  have hmax := Int64.toInt_lt ttl
  have hdeadline := toInt_unixNano_era (addDuration s ttl)
  have hne : unixNano (addDuration s ttl) ≠ 0 := by
    intro hzero
    rw [hzero, Int64.toInt_zero] at hdeadline
    unfold era addDuration at hdeadline
    unfold InRange at hs
    omega
  simp only [encodedAt, hpos, if_true, decode_pack, ne_eq, hne,
    not_false_eq_true, true_and]

/-- A record gives back its value.  Read at a later time, its deadline
decides as the exact one does, if and only if the value does not expire, or
the deadline and the clock have wrapped equally often, or the clock has
wrapped more often and has passed the wrapped deadline again. -/
theorem record_expires_iff {value : Bytes} {ttl : Duration} {s t : ℤ}
    {store : PebbleStore} (hs : InRange s) (hclock : store.clock ≤ s)
    (hlater : s ≤ t) :
    ∃ raw after expired final,
      (encode value ttl).solo machine s store = some (raw, after) ∧
      (decode raw).1 = value ∧
      (isExpired (decode raw).2).solo machine t after =
        some (expired, final) ∧
      ((expired = true ↔ 0 < ttl.toInt ∧ s + ttl.toInt < t) ↔
        ttl.toInt ≤ 0 ∨ era (s + ttl.toInt) = era t ∨
          era (s + ttl.toInt) < era t ∧
            unixNano (s + ttl.toInt) < unixNano t) := by
  obtain ⟨after, hafter, hencode⟩ := @encode_solo value ttl s store hclock
  obtain ⟨final, hexpired⟩ := @isExpired_solo
    (decode (encodedAt value ttl s)).2 t after (hafter.trans hlater)
  refine ⟨_, after, _, final, hencode, by simp [encodedAt], hexpired, ?_⟩
  rw [decide_eq_true_iff]
  by_cases hpos : 0 < ttl
  · have hpositive := (Duration.pos_iff ttl).mp hpos
    have hmax := Int64.toInt_lt ttl
    rw [expiry_encodedAt value hs hpos, addDuration, Int64.lt_iff_toInt_lt,
      toInt_unixNano_era, toInt_unixNano_era]
    unfold era
    unfold InRange at hs
    omega
  · have hnonpos : ttl.toInt ≤ 0 := by
      rwa [Duration.pos_iff, not_lt] at hpos
    have hnone : (decode (encodedAt value ttl s)).2 = 0 := by
      simp [encodedAt, hpos]
    simp [hnone, hnonpos]

/-- A value with a second to live, a second and a nanosecond later. -/
theorem record_expires_iff_one_second :
    ∃ raw after expired final,
      (encode [1] 1000000000).solo machine 0 (opened ∅ true 0) =
        some (raw, after) ∧
      (decode raw).1 = [1] ∧
      (isExpired (decode raw).2).solo machine 1000000001 after =
        some (expired, final) ∧
      ((expired = true ↔ 0 < (1000000000 : Duration).toInt ∧
          0 + (1000000000 : Duration).toInt < 1000000001) ↔
        (1000000000 : Duration).toInt ≤ 0 ∨
          era (0 + (1000000000 : Duration).toInt) = era 1000000001 ∨
          era (0 + (1000000000 : Duration).toInt) < era 1000000001 ∧
            unixNano (0 + (1000000000 : Duration).toInt) <
              unixNano 1000000001) :=
  record_expires_iff ⟨le_rfl, by decide⟩ (by decide) (by decide)

/-- In November 2025, a value that is to live as long as a duration can say
is expired when it is written. -/
theorem record_expires_at_once :
    let s : ℤ := 1763164800000000000
    let ttl : Duration := Int64.maxValue
    s < s + ttl.toInt ∧ ∃ raw after final,
      (encode [1] ttl).solo machine s (opened ∅ true 0) =
        some (raw, after) ∧
      (isExpired (decode raw).2).solo machine s after =
        some (true, final) := by
  intro s ttl
  have hlater : s < s + ttl.toInt := by decide
  obtain ⟨after, hafter, hencode⟩ :=
    @encode_solo [1] ttl s (opened ∅ true 0) (by decide)
  obtain ⟨final, hexpired⟩ :=
    @isExpired_solo (decode (encodedAt [1] ttl s)).2 s after hafter
  have hpast : decide ((decode (encodedAt [1] ttl s)).2 ≠ 0 ∧
      (decode (encodedAt [1] ttl s)).2 < unixNano s) = true := by
    decide +kernel
  rw [hpast] at hexpired
  exact ⟨hlater, _, after, final, hencode, hexpired⟩

end PebbleStore

end CacheGrid
