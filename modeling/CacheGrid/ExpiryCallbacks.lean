import CacheGrid.MemoryBudget
import CacheGrid.PebbleDeadlines

/-!
# Which expirations a store reports

An entry leaves a store because its deadline has passed when the sweep removes
it, when Get, Exists or TTL find it expired and remove it, and when Incr finds
it expired and starts a new counter in its place.  Only the sweep calls the
expire callback.  So every expiration is reported exactly once in a run in
which these four calls never look at an entry that is past its deadline.

For the disk store this is said of the deadlines that the calls have computed,
and a sweep there has to find them in the order in which they are.
-/

namespace CacheGrid

open InterleavedPrograms SequentialRuns TimedMap

def Callback.expiration? : Callback → Option (GoString × Bytes)
  | .expire key value => some (key, value)
  | .evict _ _ => none

/-- The key and the value of every expire callback. -/
def expirations (callbacks : List Callback) : List (GoString × Bytes) :=
  callbacks.filterMap Callback.expiration?

theorem expirations_map {α : Type} (entries : List α)
    (reported : α → GoString × Bytes) :
    expirations (entries.map fun e => .expire (reported e).1 (reported e).2) =
      entries.map reported := by
  rw [expirations, List.filterMap_map]
  exact congrFun List.filterMap_eq_map entries

/-- The call finds an entry under `key` with this deadline to be past it.
Get, Exists, TTL and Incr decide at their first reading; TTL already counts
the deadline itself.  Set and Delete do not look at deadlines. -/
def FindsExpired (clock : Readings) (key : GoString) (deadline : ℤ) :
    StoreOp → Prop
  | .get other => other = key ∧ deadline < clock.now 0
  | .exists other => other = key ∧ deadline < clock.now 0
  | .incr other _ _ => other = key ∧ deadline < clock.now 0
  | .ttl other => other = key ∧ deadline ≤ clock.now 0
  | .deleteExpired => ∃ i, deadline < clock.now i
  | .set _ _ _ => False
  | .delete _ => False

/-- The entry `r` under `key` leaves the store in this call because its
deadline has passed. -/
structure LeavesExpired (before after : Contents GoString Bytes)
    (call : Readings × StoreOp) (key : GoString) (r : Record Bytes) :
    Prop where
  stored : before key = some r
  gone : after key ≠ some r
  expired : ∃ deadline ∈ r.deadline, FindsExpired call.1 key deadline call.2

/-- The expire callback is called once for each entry that leaves because its
deadline has passed, with the key and the value of the entry, and for no
other. -/
structure ReportsOnce (before after : Contents GoString Bytes)
    (call : Readings × StoreOp) (callbacks : List Callback) : Prop where
  nodup : ((expirations callbacks).map Prod.fst).Nodup
  mem_iff : ∀ key value, (key, value) ∈ expirations callbacks ↔
    ∃ r, LeavesExpired before after call key r ∧ r.value = value

/-- A call on a key does not find its entry past the deadline. -/
def LooksAtLive (contents : Contents GoString Bytes)
    (call : Readings × StoreOp) : Prop :=
  ∀ key r deadline, call.2.key? = some key → contents key = some r →
    deadline ∈ r.deadline → ¬ FindsExpired call.1 key deadline call.2

theorem FindsExpired.key {clock : Readings} {key other : GoString}
    {deadline : ℤ} {op : StoreOp} (hfinds : FindsExpired clock key deadline op)
    (hkey : op.key? = some other) : other = key := by
  cases op with
  | deleteExpired => contradiction
  | set k value ttl => exact hfinds.elim
  | delete k => exact hfinds.elim
  | _ => exact (Option.some.inj hkey).symm.trans hfinds.1

variable {key : GoString} {call : Readings × StoreOp}

theorem LooksAtLive.reportsOnce {before after : Contents GoString Bytes}
    {callbacks : List Callback} (hlive : LooksAtLive before call)
    (hkey : call.2.key? = some key) (hnone : expirations callbacks = []) :
    ReportsOnce before after call callbacks where
  nodup := by simp [hnone]
  mem_iff := by
    intro other value
    rw [hnone]
    refine iff_of_false List.not_mem_nil ?_
    rintro ⟨r, hleaves, _⟩
    obtain ⟨deadline, hdeadline, hfinds⟩ := hleaves.expired
    obtain rfl := hfinds.key hkey
    exact hlive key r deadline hkey hleaves.stored hdeadline hfinds

/-- The callbacks of a sweep at the readings `now` report once, if they are
those of the swept entries and every swept entry is gone afterwards. -/
theorem reportsOnce_sweep {before after : Contents GoString Bytes}
    {clock : Readings} {callbacks : List Callback} (now : GoString → ℤ)
    (hreading : ∀ key, ∃ i, now key ≤ clock.now i)
    (hnodup : ((expirations callbacks).map Prod.fst).Nodup)
    (hmem : ∀ key value, (key, value) ∈ expirations callbacks ↔
      ∃ r, before key = some r ∧ r.dead (now key) = true ∧ r.value = value)
    (hafter : ∀ key, after key =
      (before key).filter fun r => !r.dead (now key)) :
    ReportsOnce before after (clock, .deleteExpired) callbacks where
  nodup := hnodup
  mem_iff := by
    intro key value
    rw [hmem]
    constructor
    · rintro ⟨r, hstored, hdead, hvalue⟩
      refine ⟨r, ⟨hstored, ?_, ?_⟩, hvalue⟩
      · rw [hafter, hstored]
        simp [hdead]
      · obtain ⟨i, hi⟩ := hreading key
        obtain ⟨deadline, hdeadline, hlt⟩ := Record.dead_iff.mp hdead
        exact ⟨deadline, hdeadline, i, hlt.trans_le hi⟩
    · rintro ⟨r, hleaves, hvalue⟩
      refine ⟨r, hleaves.stored, ?_, hvalue⟩
      by_contra hlive
      apply hleaves.gone
      rw [hafter, hleaves.stored]
      simpa using hlive

/-! ## The memory store -/

namespace Shard

theorem expirations_evictLoop (rounds : ℕ) (s : Shard) :
    expirations (evictLoop rounds s).1 = [] := by
  induction rounds generalizing s with
  | zero => rfl
  | succ rounds ih =>
    rw [evictLoop]
    split
    · split
      · exact ih _
      · simp only
        split
        · rw [expirations, List.filterMap_cons_none rfl]
          exact ih _
        · exact ih _
    · rfl

theorem expirations_storeLocked (s : Shard) (key : GoString) (value : Bytes)
    (expiresAt : Option ℤ) :
    expirations (s.storeLocked key value expiresAt).1 = [] := by
  unfold storeLocked evictLocked
  split
  · rfl
  · exact expirations_evictLoop _ _

theorem expirations_incrStore (s : Shard) (codec : Msgpack) (now : ℤ)
    (key : GoString) (current delta : Int64) (ttl : Duration) :
    expirations (s.incrStore codec now key current delta ttl).2.1 = [] := by
  unfold incrStore
  split
  · rfl
  · exact expirations_storeLocked _ _ _ _

theorem expirations_step_of_key {codec : Msgpack} {s : Shard}
    (hkey : call.2.key? = some key) :
    expirations (step codec s call).1.2 = [] := by
  obtain ⟨clock, op⟩ := call
  cases op with
  | set k value ttl =>
    simp only [step, Shard.set, Shard.setLocked]
    split <;> exact expirations_storeLocked _ _ _ _
  | incr k delta ttl =>
    simp only [step, Shard.incr]
    split
    · exact expirations_incrStore _ _ _ _ _ _ _
    · split
      · exact expirations_incrStore _ _ _ _ _ _ _
      · split
        · rfl
        · exact expirations_incrStore _ _ _ _ _ _ _
  | deleteExpired => contradiction
  | _ => rfl

section Sweep

variable {s : Shard} (hinv : s.Invariant) (honExpire : s.onExpire = true)
  (clock : Readings)

include hinv honExpire

theorem expirations_deleteExpired :
    expirations (s.deleteExpired clock).2.1 =
      (s.items.entries.filter fun p => p.2.isExpired (clock.now 0)).map
        fun p => (p.1, p.2.value) := by
  rw [(hinv.deleteExpired_sweeps clock).callbacks_eq, if_pos honExpire]
  exact expirations_map _
    fun p : (_ : GoString) × Entry => (p.1, p.2.value)

theorem mem_expirations_deleteExpired {key : GoString} {value : Bytes} :
    (key, value) ∈ expirations (s.deleteExpired clock).2.1 ↔
      ∃ r, s.contents key = some r ∧ r.dead (clock.now 0) = true ∧
        r.value = value := by
  rw [expirations_deleteExpired hinv honExpire clock]
  constructor
  · intro hmem
    obtain ⟨⟨k, e⟩, hentry, heq⟩ := List.mem_map.mp hmem
    obtain ⟨rfl, rfl⟩ := Prod.mk.inj heq
    obtain ⟨hstored, hexpired⟩ := List.mem_filter.mp hentry
    exact ⟨e.record, contents_of_some (AList.mem_lookup_iff.mpr hstored),
      hexpired, rfl⟩
  · rintro ⟨r, hstored, hdead, rfl⟩
    obtain ⟨e, hlookup, rfl⟩ := Option.map_eq_some_iff.mp hstored
    refine List.mem_map.mpr ⟨⟨key, e⟩, List.mem_filter.mpr ⟨?_, hdead⟩, rfl⟩
    exact AList.mem_lookup_iff.mp hlookup

theorem nodup_expirations_deleteExpired :
    ((expirations (s.deleteExpired clock).2.1).map Prod.fst).Nodup := by
  rw [expirations_deleteExpired hinv honExpire clock, List.map_map]
  exact List.Nodup.sublist (List.filter_sublist.map Sigma.fst)
    s.items.nodupKeys

end Sweep

end Shard

namespace MemoryStore

/-- Every shard has the expire callback and holds only the keys routed to
it. -/
structure Reporting (m : MemoryStore) : Prop where
  shard : ∀ s ∈ m.shards, s.Invariant ∧ s.onExpire = true
  routed : ∀ i s, m.shards[i]? = some s →
    ∀ key, s.contents key ≠ none → m.shardIndex key = i

theorem reporting_new (numShards : ℕ) (hpos : 0 < numShards) (limit : ℤ)
    (onEvict : Bool) :
    (new numShards hpos limit onEvict true).Reporting where
  shard s hs := by
    rw [List.eq_of_mem_replicate hs]
    exact ⟨Shard.invariant_new limit onEvict true, rfl⟩
  routed i s hget key hsome := by
    rw [List.eq_of_mem_replicate (List.mem_of_getElem? hget)] at hsome
    exact absurd rfl hsome

theorem Reporting.routed_step {m : MemoryStore} (hreporting : m.Reporting)
    (codec : Msgpack) (call : Readings × StoreOp) {i : ℕ} {t : Shard}
    (hget : (m.step codec call).2.shards[i]? = some t)
    (hsome : t.contents key ≠ none) : m.shardIndex key = i := by
  obtain ⟨clock, op⟩ := call
  cases hkey : op.key? with
  | some k =>
    rw [step_of_key codec m hkey, onShard, setShard_getElem?] at hget
    split at hget
    · rename_i hindex
      obtain rfl := Option.some.inj hget
      by_cases hother : key = k
      · rw [hother, hindex]
      · have hannounces := (((hreporting.shard _
          (m.getShard_mem k)).1.step_announcesCell codec clock
            hkey).announces key)
        rw [Function.update_of_ne hother] at hannounces
        rw [← hindex]
        refine hreporting.routed _ _ (m.getElem?_shardIndex k) key ?_
        rw [← hannounces.resolve_right fun h => hsome h.1]
        exact hsome
    · exact hreporting.routed i t hget key hsome
  | none =>
    cases op with
    | deleteExpired =>
      have hswept := deleteExpired_getElem? m clock i
      rw [show (m.step codec (clock, .deleteExpired)).2.shards[i]? =
        (m.deleteExpired clock).2.2.shards[i]? from rfl, hswept,
        Option.map_eq_some_iff] at hget
      obtain ⟨s, hs, rfl⟩ := hget
      refine hreporting.routed i s hs key ?_
      intro hnone
      apply hsome
      have hinv := (hreporting.shard s (List.mem_of_getElem? hs)).1
      simp [(hinv.deleteExpired_ledger (clock.skip i)).1, hnone]
    | _ => simp [StoreOp.key?] at hkey

theorem step_shardIndex (codec : Msgpack) (m : MemoryStore)
    (call : Readings × StoreOp) (key : GoString) :
    (m.step codec call).2.shardIndex key = m.shardIndex key := by
  obtain ⟨clock, op⟩ := call
  cases op <;> rfl

theorem Reporting.step {m : MemoryStore} (hreporting : m.Reporting)
    (codec : Msgpack) (call : Readings × StoreOp) :
    (m.step codec call).2.Reporting where
  shard := by
    refine step_forall_shards ?_ hreporting.shard call
    intro s call hs
    have hsettings := Shard.step_settings codec s call
    simp only [Shard.settings, Prod.mk.injEq] at hsettings
    exact ⟨hs.1.step codec call, hsettings.2.2.trans hs.2⟩
  routed i t hget key hsome := by
    rw [step_shardIndex]
    exact hreporting.routed_step codec call hget hsome

section SweepShards

variable {clock : Readings} {shards : List Shard}
  (hshard : ∀ s ∈ shards, s.Invariant ∧ s.onExpire = true)

include hshard

theorem mem_expirations_sweepShards (first : ℕ) {value : Bytes} :
    (key, value) ∈ expirations (sweepShards clock first shards).2.1 ↔
      ∃ (i : ℕ) (s : Shard) (r : Record Bytes), shards[i]? = some s ∧
        s.contents key = some r ∧ r.dead (clock.now (first + i)) = true ∧
        r.value = value := by
  induction shards generalizing first with
  | nil => simp [sweepShards, expirations]
  | cons head rest ih =>
    obtain ⟨hinv, honExpire⟩ := hshard head List.mem_cons_self
    have hhead := @Shard.mem_expirations_deleteExpired head hinv honExpire
      (clock.skip first) key value
    have hrest := ih (fun s hs => hshard s (List.mem_cons_of_mem _ hs))
      (first + 1)
    rw [sweepShards, expirations, List.filterMap_append, List.mem_append]
    constructor
    · rintro (hmem | hmem)
      · obtain ⟨r, hr⟩ := hhead.mp hmem
        exact ⟨0, head, r, rfl, hr⟩
      · obtain ⟨i, s, r, hget, hstored, hdead, hvalue⟩ := hrest.mp hmem
        refine ⟨i + 1, s, r, hget, hstored, ?_, hvalue⟩
        rwa [show first + (i + 1) = first + 1 + i by omega]
    · rintro ⟨i, s, r, hget, hstored, hdead, hvalue⟩
      cases i with
      | zero =>
        obtain rfl : head = s := by simpa using hget
        exact Or.inl (hhead.mpr ⟨r, hstored, hdead, hvalue⟩)
      | succ i =>
        refine Or.inr (hrest.mpr ⟨i, s, r, by simpa using hget, hstored,
          ?_, hvalue⟩)
        rwa [show first + 1 + i = first + (i + 1) by omega]

/-- A key is reported by one shard only, the one that `index` names. -/
theorem nodup_expirations_sweepShards (first : ℕ) (index : GoString → ℕ)
    (hindex : ∀ (i : ℕ) (s : Shard), shards[i]? = some s →
      ∀ key, s.contents key ≠ none → index key = first + i) :
    ((expirations (sweepShards clock first shards).2.1).map
      Prod.fst).Nodup := by
  induction shards generalizing first with
  | nil => simp [sweepShards, expirations]
  | cons head rest ih =>
    obtain ⟨hinv, honExpire⟩ := hshard head List.mem_cons_self
    have hshard' : ∀ s ∈ rest, s.Invariant ∧ s.onExpire = true :=
      fun s hs => hshard s (List.mem_cons_of_mem _ hs)
    have hrest := ih hshard' (first + 1) (by
      intro i s hget key hsome
      have := hindex (i + 1) s (by simpa using hget) key hsome
      omega)
    rw [sweepShards, expirations, List.filterMap_append, List.map_append]
    refine (Shard.nodup_expirations_deleteExpired hinv honExpire
      (clock.skip first)).append hrest ?_
    intro key hhead htail
    obtain ⟨⟨k, value⟩, hmem, rfl⟩ := List.mem_map.mp hhead
    obtain ⟨⟨k', value'⟩, hmem', hk'⟩ := List.mem_map.mp htail
    obtain rfl : k' = k := hk'
    obtain ⟨r, hstored, _⟩ := (Shard.mem_expirations_deleteExpired hinv
      honExpire (clock.skip first)).mp hmem
    obtain ⟨i, s, r', hget, hstored', _⟩ :=
      (mem_expirations_sweepShards hshard' (first + 1)).mp hmem'
    have hfirst := hindex 0 head rfl k' (by simp [hstored])
    have hlater := hindex (i + 1) s (by simpa using hget) k'
      (by simp [hstored'])
    omega

end SweepShards

theorem Reporting.reportsOnce {m : MemoryStore} (hreporting : m.Reporting)
    (codec : Msgpack) (hlive : LooksAtLive m.contents call) :
    ReportsOnce m.contents ((impl codec).call m call).2.contents call
      ((impl codec).call m call).1.2 := by
  obtain ⟨clock, op⟩ := call
  cases hkey : op.key? with
  | some key =>
    refine hlive.reportsOnce hkey ?_
    rw [impl_call_of_key codec m clock hkey]
    exact Shard.expirations_step_of_key hkey
  | none =>
    cases op with
    | deleteExpired =>
      have hcontents := contents_deleteExpired
        (fun s hs => (hreporting.shard s hs).1) clock
      refine reportsOnce_sweep (fun key => clock.now (m.shardIndex key))
        (fun key => ⟨_, le_rfl⟩) ?_ ?_
        (fun key => congrFun hcontents key)
      · refine nodup_expirations_sweepShards hreporting.shard 0
          m.shardIndex ?_
        intro i s hget key hsome
        rw [Nat.zero_add]
        exact hreporting.routed i s hget key hsome
      · intro key value
        refine (mem_expirations_sweepShards hreporting.shard 0).trans ?_
        constructor
        · rintro ⟨i, s, r, hget, hstored, hdead, hvalue⟩
          have hi := hreporting.routed i s hget key (by simp [hstored])
          rw [Nat.zero_add, ← hi] at hdead
          obtain rfl := getShard_eq_of_getElem? (hi ▸ hget)
          exact ⟨r, hstored, hdead, hvalue⟩
        · rintro ⟨r, hstored, hdead, hvalue⟩
          refine ⟨m.shardIndex key, m.getShard key, r,
            m.getElem?_shardIndex key, hstored, ?_, hvalue⟩
          rwa [Nat.zero_add]
    | _ => simp [StoreOp.key?] at hkey

end MemoryStore

/-! ## The disk store -/

namespace PebbleStore

theorem expirations_sweep (now : Int64) (store : PebbleStore) :
    expirations ((expiredEntries now store.snapshot).map
        fun entry => .expire entry.1 entry.2) =
      expiredEntries now store.snapshot := by
  have hreported := expirations_map (expiredEntries now store.snapshot) id
  rwa [List.map_id] at hreported

theorem mem_expiredEntries_raw {now : Int64} {store : PebbleStore}
    {value : Bytes} :
    (key, value) ∈ expiredEntries now store.snapshot ↔
      ∃ raw, store.db.lookup key = some raw ∧ expiredRaw now raw = true ∧
        (decode raw).1 = value := by
  rw [expiredEntries_eq]
  constructor
  · intro hmem
    obtain ⟨⟨k, raw⟩, hentry, heq⟩ := List.mem_map.mp hmem
    obtain ⟨rfl, rfl⟩ := Prod.mk.inj heq
    obtain ⟨hstored, hexpired⟩ := List.mem_filter.mp hentry
    exact ⟨raw, mem_snapshot.mp hstored, hexpired, rfl⟩
  · rintro ⟨raw, hraw, hexpired, rfl⟩
    exact List.mem_map.mpr ⟨(key, raw), List.mem_filter.mpr
      ⟨mem_snapshot.mpr hraw, hexpired⟩, rfl⟩

theorem lookup_commit_expired (now : Int64) (store : PebbleStore)
    (key : GoString) :
    (((expiredEntries now store.snapshot).map Prod.fst).foldl
        (fun db key => db.erase key) store.db).lookup key =
      (store.db.lookup key).filter fun raw => !expiredRaw now raw := by
  have hmem := @mem_expiredEntries now store.snapshot key
  simp only [commit_lookup, hmem, mem_snapshot]
  cases hraw : store.db.lookup key with
  | none => simp
  | some raw =>
    cases hexpired : expiredRaw now raw with
    | true => simp [hexpired, Option.filter]
    | false => simp [hexpired, Option.filter]

/-- The records of the store, with the deadlines that are kept beside it. -/
def exactContents (state : PebbleStore × (GoString → Option ℤ)) :
    Contents GoString Bytes :=
  fun key => (state.1.db.lookup key).map fun raw =>
    ⟨(decode raw).1, state.2 key⟩

/-- As in memory, at the exact deadlines; and a sweep compares them with the
clock as they are. -/
structure LooksAtLiveExactly (state : PebbleStore × (GoString → Option ℤ))
    (call : Readings × StoreOp) : Prop where
  live : LooksAtLive (exactContents state) call
  alike : call.2 = .deleteExpired →
    ∀ key r deadline, exactContents state key = some r →
      deadline ∈ r.deadline → ComparesAlike deadline (call.1.now 0)

theorem Dated.expiredRaw_eq_dead {store : PebbleStore}
    {due : GoString → Option ℤ} (hdated : store.Dated due) {raw : Bytes}
    (hraw : store.db.lookup key = some raw) {now : ℤ}
    (halike : ∀ key r deadline, exactContents (store, due) key = some r →
      deadline ∈ r.deadline → ComparesAlike deadline now) :
    expiredRaw (unixNano now) raw =
      (⟨(decode raw).1, due key⟩ : Record Bytes).dead now := by
  have hexact : exactContents (store, due) key =
      some ⟨(decode raw).1, due key⟩ := by
    simp [exactContents, hraw]
  exact (hdated.expiredRaw_eq_past_iff hraw now).mpr fun deadline hdue =>
    halike key _ deadline hexact hdue

theorem Effect.fired_of_key {codec : Msgpack} {choices : ℕ → ℤ}
    {store after : PebbleStore} {op : StoreOp} {key : GoString}
    (heffect : Effect codec choices store op after)
    (hkey : op.key? = some key) : after.fired = store.fired := by
  cases heffect with
  | kept _ hafter => exact hafter.fired_eq
  | dropped _ _ _ _ hafter => exact hafter.fired_eq
  | deleted _ hafter => exact hafter.fired_eq
  | written _ _ hafter => exact hafter.fired_eq
  | miscounted _ _ _ hfired _ => exact hfired
  | swept hafter => contradiction

/-- What the sweep takes out are the entries past their exact deadlines. -/
theorem Dated.reportsOnce_swept {store after : PebbleStore}
    {due : GoString → Option ℤ} (hdated : store.Dated due)
    {clock : Readings}
    (halike : ∀ key r deadline, exactContents (store, due) key = some r →
      deadline ∈ r.deadline → ComparesAlike deadline (clock.now 0))
    (hdb : after.db = ((expiredEntries (unixNano (clock.now 0))
      store.snapshot).map Prod.fst).foldl (fun db key => db.erase key)
        store.db) :
    ReportsOnce (exactContents (store, due)) (exactContents (after, due))
      (clock, .deleteExpired)
      ((expiredEntries (unixNano (clock.now 0)) store.snapshot).map
        fun entry => .expire entry.1 entry.2) := by
  refine reportsOnce_sweep (fun _ => clock.now 0) (fun _ => ⟨0, le_rfl⟩)
    ?_ ?_ ?_
  · rw [expirations_sweep]
    exact (expiredEntries_sublist _ store).nodup store.db.nodupKeys
  · intro key value
    rw [expirations_sweep, mem_expiredEntries_raw]
    constructor
    · rintro ⟨raw, hraw, hexpired, hvalue⟩
      rw [hdated.expiredRaw_eq_dead hraw halike] at hexpired
      exact ⟨_, by simp [exactContents, hraw], hexpired, hvalue⟩
    · rintro ⟨r, hstored, hdead, hvalue⟩
      obtain ⟨raw, hraw, rfl⟩ := Option.map_eq_some_iff.mp hstored
      rw [← hdated.expiredRaw_eq_dead hraw halike] at hdead
      exact ⟨raw, hraw, hdead, hvalue⟩
  · intro key
    simp only [exactContents, hdb, lookup_commit_expired]
    cases hraw : store.db.lookup key with
    | none => rfl
    | some raw =>
      have hsame := hdated.expiredRaw_eq_dead hraw halike
      cases hexpired : expiredRaw (unixNano (clock.now 0)) raw with
      | true => simp [Option.filter, hexpired, ← hsame]
      | false => simp [Option.filter, hexpired, ← hsame]

theorem reportsOnce {codec : Msgpack}
    {state : PebbleStore × (GoString → Option ℤ)}
    (hdated : state.1.Dated state.2) (honExpire : state.1.onExpire = true)
    (hok : LooksAtLiveExactly state call) :
    ReportsOnce (exactContents state)
      (exactContents (datedStep codec state call).2) call
      (datedStep codec state call).1.2 := by
  obtain ⟨store, due⟩ := state
  obtain ⟨clock, op⟩ := call
  simp only [datedStep]
  cases hkey : op.key? with
  | some key =>
    refine hok.live.reportsOnce hkey ?_
    rcases impl_call_effect codec store clock op with
      ⟨_, hnone⟩ | ⟨heffect, hfired⟩
    · rw [hnone]
      rfl
    · rw [hfired, heffect.fired_of_key hkey]
      rfl
  | none =>
    cases op with
    | deleteExpired =>
      rcases impl_call_effect codec store clock .deleteExpired with
        ⟨hsame, hnone⟩ | ⟨heffect, hfired⟩
      · rw [hsame, hnone]
        refine ⟨List.nodup_nil, fun key value => ?_⟩
        refine iff_of_false List.not_mem_nil ?_
        rintro ⟨r, hleaves, _⟩
        exact hleaves.gone hleaves.stored
      · rw [hfired]
        cases heffect with
        | swept hafter =>
          rw [hafter.fired_eq, List.nil_append, if_pos honExpire]
          exact hdated.reportsOnce_swept (hok.alike rfl) hafter.db_eq
        | _ => contradiction
    | _ => simp [StoreOp.key?] at hkey

end PebbleStore

/-- In every run in which Get, Exists, TTL and Incr never find their entry
past its deadline, each call reports each entry that it lets expire exactly
once, whichever store it runs on.  On the disk store, the sweeps of the run
have to compare the deadlines with the clock as they are. -/
theorem expirations_reported_once (codec : Msgpack) :
    (∀ (numShards : ℕ) (hpos : 0 < numShards) (limit : ℤ) (onEvict : Bool)
        (earlier later : List (Readings × StoreOp))
        (call : Readings × StoreOp),
      let start := MemoryStore.new numShards hpos limit onEvict true
      let step := (MemoryStore.impl codec).call
      Meets step (fun m => LooksAtLive m.contents) start
        (earlier ++ call :: later) →
      let m := (run step start earlier).2
      ReportsOnce m.contents (step m call).2.contents call
        (step m call).1.2) ∧
    ∀ (db : AList fun _ : GoString => Bytes) (clock : ℤ)
        (earlier later : List (Readings × StoreOp))
        (call : Readings × StoreOp),
      let start := (PebbleStore.opened db true clock,
        PebbleStore.storedDeadlines db)
      let step := PebbleStore.datedStep codec
      Meets step PebbleStore.LooksAtLiveExactly start
        (earlier ++ call :: later) →
      let state := (run step start earlier).2
      ReportsOnce (PebbleStore.exactContents state)
        (PebbleStore.exactContents (step state call).2) call
        (step state call).1.2 := by
  constructor
  · intro numShards hpos limit onEvict earlier later call start step hmeets m
    have hreporting : m.Reporting := run_invariant MemoryStore.Reporting
      (fun _ call hm => hm.step codec call)
      (MemoryStore.reporting_new numShards hpos limit onEvict) earlier
    exact hreporting.reportsOnce codec hmeets.at_split
  · intro db clock earlier later call start step hmeets state
    have hdated : state.1.Dated state.2 := run_invariant
      (fun state : PebbleStore × (GoString → Option ℤ) =>
        state.1.Dated state.2)
      (fun _ call hdated => hdated.datedStep call)
      (PebbleStore.dated_opened db true clock) earlier
    have hcallback : state.1.onExpire = true := run_invariant
      (fun state : PebbleStore × (GoString → Option ℤ) =>
        state.1.onExpire = true)
      (fun state call hs =>
        (PebbleStore.impl_call_onExpire codec state.1 call).trans hs)
      rfl earlier
    exact PebbleStore.reportsOnce hdated hcallback hmeets.at_split

theorem looksAtLive_set (contents : Contents GoString Bytes)
    (clock : Readings) (key : GoString) (value : Bytes) (ttl : Duration) :
    LooksAtLive contents (clock, .set key value ttl) :=
  fun _ _ _ _ _ _ hfinds => hfinds

theorem looksAtLive_deleteExpired (contents : Contents GoString Bytes)
    (clock : Readings) : LooksAtLive contents (clock, .deleteExpired) :=
  fun _ _ _ hkey => absurd hkey.symm (Option.some_ne_none _)

def setShortLived : Readings × StoreOp := (.instant 0, .set [107] [1] 1)

def sweepAtFive : Readings × StoreOp := (.instant 5, .deleteExpired)

def getAtFive : Readings × StoreOp := (.instant 5, .get [107])

theorem expirations_reported_once_by_sweep :
    let m := (run (MemoryStore.impl .int64).call
      (.new 1 Nat.one_pos 0 true true) [setShortLived]).2
    let state := (run (PebbleStore.datedStep .int64)
      (.opened ∅ true 0, PebbleStore.storedDeadlines ∅) [setShortLived]).2
    ReportsOnce m.contents
      ((MemoryStore.impl .int64).call m sweepAtFive).2.contents sweepAtFive
      ((MemoryStore.impl .int64).call m sweepAtFive).1.2 ∧
    ((MemoryStore.impl .int64).call m sweepAtFive).1.2 =
      [.expire [107] [1]] ∧
    PebbleStore.exactContents state [107] = some ⟨[1], some 1⟩ ∧
    ReportsOnce (PebbleStore.exactContents state)
      (PebbleStore.exactContents
        (PebbleStore.datedStep .int64 state sweepAtFive).2)
      sweepAtFive (PebbleStore.datedStep .int64 state sweepAtFive).1.2 ∧
    (PebbleStore.datedStep .int64 state sweepAtFive).1.2 =
      [.expire [107] [1]] := by
  intro m state
  have hreported := expirations_reported_once .int64
  have hkeys : state.1.db.keys = [[107]] := by decide +kernel
  have hstored : PebbleStore.exactContents state [107] =
      some ⟨[1], some 1⟩ := by
    decide +kernel
  refine ⟨?_, by decide +kernel, hstored, ?_, by decide +kernel⟩
  · exact hreported.1 1 Nat.one_pos 0 true [setShortLived] [] sweepAtFive
      ⟨looksAtLive_set _ _ _ _ _, looksAtLive_deleteExpired _ _, trivial⟩
  · have hset : PebbleStore.LooksAtLiveExactly
        (.opened ∅ true 0, PebbleStore.storedDeadlines ∅) setShortLived :=
      ⟨looksAtLive_set _ _ _ _ _, fun hsweep => StoreOp.noConfusion hsweep⟩
    have hsweep : PebbleStore.LooksAtLiveExactly state sweepAtFive := by
      refine ⟨looksAtLive_deleteExpired _ _, ?_⟩
      intro _ key r deadline hr hdeadline
      obtain ⟨raw, hraw, _⟩ := Option.map_eq_some_iff.mp hr
      have hkey := PebbleStore.mem_keys_of_lookup hraw
      rw [hkeys, List.mem_singleton] at hkey
      subst hkey
      obtain rfl := Option.some.inj (hr.symm.trans hstored)
      obtain rfl := Option.some.inj hdeadline
      exact PebbleStore.comparesAlike_of_inRange (by decide) (by decide)
        ⟨by decide, by decide⟩
    exact hreported.2 ∅ 0 [setShortLived] [] sweepAtFive
      ⟨hset, hsweep, trivial⟩

/-- Get removes the value at five and reports nothing. -/
theorem expiration_not_reported_by_get :
    let m := ((MemoryStore.impl .int64).call
      (.new 1 Nat.one_pos 0 true true) setShortLived).2
    let state := (PebbleStore.datedStep .int64
      (.opened ∅ true 0, PebbleStore.storedDeadlines ∅) setShortLived).2
    (LeavesExpired m.contents
        ((MemoryStore.impl .int64).call m getAtFive).2.contents getAtFive
        [107] ⟨[1], some 1⟩ ∧
      ((MemoryStore.impl .int64).call m getAtFive).1.2 = []) ∧
    LeavesExpired (PebbleStore.exactContents state)
        (PebbleStore.exactContents
          (PebbleStore.datedStep .int64 state getAtFive).2) getAtFive
        [107] ⟨[1], some 1⟩ ∧
      (PebbleStore.datedStep .int64 state getAtFive).1.2 = [] := by
  intro m state
  have hexpired : ∃ deadline ∈ (⟨[1], some 1⟩ : Record Bytes).deadline,
      FindsExpired getAtFive.1 [107] deadline getAtFive.2 :=
    ⟨1, rfl, rfl, (by decide : (1 : ℤ) < 5)⟩
  have hm : m.contents [107] = some ⟨[1], some 1⟩ ∧
      ((MemoryStore.impl .int64).call m getAtFive).2.contents [107] = none ∧
      ((MemoryStore.impl .int64).call m getAtFive).1.2 = [] := by
    decide +kernel
  have hstate : PebbleStore.exactContents state [107] =
        some ⟨[1], some 1⟩ ∧
      PebbleStore.exactContents
        (PebbleStore.datedStep .int64 state getAtFive).2 [107] = none ∧
      (PebbleStore.datedStep .int64 state getAtFive).1.2 = [] := by
    decide +kernel
  refine ⟨⟨⟨hm.1, ?_, hexpired⟩, hm.2.2⟩, ⟨hstate.1, ?_, hexpired⟩,
    hstate.2.2⟩
  · rw [hm.2.1]
    exact (Option.some_ne_none _).symm
  · rw [hstate.2.1]
    exact (Option.some_ne_none _).symm

end CacheGrid
