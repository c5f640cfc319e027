import CacheGrid.CacheNode
import CacheGrid.MemoryStoreLedger

/-!
# What a cache asks of its store

The calls of a cache are written against the `Store` interface, so what is
proved about them rests on two laws of a store.  A store keeps a ledger if
every call acts on the record under its key and on nothing else.  It is lossy
if it may drop records on top of that, at any call: a memory store with a
limit does.  `good` is the store's own invariant and `contents` reads off its
records.
-/

namespace CacheGrid

open TimedMap

section Laws

variable {σ : Type}

/-- The call is on the record under some key, and if it is this key it only
reads. -/
def StoreOp.Keeps (key : GoString) (op : StoreOp) : Prop :=
  ∃ other, op.key? = some other ∧ (other ≠ key ∨ op.reads = true)

structure KeepsLedger (impl : StoreImpl σ) (codec : Msgpack)
    (good : σ → Prop) (contents : σ → Contents GoString Bytes) : Prop where
  good_call : ∀ {s}, good s → ∀ call, good (impl.call s call).2
  result_eq : ∀ {s clock op key}, good s → op.key? = some key →
    (impl.call s (clock, op)).1.1 =
      (cellStep codec clock op (contents s key)).1
  contents_eq : ∀ {s clock op key}, good s → op.key? = some key →
    contents (impl.call s (clock, op)).2 = Function.update (contents s) key
      (cellStep codec clock op (contents s key)).2
  swept : ∀ {s}, good s → ∀ clock key,
    contents (impl.call s (clock, .deleteExpired)).2 key = contents s key ∨
      contents (impl.call s (clock, .deleteExpired)).2 key = none ∧
        ∀ r, contents s key = some r → r.dead clock.finish = true

structure LossyLedger (impl : StoreImpl σ) (codec : Msgpack)
    (good : σ → Prop) (contents : σ → Contents GoString Bytes) : Prop where
  good_call : ∀ {s}, good s → ∀ call, good (impl.call s call).2
  result_eq : ∀ {s clock op key}, good s → op.key? = some key →
    (impl.call s (clock, op)).1.1 =
      (cellStep codec clock op (contents s key)).1
  cell : ∀ {s clock op key}, good s → op.key? = some key →
    contents (impl.call s (clock, op)).2 key = none ∨
      contents (impl.call s (clock, op)).2 key =
        (cellStep codec clock op (contents s key)).2
  other : ∀ {s clock op key}, good s → op.key? ≠ some key →
    contents (impl.call s (clock, op)).2 key = none ∨
      contents (impl.call s (clock, op)).2 key = contents s key

theorem KeepsLedger.contents_of_ne {impl : StoreImpl σ} {codec : Msgpack}
    {good : σ → Prop} {contents : σ → Contents GoString Bytes}
    (hlaw : KeepsLedger impl codec good contents) {s : σ} (hgood : good s)
    {call : Readings × StoreOp} {other key : GoString}
    (hop : call.2.key? = some other) (hne : other ≠ key) :
    contents (impl.call s call).2 key = contents s key := by
  obtain ⟨clock, op⟩ := call
  rw [hlaw.contents_eq hgood hop, Function.update_of_ne hne.symm]

/-- A call that reads a record which has not expired, or one under another
key, leaves it as it is. -/
theorem KeepsLedger.contents_of_keeps {impl : StoreImpl σ} {codec : Msgpack}
    {good : σ → Prop} {contents : σ → Contents GoString Bytes}
    (hlaw : KeepsLedger impl codec good contents) {s : σ} (hgood : good s)
    {call : Readings × StoreOp} {key : GoString}
    (hkeeps : call.2.Keeps key)
    (halive : ∀ r, contents s key = some r →
      r.dead call.1.finish = false) :
    contents (impl.call s call).2 key = contents s key := by
  obtain ⟨clock, op⟩ := call
  obtain ⟨other, hop, hother⟩ := hkeeps
  by_cases hne : other = key
  · subst other
    rw [hlaw.contents_eq hgood hop, Function.update_self]
    rcases cellStep_read_drops codec clock (hother.resolve_left (· rfl))
        (contents s key) with hsame | ⟨hnone, hdead⟩
    · exact hsame
    · cases hcell : contents s key with
      | none => rw [← hcell, hnone, hcell]
      | some r =>
        have hlater := Record.dead_mono (clock.le_finish 0)
          (hdead r hcell)
        rw [halive r hcell] at hlater
        contradiction
  · exact hlaw.contents_of_ne hgood hop hne

theorem KeepsLedger.lossy {impl : StoreImpl σ} {codec : Msgpack}
    {good : σ → Prop} {contents : σ → Contents GoString Bytes}
    (hlaw : KeepsLedger impl codec good contents) :
    LossyLedger impl codec good contents where
  good_call := hlaw.good_call
  result_eq := hlaw.result_eq
  cell := by
    intro s clock op key hgood hkey
    rw [hlaw.contents_eq hgood hkey, Function.update_self]
    exact Or.inr rfl
  other := by
    intro s clock op key hgood hother
    cases hkey : op.key? with
    | some k =>
      have hne : k ≠ key := by
        rintro rfl
        exact hother hkey
      exact Or.inr (hlaw.contents_of_ne hgood hkey hne)
    | none =>
      cases op with
      | deleteExpired =>
        exact (hlaw.swept hgood clock key).elim Or.inr
          fun hnone => Or.inl hnone.1
      | _ => simp [StoreOp.key?] at hkey

namespace LossyLedger

variable {impl : StoreImpl σ} {codec : Msgpack} {good : σ → Prop}
  {contents : σ → Contents GoString Bytes}
  (hlaw : LossyLedger impl codec good contents) {s : σ} (hgood : good s)
  {clock : Readings} {key : GoString} {r : Record Bytes}

include hlaw hgood

theorem kept {op : StoreOp} (hop : op.key? ≠ some key ∨ op.reads = true)
    (hafter : contents (impl.call s (clock, op)).2 key = some r) :
    contents s key = some r := by
  by_cases hkey : op.key? = some key
  · have hread := hop.resolve_left fun hne => hne hkey
    rcases hlaw.cell hgood hkey with hnone | hcell
    · rw [hnone] at hafter
      contradiction
    · rw [hcell] at hafter
      rcases cellStep_read_drops codec clock hread (contents s key) with
        hsame | ⟨hnone, _⟩
      · rwa [hsame] at hafter
      · rw [hnone] at hafter
        contradiction
  · rcases hlaw.other hgood hkey with hnone | hsame
    · rw [hnone] at hafter
      contradiction
    · rwa [hsame] at hafter

theorem written {value : Bytes} {ttl : Duration}
    (hafter : contents (impl.call s (clock, .set key value ttl)).2 key =
      some r) : r = ⟨value, deadlineOf (clock.now 0) ttl⟩ := by
  have hkey : (StoreOp.set key value ttl).key? = some key := rfl
  rcases hlaw.cell hgood hkey with hnone | hcell
  · rw [hnone] at hafter
    contradiction
  · rw [hcell] at hafter
    exact (Option.some.inj hafter).symm

theorem deleted :
    contents (impl.call s (clock, .delete key)).2 key = none := by
  have hkey : (StoreOp.delete key).key? = some key := rfl
  rcases hlaw.cell hgood hkey with hnone | hcell
  · exact hnone
  · rw [hcell]
    rfl

theorem get_found :
    (impl.call s (clock, .get key)).1.1.found =
      (live (contents s) (clock.now 0) key).map Record.value := by
  rw [hlaw.result_eq hgood rfl]
  unfold live
  cases contents s key with
  | none => rfl
  | some r =>
    cases hdead : r.dead (clock.now 0) <;>
      simp [cellStep, hdead, StoreResult.found, Option.filter]

theorem exists_ok :
    (impl.call s (clock, .exists key)).1.1.ok =
      (live (contents s) (clock.now 0) key).isSome := by
  rw [hlaw.result_eq hgood rfl]
  unfold live
  cases contents s key with
  | none => rfl
  | some r =>
    cases hdead : r.dead (clock.now 0) <;>
      simp [cellStep, hdead, StoreResult.ok, Option.filter]

/-- Away from the deadline, TTL is zero if there is no live record. -/
theorem ttl_eq_zero_iff {t : ℤ}
    (hdeadline : ∀ r, contents s key = some r → r.deadline ≠ some t) :
    (impl.call s (.instant t, .ttl key)).1.1.ttl = 0 ↔
      live (contents s) t key = none := by
  rw [hlaw.result_eq hgood rfl]
  unfold live
  cases hcell : contents s key with
  | none => simp [cellStep, StoreResult.ttl]
  | some r =>
    cases hdead : r.dead t with
    | true => simp [cellStep, hdead, StoreResult.ttl, Option.filter]
    | false =>
      have hpos : cellTTL r t ≠ 0 := by
        unfold cellTTL
        cases hd : r.deadline with
        | none => exact (by decide : (-1 : Duration) ≠ 0)
        | some deadline =>
          have hlt : t < deadline := by
            have hne := hdeadline r hcell
            simp only [hd, ne_eq, Option.some.injEq] at hne
            simp only [Record.dead, hd, decide_eq_false_iff_not,
              not_lt] at hdead
            omega
          have hremaining := (timeSub_pos_iff deadline t).mpr hlt
          simp only
          rw [if_neg fun hneg =>
            lt_asymm hlt ((timeSub_neg_iff deadline t).mp hneg)]
          rintro hzero
          rw [hzero] at hremaining
          exact absurd hremaining (by decide)
      simp [cellStep, hdead, StoreResult.ttl, Option.filter, hpos]

end LossyLedger

end Laws

/-! ## A shard with a limit -/

variable {callbacks : List Callback}

namespace Shard

/-- `after` holds the records of `contents`, without some of them. -/
def Loses (contents : Contents GoString Bytes) (after : Shard) : Prop :=
  ∀ key, after.contents key = none ∨ after.contents key = contents key

/-- `after` holds the records of `contents`, without some of them, each of
which is announced if there is an `OnEvict`. -/
def Announces (onEvict : Bool) (contents : Contents GoString Bytes)
    (callbacks : List Callback) (after : Shard) : Prop :=
  ∀ key, after.contents key = contents key ∨
    after.contents key = none ∧
      (onEvict = true → key ∈ callbacks.map Callback.key)

theorem Announces.loses {onEvict : Bool} {contents : Contents GoString Bytes}
    {after : Shard} (hannounces : Announces onEvict contents callbacks after) :
    Loses contents after := fun key =>
  (hannounces key).symm.imp_left And.left

theorem Evicts.announces {s after : Shard} {kept evicted : List Entry}
    (hevicts : Evicts s callbacks after kept evicted) (hcoherent : s.Coherent) :
    Announces s.onEvict s.contents callbacks after := by
  intro key
  have hkept : ∀ e, after.items.lookup key = some e ↔
      e ∈ kept ∧ e.key = key := by
    intro e
    rw [hevicts.coherent.lookup_iff key e, hevicts.elements]
  cases hbefore : s.items.lookup key with
  | none =>
    left
    cases hlookup : after.items.lookup key with
    | none => rw [contents_of_none hlookup, contents_of_none hbefore]
    | some e =>
      obtain ⟨hmem, hkey⟩ := (hkept e).mp hlookup
      have hstored : s.items.lookup key = some e := by
        rw [hcoherent.lookup_iff key e, hevicts.split]
        exact ⟨List.mem_append_left _ hmem, hkey⟩
      rw [hbefore] at hstored
      contradiction
  | some e =>
    obtain ⟨hmem, hkey⟩ := (hcoherent.lookup_iff key e).mp hbefore
    rw [hevicts.split, List.mem_append] at hmem
    rcases hmem with hmem | hmem
    · left
      rw [contents_of_some ((hkept e).mpr ⟨hmem, hkey⟩),
        contents_of_some hbefore]
    · by_cases hlookup : after.items.lookup key = none
      · right
        refine ⟨contents_of_none hlookup, fun honEvict => ?_⟩
        rw [hevicts.callbacks_eq, if_pos honEvict, List.map_map]
        exact List.mem_map.mpr ⟨e, List.mem_reverse.mpr hmem, hkey⟩
      · left
        obtain ⟨other, hother⟩ := Option.ne_none_iff_exists'.mp hlookup
        obtain ⟨hmem', hkey'⟩ := (hkept other).mp hother
        have hstored : s.items.lookup key = some other := by
          rw [hcoherent.lookup_iff key other, hevicts.split]
          exact ⟨List.mem_append_left _ hmem', hkey'⟩
        rw [contents_of_some hother, contents_of_some hstored]

/-- Whatever the limit, storing under a detached key writes that record and
may lose others, or that one. -/
theorem Detached.storeLocked_announces {s base : Shard} {key : GoString}
    (hbase : Detached s base key) (value : Bytes) (expiresAt : Option ℤ) :
    Announces s.onEvict
      (Function.update s.contents key (some ⟨value, expiresAt⟩))
      (base.storeLocked key value expiresAt).1
      (base.storeLocked key value expiresAt).2 := by
  have honEvict : base.onEvict = s.onEvict :=
    congrArg (fun settings => settings.2.1) hbase.settings_eq
  rw [← hbase.contents_pushEntry, ← honEvict]
  by_cases hlimited : 0 < base.maxSize
  · obtain ⟨kept, evicted, hevicts⟩ :=
      hbase.away.storeLocked_evicts hlimited value expiresAt
    exact hevicts.announces (hbase.away.pushEntry value expiresAt)
  · rw [storeLocked_unlimited (not_lt.mp hlimited)]
    exact fun _ => Or.inl rfl

/-- A call on `key` returned `result`, and `after` is what the ledger says
without some of its records. -/
structure LosesCell (s : Shard) (key : GoString)
    (answer : StoreResult × Cell) (result : StoreResult) (after : Shard) :
    Prop where
  result_eq : result = answer.1
  loses : Loses (Function.update s.contents key answer.2) after

/-- A call on `key` returned `result`, and `after` is what the ledger says
without some of its records, which are announced. -/
structure AnnouncesCell (s : Shard) (key : GoString)
    (answer : StoreResult × Cell) (result : StoreResult)
    (callbacks : List Callback) (after : Shard) : Prop where
  result_eq : result = answer.1
  announces : Announces s.onEvict (Function.update s.contents key answer.2)
    callbacks after

theorem AnnouncesCell.loses {s after : Shard} {key : GoString}
    {answer : StoreResult × Cell} {result : StoreResult}
    (hannounces : AnnouncesCell s key answer result callbacks after) :
    LosesCell s key answer result after where
  result_eq := hannounces.result_eq
  loses := hannounces.announces.loses

theorem FollowsCell.announces {s after : Shard} {key : GoString}
    {answer : StoreResult × Cell} {result : StoreResult}
    (hfollows : FollowsCell s key answer result after)
    (callbacks : List Callback) :
    AnnouncesCell s key answer result callbacks after where
  result_eq := hfollows.result_eq
  announces := fun other => Or.inl (congrFun hfollows.contents_eq other)

theorem Detached.incrStore_announcesCell {s base : Shard} {key : GoString}
    (hbase : Detached s base key)
    (habsent : base.contents = Function.update s.contents key none)
    (codec : Msgpack) (now : ℤ) (current delta : Int64) (ttl : Duration) :
    AnnouncesCell s key (cellCount codec now current delta ttl)
      (.counter (base.incrStore codec now key current delta ttl).1)
      (base.incrStore codec now key current delta ttl).2.1
      (base.incrStore codec now key current delta ttl).2.2 := by
  unfold incrStore cellCount
  cases codec.marshal (current + delta) with
  | error err => exact ⟨rfl, fun other => Or.inl (congrFun habsent other)⟩
  | ok value =>
    refine ⟨rfl, ?_⟩
    rw [← expiry_eq_deadlineOf]
    exact hbase.storeLocked_announces value _

theorem Coherent.incr_announcesCell {s : Shard} (hcoherent : s.Coherent)
    (codec : Msgpack) (clock : Readings) (key : GoString) (delta : Int64)
    (ttl : Duration) :
    AnnouncesCell s key
      (cellStep codec clock (.incr key delta ttl) (s.contents key))
      (.counter (s.incr codec clock key delta ttl).1)
      (s.incr codec clock key delta ttl).2.1
      (s.incr codec clock key delta ttl).2.2 := by
  rcases hcoherent.incr_cell_cases codec clock key delta ttl with
    ⟨err, hincr, hcell⟩ | ⟨base, current, kept, hbase, habsent, hincr, hcell⟩
  · rw [hincr, hcell]
    exact (followsCell_same rfl key _).announces _
  · rw [hincr, hcell]
    exact hbase.incrStore_announcesCell habsent ..

theorem Coherent.step_announcesCell {s : Shard} (hcoherent : s.Coherent)
    (codec : Msgpack) (clock : Readings) {op : StoreOp} {key : GoString}
    (hkey : op.key? = some key) :
    AnnouncesCell s key (cellStep codec clock op (s.contents key))
      (step codec s (clock, op)).1.1 (step codec s (clock, op)).1.2
      (step codec s (clock, op)).2 := by
  cases op with
  | get k =>
    obtain rfl := Option.some.inj hkey
    exact (get_followsCell s codec clock k).announces _
  | set k value ttl =>
    obtain rfl := Option.some.inj hkey
    obtain ⟨base, hbase, hset⟩ := hcoherent.set_cases clock k value ttl
    refine ⟨rfl, ?_⟩
    change Announces s.onEvict _ (s.set clock k value ttl).1
      (s.set clock k value ttl).2
    rw [hset]
    change Announces s.onEvict (Function.update s.contents k
      (some ⟨value, deadlineOf (clock.now 0) ttl⟩)) _ _
    rw [← expiry_eq_deadlineOf]
    exact hbase.storeLocked_announces value _
  | delete k =>
    obtain rfl := Option.some.inj hkey
    exact (delete_followsCell s codec clock k).announces _
  | «exists» k =>
    obtain rfl := Option.some.inj hkey
    exact (exists_followsCell s codec clock k).announces _
  | ttl k =>
    obtain rfl := Option.some.inj hkey
    exact (ttl_followsCell s codec clock k).announces _
  | incr k delta defaultTTL =>
    obtain rfl := Option.some.inj hkey
    exact hcoherent.incr_announcesCell codec clock k delta defaultTTL
  | deleteExpired => simp [StoreOp.key?] at hkey

end Shard

/-! ## The memory store -/

namespace MemoryStore

def Sound (m : MemoryStore) : Prop := ∀ s ∈ m.shards, s.Invariant

theorem sound_new (numShards : ℕ) (hpos : 0 < numShards) (limit : ℤ)
    (onEvict onExpire : Bool) :
    (new numShards hpos limit onEvict onExpire).Sound := by
  intro s hs
  obtain rfl : s = Shard.new limit onEvict onExpire :=
    List.eq_of_mem_replicate hs
  exact ⟨Shard.coherent_new _ _ _, fun hpositive => hpositive.le⟩

theorem contents_setShard_cases (m : MemoryStore) (key : GoString)
    (s : Shard) (cell : Cell) (other : GoString) :
    (m.setShard key s).contents other = s.contents other ∧
        Function.update (m.getShard key).contents key cell other =
          Function.update m.contents key cell other ∨
      (m.setShard key s).contents other =
        Function.update m.contents key cell other := by
  have hget := setShard_getElem? m key s (m.shardIndex other)
  by_cases hindex : m.shardIndex key = m.shardIndex other
  · left
    rw [if_pos hindex] at hget
    have hshard : (m.setShard key s).getShard other = s :=
      getShard_eq_of_getElem? hget
    have hsame : m.getShard key = m.getShard other :=
      getShard_eq_of_getElem? (hindex ▸ m.getElem?_shardIndex other)
    unfold contents
    refine ⟨by rw [hshard], ?_⟩
    by_cases hother : other = key
    · subst other
      simp only [Function.update_self]
    · simp only [Function.update_of_ne hother, hsame]
  · right
    have hother : other ≠ key := fun heq => hindex (by rw [heq])
    rw [if_neg hindex, m.getElem?_shardIndex other] at hget
    have hshard : (m.setShard key s).getShard other = m.getShard other :=
      getShard_eq_of_getElem? hget
    rw [Function.update_of_ne hother]
    unfold contents
    rw [hshard]

variable {m : MemoryStore}

theorem contents_setShard_announces {key : GoString} {s : Shard} {cell : Cell}
    {onEvict : Bool}
    (hannounces : Shard.Announces onEvict
      (Function.update (m.getShard key).contents key cell) callbacks s)
    (other : GoString) :
    (m.setShard key s).contents other =
        Function.update m.contents key cell other ∨
      (m.setShard key s).contents other = none ∧
        (onEvict = true → other ∈ callbacks.map Callback.key) := by
  rcases m.contents_setShard_cases key s cell other with ⟨hshard, hupdate⟩ | h
  · rw [hshard, ← hupdate]
    exact hannounces other
  · exact Or.inl h

theorem contents_setShard_loses {key : GoString} {s : Shard} {cell : Cell}
    (hloses : Shard.Loses
      (Function.update (m.getShard key).contents key cell) s)
    (other : GoString) :
    (m.setShard key s).contents other = none ∨
      (m.setShard key s).contents other =
        Function.update m.contents key cell other := by
  rcases m.contents_setShard_cases key s cell other with ⟨hshard, hupdate⟩ | h
  · rw [hshard, ← hupdate]
    exact hloses other
  · exact Or.inr h

theorem swept_cases (hsound : m.Sound) (clock : Readings) (key : GoString) :
    (m.deleteExpired clock).2.2.contents key = m.contents key ∨
      (m.deleteExpired clock).2.2.contents key = none ∧
        ∀ r, m.contents key = some r → r.dead clock.finish = true := by
  rw [contents_deleteExpired hsound]
  simp only
  cases m.contents key with
  | none => exact Or.inl rfl
  | some r =>
    cases hdead : r.dead (clock.now (m.shardIndex key)) with
    | false => exact Or.inl (by simp [Option.filter, hdead])
    | true =>
      refine Or.inr ⟨by simp [Option.filter, hdead], ?_⟩
      intro stored hstored
      obtain rfl := Option.some.inj hstored
      exact Record.dead_mono (clock.le_finish _) hdead

def impl (codec : Msgpack) : StoreImpl MemoryStore := ⟨step codec⟩

theorem impl_call (codec : Msgpack) (m : MemoryStore)
    (call : Readings × StoreOp) :
    (impl codec).call m call = m.step codec call := rfl

theorem impl_call_of_key (codec : Msgpack) (m : MemoryStore)
    (clock : Readings) {op : StoreOp} {key : GoString}
    (hkey : op.key? = some key) :
    (impl codec).call m (clock, op) = m.onShard codec key (clock, op) :=
  step_of_key codec m hkey

theorem keepsLedger (codec : Msgpack) :
    KeepsLedger (impl codec) codec Unlimited contents where
  good_call := fun hgood call => (hgood.step_ledger codec call).1
  result_eq := by
    intro m clock op key hgood hkey
    rw [impl_call]
    simpa [ledgerStep, hkey] using (hgood.step_ledger codec (clock, op)).2.1
  contents_eq := by
    intro m clock op key hgood hkey
    rw [impl_call]
    simpa [ledgerStep, hkey] using (hgood.step_ledger codec (clock, op)).2.2
  swept := fun hgood clock key => swept_cases hgood.invariant clock key

theorem Sound.impl_call (hsound : m.Sound) (codec : Msgpack)
    (call : Readings × StoreOp) :
    ((impl codec).call m call).2.Sound :=
  step_forall_shards (fun _ call hinv => hinv.step codec call) hsound call

theorem lossyLedger (codec : Msgpack) :
    LossyLedger (impl codec) codec Sound contents where
  good_call := fun hsound call => hsound.impl_call codec call
  result_eq := by
    intro m clock op key hsound hkey
    rw [impl_call_of_key codec m clock hkey]
    exact ((hsound _ (m.getShard_mem key)).step_announcesCell codec clock
      hkey).result_eq
  cell := by
    intro m clock op key hsound hkey
    rw [impl_call_of_key codec m clock hkey]
    have hloses := contents_setShard_loses ((hsound _
      (m.getShard_mem key)).step_announcesCell codec clock
        hkey).loses.loses key
    rwa [Function.update_self] at hloses
  other := by
    intro m clock op key hsound hother
    cases hkey : op.key? with
    | some k =>
      have hne : key ≠ k := by
        rintro rfl
        exact hother hkey
      rw [impl_call_of_key codec m clock hkey]
      have hloses := contents_setShard_loses ((hsound _
        (m.getShard_mem k)).step_announcesCell codec clock
          hkey).loses.loses key
      rwa [Function.update_of_ne hne] at hloses
    | none =>
      cases op with
      | deleteExpired =>
        exact (swept_cases hsound clock key).elim Or.inr
          fun hnone => Or.inl hnone.1
      | _ => simp [StoreOp.key?] at hkey

end MemoryStore

end CacheGrid
