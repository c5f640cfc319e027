import CacheGrid.PebbleStore
import CacheGrid.StoreLedger

/-!
# The disk store keeps a ledger

Executed alone and at one clock instant, every call of the disk store acts on
the ledger of its decoded records.  The range of `UnixNano` and the exact
instant of a deadline are the only places where it does not, and the lemmas
say so in their hypotheses.
-/

namespace CacheGrid

open InterleavedPrograms TimedMap

namespace PebbleStore

def recordOf (raw : Bytes) : Record Bytes where
  value := (decode raw).1
  deadline := if (decode raw).2 = 0 then none else some (decode raw).2.toInt

def contents (store : PebbleStore) : Contents GoString Bytes :=
  fun key => (store.db.lookup key).map recordOf

variable {store : PebbleStore} {key : GoString}

theorem contents_of_none (hlookup : store.db.lookup key = none) :
    store.contents key = none := by
  simp [contents, hlookup]

variable {raw : Bytes}

theorem contents_of_some (hlookup : store.db.lookup key = some raw) :
    store.contents key = some (recordOf raw) := by
  simp [contents, hlookup]

structure Ticks (store after : PebbleStore) (t : ℤ) : Prop where
  db_eq : after.db = store.db
  locked_eq : after.locked = store.locked
  clock_le : after.clock ≤ t

variable {t : ℤ}

theorem Ticks.refl (hclock : store.clock ≤ t) :
    Ticks store store t := ⟨rfl, rfl, hclock⟩

theorem Ticks.contents_eq {store after : PebbleStore}
    (hticks : Ticks store after t) : after.contents = store.contents := by
  unfold contents
  rw [hticks.db_eq]

theorem exec_now (hclock : store.clock ≤ t) :
    machine.exec store .now t = some (t, { store with clock := t }) := by
  simp [machine, exec, hclock]

/-! ## Deadlines -/

/-- `UnixNano` does not wrap at an instant in this range. -/
def InRange (t : ℤ) : Prop := 0 ≤ t ∧ t < 2 ^ 63

theorem InRange.toInt_unixNano (hrange : InRange t) :
    (unixNano t).toInt = t :=
  CacheGrid.toInt_unixNano (by have := hrange.1; omega) hrange.2

theorem recordOf_pack (expiresAtNano : Int64) (value : Bytes) :
    recordOf (pack expiresAtNano value) =
      ⟨value, if expiresAtNano = 0 then none
        else some expiresAtNano.toInt⟩ := by
  simp [recordOf]

theorem recordOf_pack_zero (value : Bytes) :
    recordOf (pack 0 value) = ⟨value, none⟩ := by
  simp [recordOf_pack]

/-- A deadline in range is stored exactly; the number zero, which stands for
no deadline, is not in the way of a positive one. -/
theorem recordOf_pack_unixNano (hpos : 0 < t) (hrange : t < 2 ^ 63)
    (value : Bytes) :
    recordOf (pack (unixNano t) value) = ⟨value, some t⟩ := by
  have htoInt : (unixNano t).toInt = t :=
    InRange.toInt_unixNano ⟨hpos.le, hrange⟩
  have hne : unixNano t ≠ 0 := by
    intro hzero
    rw [hzero] at htoInt
    simp at htoInt
    omega
  rw [recordOf_pack, if_neg hne, htoInt]

theorem recordOf_dead (hrange : InRange t) :
    (recordOf raw).dead t =
      decide ((decode raw).2 ≠ 0 ∧ (decode raw).2 < unixNano t) := by
  have hlt : (decode raw).2 < unixNano t ↔ (decode raw).2.toInt < t := by
    rw [Int64.lt_iff_toInt_lt, hrange.toInt_unixNano]
  rw [Bool.eq_iff_iff, Record.dead_iff, decide_eq_true_iff, hlt]
  by_cases hzero : (decode raw).2 = 0
  · simp [recordOf, hzero]
  · simp [recordOf, hzero]

/-! ## The shared pieces -/

theorem isExpired_ends {post : Bool → PebbleStore → Prop}
    (hclock : store.clock ≤ t) (hrange : InRange t)
    (hpost : ∀ after, Ticks store after t → post ((recordOf raw).dead t) after) :
    (isExpired (decode raw).2).Ends machine t store post := by
  rw [recordOf_dead hrange] at hpost
  unfold isExpired
  by_cases hzero : (decode raw).2 = 0
  · rw [if_neg (by simpa using hzero)]
    apply Prog.ends_ret
    simpa [hzero] using hpost store (.refl hclock)
  · rw [if_pos hzero]
    apply Prog.ends_perform (exec_now hclock)
    apply Prog.ends_ret
    simpa [hzero] using hpost { store with clock := t } ⟨rfl, rfl, le_rfl⟩

theorem encode_ends {value : Bytes} {ttl : Duration}
    {post : Bytes → PebbleStore → Prop} (hclock : store.clock ≤ t)
    (hrange : InRange t) (hfits : 0 < ttl.toInt → t + ttl.toInt < 2 ^ 63)
    (hpost : ∀ raw after, Ticks store after t →
      recordOf raw = ⟨value, deadlineOf t ttl⟩ → post raw after) :
    (encode value ttl).Ends machine t store post := by
  unfold encode
  by_cases hpos : 0 < ttl.toInt
  · rw [if_pos ((Duration.pos_iff ttl).mpr hpos)]
    apply Prog.ends_perform (exec_now hclock)
    apply Prog.ends_ret
    apply hpost _ { store with clock := t } ⟨rfl, rfl, le_rfl⟩
    have hlower := hrange.1
    rw [addDuration, recordOf_pack_unixNano (by omega) (hfits hpos),
      deadlineOf, if_pos hpos]
  · rw [if_neg (by rwa [Duration.pos_iff])]
    apply Prog.ends_ret
    apply hpost _ _ (.refl hclock)
    rw [recordOf_pack_zero, deadlineOf, if_neg hpos]

theorem contents_erase (store after : PebbleStore)
    (hdb : after.db = store.db.erase key) :
    after.contents = Function.update store.contents key none := by
  funext other
  by_cases hother : other = key
  · subst other
    simp [contents, hdb]
  · rw [Function.update_of_ne hother]
    simp [contents, hdb, AList.lookup_erase_ne hother]

theorem contents_insert (store after : PebbleStore)
    (hdb : after.db = store.db.insert key raw) :
    after.contents =
      Function.update store.contents key (some (recordOf raw)) := by
  funext other
  by_cases hother : other = key
  · subst other
    simp [contents, hdb]
  · rw [Function.update_of_ne hother]
    simp [contents, hdb, AList.lookup_insert_ne hother]

/-! ## One call with a key -/

structure ReadyAt (store : PebbleStore) (t : ℤ) : Prop where
  unlocked : store.locked = false
  clock_le : store.clock ≤ t

/-- A call on `key` at `t` returned `result` and left `after`, as the ledger
says. -/
structure FollowsCell (store : PebbleStore) (t : ℤ) (key : GoString)
    (answer : StoreResult × Cell) (result : StoreResult)
    (after : PebbleStore) : Prop where
  ready : after.ReadyAt t
  result_eq : result = answer.1
  contents_eq : after.contents = Function.update store.contents key answer.2

theorem ReadyAt.ticks {store after : PebbleStore} (hready : store.ReadyAt t)
    (hticks : Ticks store after t) :
    after.ReadyAt t :=
  ⟨hticks.locked_eq.trans hready.unlocked, hticks.clock_le⟩

theorem Ticks.followsCell {store after : PebbleStore}
    (hticks : Ticks store after t) (hready : store.ReadyAt t) {cell : Cell}
    (hcell : store.contents key = cell) (result : StoreResult) :
    FollowsCell store t key (result, cell) result after where
  ready := hready.ticks hticks
  result_eq := rfl
  contents_eq := by
    rw [hticks.contents_eq, ← hcell, Function.update_eq_self]

theorem removeExpired_ends {α : Type} {store middle : PebbleStore} {value : α}
    {wrap : α → StoreResult} (hready : store.ReadyAt t)
    (hticks : Ticks store middle t) :
    (removeExpired key >>= fun _ => pure value).Ends machine t middle
      fun found after =>
        FollowsCell store t key (wrap value, none) (wrap found) after := by
  apply Prog.ends_act rfl
  apply Prog.ends_act rfl
  apply Prog.ends_ret
  refine ⟨⟨?_, hticks.clock_le⟩, rfl, ?_⟩
  · exact hticks.locked_eq.trans hready.unlocked
  · apply contents_erase
    rw [← hticks.db_eq]

theorem found_ends {α : Type} (hready : store.ReadyAt t) (hrange : InRange t)
    (hlookup : store.db.lookup key = some raw) (gone live : α)
    (result : α → StoreResult) :
    (isExpired (decode raw).2 >>= fun expired =>
      if expired then removeExpired key >>= fun _ => pure gone
      else pure live).Ends machine t store fun found after =>
      FollowsCell store t key
        (if (recordOf raw).dead t then (result gone, none)
          else (result live, some (recordOf raw))) (result found) after := by
  apply Prog.ends_bind
  apply isExpired_ends hready.clock_le hrange
  intro middle hticks
  by_cases hdead : (recordOf raw).dead t = true
  · simp only [hdead, if_true]
    exact removeExpired_ends hready hticks
  · simp only [hdead]
    apply Prog.ends_ret
    exact hticks.followsCell hready (contents_of_some hlookup) _

theorem get_followsCell (hready : store.ReadyAt t) (hrange : InRange t)
    (codec : Msgpack) (key : GoString) :
    (get key).Ends machine t store fun found after =>
      FollowsCell store t key
        (cellStep codec (.instant t) (.get key) (store.contents key))
        (.value found) after := by
  apply Prog.ends_perform rfl
  cases hlookup : store.db.lookup key with
  | none =>
    have hcell := contents_of_none hlookup
    apply Prog.ends_ret
    rw [hcell]
    exact (Ticks.refl hready.clock_le).followsCell hready hcell _
  | some raw =>
    rw [contents_of_some hlookup]
    exact found_ends hready hrange hlookup none (some (decode raw).1)
      StoreResult.value

theorem set_followsCell (hready : store.ReadyAt t) (hrange : InRange t)
    (codec : Msgpack) (key : GoString) (value : Bytes) {ttl : Duration}
    (hfits : 0 < ttl.toInt → t + ttl.toInt < 2 ^ 63) :
    (set key value ttl).Ends machine t store fun _ after =>
      FollowsCell store t key
        (cellStep codec (.instant t) (.set key value ttl)
          (store.contents key)) .done after := by
  apply Prog.ends_perform rfl
  apply Prog.ends_bind
  apply encode_ends hready.clock_le hrange hfits
  intro raw middle hticks hraw
  apply Prog.ends_perform rfl
  have hwritten : ∀ after : PebbleStore,
      after.db = middle.db.insert key raw →
      after.locked = middle.locked → after.clock = middle.clock →
      FollowsCell store t key
        (cellStep codec (.instant t) (.set key value ttl)
          (store.contents key)) .done after := by
    intro after hdb hlocked hclock
    refine ⟨⟨?_, hclock ▸ hticks.clock_le⟩, rfl, ?_⟩
    · rw [hlocked, hticks.locked_eq, hready.unlocked]
    · rw [contents_insert store after (hticks.db_eq ▸ hdb), hraw]
      rfl
  by_cases hnew : (store.db.lookup key).isNone = true
  · simp only [hnew, if_true]
    apply Prog.ends_act rfl
    apply Prog.ends_ret
    exact hwritten _ rfl rfl rfl
  · simp only [hnew]
    apply Prog.ends_ret
    exact hwritten _ rfl rfl rfl

theorem delete_followsCell (hready : store.ReadyAt t) (codec : Msgpack)
    (key : GoString) :
    (delete key).Ends machine t store fun ok after =>
      FollowsCell store t key
        (cellStep codec (.instant t) (.delete key) (store.contents key))
        (.flag ok) after := by
  apply Prog.ends_perform rfl
  cases hlookup : store.db.lookup key with
  | none =>
    have hcell := contents_of_none hlookup
    apply Prog.ends_ret
    rw [hcell]
    exact (Ticks.refl hready.clock_le).followsCell hready hcell _
  | some raw =>
    rw [contents_of_some hlookup]
    apply Prog.ends_perform rfl
    apply Prog.ends_perform rfl
    apply Prog.ends_ret
    exact ⟨⟨hready.unlocked, hready.clock_le⟩, rfl,
      contents_erase store _ rfl⟩

theorem exists_followsCell (hready : store.ReadyAt t) (hrange : InRange t)
    (codec : Msgpack) (key : GoString) :
    («exists» key).Ends machine t store fun found after =>
      FollowsCell store t key
        (cellStep codec (.instant t) (.exists key) (store.contents key))
        (.flag found) after := by
  apply Prog.ends_perform rfl
  cases hlookup : store.db.lookup key with
  | none =>
    have hcell := contents_of_none hlookup
    apply Prog.ends_ret
    rw [hcell]
    exact (Ticks.refl hready.clock_le).followsCell hready hcell _
  | some raw =>
    rw [contents_of_some hlookup]
    exact found_ends hready hrange hlookup false true StoreResult.flag

/-- TTL drops a record as soon as nothing remains, so at the very instant of
a deadline it drops a record that is not dead. -/
theorem ttl_followsCell (hready : store.ReadyAt t) (codec : Msgpack)
    (key : GoString)
    (hdeadline : ∀ r, store.contents key = some r → r.deadline ≠ some t) :
    (ttl key).Ends machine t store fun remaining after =>
      FollowsCell store t key
        (cellStep codec (.instant t) (.ttl key) (store.contents key))
        (.remaining remaining) after := by
  apply Prog.ends_perform rfl
  cases hlookup : store.db.lookup key with
  | none =>
    have hcell := contents_of_none hlookup
    apply Prog.ends_ret
    rw [hcell]
    exact (Ticks.refl hready.clock_le).followsCell hready hcell _
  | some raw =>
    have hcell := contents_of_some hlookup
    have hexact := hdeadline _ hcell
    rw [hcell]
    simp only [cellStep, Readings.instant_now]
    by_cases hzero : (decode raw).2 = 0
    · have hnone : (recordOf raw).deadline = none := by
        simp [recordOf, hzero]
      simp only [hzero, if_true, Record.dead, cellTTL, hnone]
      apply Prog.ends_ret
      exact (Ticks.refl hready.clock_le).followsCell hready hcell _
    · have hsome : (recordOf raw).deadline =
          some (decode raw).2.toInt := by
        simp [recordOf, hzero]
      rw [hsome, Ne, Option.some.injEq] at hexact
      simp only [hzero, if_false, Record.dead, cellTTL, hsome,
        decide_eq_true_iff]
      apply Prog.ends_perform (exec_now hready.clock_le)
      have hticks : Ticks store { store with clock := t } t :=
        ⟨rfl, rfl, le_rfl⟩
      by_cases hdead : (decode raw).2.toInt < t
      · have hover : timeSub (decode raw).2.toInt t ≤ 0 := by
          rw [← Int64.not_lt, timeSub_pos_iff]
          omega
        simp only [hdead, hover, if_true]
        exact removeExpired_ends hready hticks
      · have hleft : ¬ timeSub (decode raw).2.toInt t ≤ 0 := by
          rw [Int64.not_le, timeSub_pos_iff]
          omega
        have hnonneg : ¬ timeSub (decode raw).2.toInt t < 0 := by
          rw [timeSub_neg_iff]
          omega
        simp only [hdead, hleft, hnonneg, if_false]
        apply Prog.ends_ret
        exact hticks.followsCell hready hcell _

/-! ## Counters -/

theorem preservedTTL_ends {post : Duration → PebbleStore → Prop}
    (hclock : store.clock ≤ t)
    (hpost : ∀ after, Ticks store after t →
      post (cellPreservedTTL (recordOf raw) t) after) :
    (preservedTTL (decode raw).2).Ends machine t store post := by
  unfold preservedTTL
  by_cases hzero : (decode raw).2 = 0
  · rw [if_neg (by simpa using hzero)]
    apply Prog.ends_ret
    simpa [cellPreservedTTL, recordOf, hzero] using
      hpost store (.refl hclock)
  · rw [if_pos hzero]
    apply Prog.ends_perform (exec_now hclock)
    apply Prog.ends_ret
    simpa [cellPreservedTTL, recordOf, hzero] using
      hpost { store with clock := t } ⟨rfl, rfl, le_rfl⟩

/-- The deadline of a live counter does not move, so it stays in range. -/
theorem cellPreservedTTL_fits (hrange : InRange t)
    (hpos : 0 < (cellPreservedTTL (recordOf raw) t).toInt) :
    t + (cellPreservedTTL (recordOf raw) t).toInt < 2 ^ 63 := by
  have hupper := Int64.toInt_lt (decode raw).2
  have hlower := Int64.le_toInt (decode raw).2
  have hstart := hrange.1
  by_cases hzero : (decode raw).2 = 0
  · simp [cellPreservedTTL, recordOf, hzero] at hpos
  · simp only [cellPreservedTTL, recordOf, hzero, if_false] at hpos ⊢
    by_cases hleft : 0 < timeSub (decode raw).2.toInt t
    · have hexact := timeSub_cases (decode raw).2.toInt t
      rw [timeSub_pos_iff] at hleft
      have hif : 0 < timeSub (decode raw).2.toInt t := by
        rwa [timeSub_pos_iff]
      simp only [hif, if_true]
      omega
    · simp [hleft] at hpos

variable {codec : Msgpack}

theorem incrStore_ends {store middle : PebbleStore}
    (hdb : middle.db = store.db) (hclock : middle.clock ≤ t)
    (hrange : InRange t) (hmarshal : ∀ n, ∃ value, codec.marshal n = .ok value)
    (key : GoString) (current delta : Int64) {ttl : Duration}
    (hfits : 0 < ttl.toInt → t + ttl.toInt < 2 ^ 63) :
    (incrStore codec key current delta ttl).Ends machine t middle
      fun result after => after.clock ≤ t ∧
        StoreResult.counter result =
          (cellCount codec t current delta ttl).1 ∧
        after.contents = Function.update store.contents key
          (cellCount codec t current delta ttl).2 := by
  obtain ⟨value, hvalue⟩ := hmarshal (current + delta)
  simp only [incrStore, cellCount, hvalue]
  apply Prog.ends_bind
  apply encode_ends hclock hrange hfits
  intro raw after hticks hraw
  apply Prog.ends_perform rfl
  apply Prog.ends_perform rfl
  have hwritten : ∀ final : PebbleStore,
      final.db = after.db.insert key raw →
      final.contents = Function.update store.contents key
        (some ⟨value, deadlineOf t ttl⟩) := by
    intro final hfinal
    rw [hticks.db_eq, hdb] at hfinal
    rw [contents_insert store final hfinal, hraw]
  by_cases hnew : (after.db.lookup key).isNone = true
  · simp only [hnew, if_true]
    apply Prog.ends_perform rfl
    apply Prog.ends_ret
    exact ⟨hticks.clock_le, rfl, hwritten _ rfl⟩
  · simp only [hnew]
    apply Prog.ends_ret
    exact ⟨hticks.clock_le, rfl, hwritten _ rfl⟩

theorem incrLocked_ends {store middle : PebbleStore} {t : ℤ}
    (hdb : middle.db = store.db) (hclock : middle.clock ≤ t)
    (hrange : InRange t) {codec : Msgpack}
    (hmarshal : ∀ n, ∃ value, codec.marshal n = .ok value) (key : GoString)
    (delta : Int64) {ttl : Duration}
    (hfits : (∀ r, store.contents key = some r → r.dead t = true) →
      0 < ttl.toInt → t + ttl.toInt < 2 ^ 63) :
    (incrLocked codec key delta ttl).Ends machine t middle
      fun result after => after.clock ≤ t ∧
        StoreResult.counter result =
          (cellStep codec (.instant t) (.incr key delta ttl)
            (store.contents key)).1 ∧
        after.contents = Function.update store.contents key
          (cellStep codec (.instant t) (.incr key delta ttl)
            (store.contents key)).2 := by
  apply Prog.ends_perform rfl
  rw [hdb]
  cases hlookup : store.db.lookup key with
  | none =>
    have hcell := contents_of_none hlookup
    rw [hcell] at hfits ⊢
    exact incrStore_ends hdb hclock hrange hmarshal key 0 delta
      (hfits (by simp))
  | some raw =>
    have hcell := contents_of_some hlookup
    rw [hcell] at hfits ⊢
    apply Prog.ends_bind
    apply isExpired_ends hclock hrange
    intro after hticks
    simp only [cellStep, Readings.instant_now]
    by_cases hdead : (recordOf raw).dead t = true
    · simp only [hdead, if_true]
      apply Prog.ends_perform rfl
      refine incrStore_ends ?_ ?_ hrange hmarshal key 0 delta ?_
      · exact hticks.db_eq.trans hdb
      · exact hticks.clock_le
      · exact hfits (by simpa using hdead)
    · simp only [hdead, Bool.false_eq_true, if_false]
      have hvalue : (recordOf raw).value = (decode raw).1 := rfl
      rw [hvalue]
      cases codec.unmarshal (decode raw).1 with
      | error err =>
        apply Prog.ends_ret
        refine ⟨hticks.clock_le, rfl, ?_⟩
        have hsame : middle.contents = store.contents := by
          unfold contents
          rw [hdb]
        change after.contents =
          Function.update store.contents key (some (recordOf raw))
        rw [hticks.contents_eq, hsame, ← hcell, Function.update_eq_self]
      | ok current =>
        apply Prog.ends_bind
        apply preservedTTL_ends hticks.clock_le
        intro final hfinal
        exact incrStore_ends
          (hfinal.db_eq.trans (hticks.db_eq.trans hdb))
          hfinal.clock_le hrange hmarshal key current delta
          (cellPreservedTTL_fits hrange)

theorem incr_followsCell (hready : store.ReadyAt t) (hrange : InRange t)
    (hmarshal : ∀ n, ∃ value, codec.marshal n = .ok value) (key : GoString)
    (delta : Int64) {ttl : Duration}
    (hfits : (∀ r, store.contents key = some r → r.dead t = true) →
      0 < ttl.toInt → t + ttl.toInt < 2 ^ 63) :
    (incr codec key delta ttl).Ends machine t store fun result after =>
      FollowsCell store t key
        (cellStep codec (.instant t) (.incr key delta ttl)
          (store.contents key)) (.counter result) after := by
  have hlock : machine.exec store .lock t =
      some ((), { store with locked := true }) := by
    simp [machine, exec, hready.unlocked]
  apply Prog.ends_perform hlock
  apply Prog.ends_bind
  obtain ⟨result, after, hsolo, hclock, hresult, hcontents⟩ :=
    @incrLocked_ends store { store with locked := true } t rfl
      hready.clock_le hrange codec hmarshal key delta ttl hfits
  refine ⟨result, after, hsolo, ?_⟩
  apply Prog.ends_perform rfl
  apply Prog.ends_ret
  exact ⟨⟨rfl, hclock⟩, hresult, hcontents⟩

/-! ## Sweeps -/

def expiredRaw (now : Int64) (raw : Bytes) : Bool :=
  decide ((decode raw).2 ≠ 0 ∧ (decode raw).2 < now)

theorem expiredEntries_eq (now : Int64) (entries : List (GoString × Bytes)) :
    expiredEntries now entries =
      (entries.filter fun entry => expiredRaw now entry.2).map
        fun entry => (entry.1, (decode entry.2).1) := by
  induction entries with
  | nil => rfl
  | cons entry rest ih =>
    simp only [expiredEntries] at ih
    by_cases hshort : entry.2.length < 8
    · have hlive : expiredRaw now entry.2 = false := by
        simp [expiredRaw, decode, hshort]
      simp [expiredEntries, hshort, hlive, ih]
    · have hdecode : decode entry.2 =
          (entry.2.drop 8, readInt64 (entry.2.take 8)) := by
        simp [decode, hshort]
      by_cases hexpired : readInt64 (entry.2.take 8) ≠ 0 ∧
          readInt64 (entry.2.take 8) < now
      · simp [expiredEntries, expiredRaw, hshort, hdecode, hexpired, ih]
      · simp [expiredEntries, expiredRaw, hshort, hdecode, hexpired, ih]

theorem mem_expiredEntries {now : Int64} {entries : List (GoString × Bytes)}
    {key : GoString} :
    key ∈ (expiredEntries now entries).map Prod.fst ↔
      ∃ raw, (key, raw) ∈ entries ∧ expiredRaw now raw = true := by
  simp [expiredEntries_eq]

theorem mem_snapshot :
    (key, raw) ∈ store.snapshot ↔ store.db.lookup key = some raw := by
  rw [← Option.mem_def, AList.mem_lookup_iff, snapshot, List.mem_map]
  constructor
  · rintro ⟨entry, hmem, heq⟩
    cases heq
    exact hmem
  · intro hmem
    exact ⟨_, hmem, rfl⟩

theorem expiredEntries_length (hrange : InRange t) (store : PebbleStore)
    (route : GoString → ℕ) :
    (expiredEntries (unixNano t) store.snapshot).length =
      (sweptKeys route (.instant t) store.contents).ncard := by
  have hkeys : sweptKeys route (.instant t) store.contents =
      { key | ∃ raw, store.db.lookup key = some raw ∧
        expiredRaw (unixNano t) raw = true } := by
    ext key
    simp [sweptKeys, contents, recordOf_dead hrange, expiredRaw]
  rw [hkeys, ← length_filter_entries store.db, expiredEntries_eq,
    List.length_map, snapshot, List.filter_map, List.length_map]
  rfl

theorem contents_of_swept (hrange : InRange t) {store after : PebbleStore}
    (hlookup : ∀ key, after.db.lookup key =
      if key ∈ (expiredEntries (unixNano t) store.snapshot).map Prod.fst
      then none else store.db.lookup key) :
    after.contents = fun key =>
      (store.contents key).filter fun r => !r.dead t := by
  funext key
  simp only [contents, hlookup key]
  cases hstored : store.db.lookup key with
  | none => simp
  | some raw =>
    have hmem : key ∈ (expiredEntries (unixNano t) store.snapshot).map
        Prod.fst ↔ (recordOf raw).dead t = true := by
      rw [mem_expiredEntries, recordOf_dead hrange]
      simp [mem_snapshot, hstored, expiredRaw]
    by_cases hdead : (recordOf raw).dead t = true
    · simp [hmem.mpr hdead, Option.filter, hdead]
    · simp [mt hmem.mp hdead, Option.filter, hdead]

theorem fireAll_ends (expired : List (GoString × Bytes)) (store : PebbleStore)
    {post : Unit → PebbleStore → Prop}
    (hpost : ∀ fired, post () { store with fired := fired }) :
    (fireAll expired).Ends machine t store post := by
  induction expired generalizing store with
  | nil => exact Prog.ends_ret (hpost store.fired)
  | cons entry rest ih =>
    apply Prog.ends_perform rfl
    apply ih
    exact hpost

theorem deleteExpired_ends (hready : store.ReadyAt t) (hrange : InRange t)
    (route : GoString → ℕ) :
    deleteExpired.Ends machine t store fun count after =>
      after.ReadyAt t ∧
        count = (sweptKeys route (.instant t) store.contents).ncard ∧
        after.contents = fun key =>
          (store.contents key).filter fun r => !r.dead t := by
  let expired := expiredEntries (unixNano t) store.snapshot
  have hcount := expiredEntries_length hrange store route
  apply Prog.ends_perform (exec_now hready.clock_le)
  apply Prog.ends_perform rfl
  change Prog.Ends machine t (if expired.length = 0 then _ else _) _ _
  by_cases hempty : expired.length = 0
  · rw [if_pos hempty]
    apply Prog.ends_ret
    refine ⟨⟨hready.unlocked, le_rfl⟩, hempty.symm.trans hcount, ?_⟩
    apply contents_of_swept hrange
    intro key
    change _ = if key ∈ expired.map Prod.fst then none else _
    simp [List.length_eq_zero_iff.mp hempty]
  · rw [if_neg hempty]
    apply Prog.ends_perform rfl
    apply Prog.ends_perform rfl
    apply Prog.ends_perform rfl
    have hdone : ∀ after : PebbleStore, after.locked = store.locked →
        after.clock = t →
        after.db = (expired.map Prod.fst).foldl
          (fun db key => db.erase key) store.db →
        after.ReadyAt t ∧ expired.length =
            (sweptKeys route (.instant t) store.contents).ncard ∧
          after.contents = fun key =>
            (store.contents key).filter fun r => !r.dead t := by
      intro after hlocked hclock hdb
      refine ⟨⟨hlocked.trans hready.unlocked, hclock.le⟩, hcount, ?_⟩
      apply contents_of_swept hrange
      intro key
      rw [hdb, commit_lookup]
    by_cases hcallback : store.onExpire = true
    · simp only [hcallback, if_true]
      apply Prog.ends_bind
      apply fireAll_ends
      intro fired
      apply Prog.ends_ret
      exact hdone _ rfl rfl rfl
    · simp only [hcallback]
      apply Prog.ends_ret
      exact hdone _ rfl rfl rfl

/-! ## The store is the ledger -/

/-- The calls at `t` that treat deadlines exactly: a written deadline stays
below `2^63` nanoseconds, and TTL is not called at the very instant of a
deadline. -/
def Exact (contents : Contents GoString Bytes) (t : ℤ) : StoreOp → Prop
  | .set _ _ ttl => 0 < ttl.toInt → t + ttl.toInt < 2 ^ 63
  | .incr key _ ttl =>
    (∀ r, contents key = some r → r.dead t = true) →
      0 < ttl.toInt → t + ttl.toInt < 2 ^ 63
  | .ttl key => ∀ r, contents key = some r → r.deadline ≠ some t
  | _ => True

theorem FollowsCell.ledger {store after : PebbleStore} {op : StoreOp}
    {result : StoreResult} (hkey : op.key? = some key)
    (hcell : FollowsCell store t key
      (cellStep codec (.instant t) op (store.contents key)) result after)
    (route : GoString → ℕ) :
    after.ReadyAt t ∧
      result = (ledgerStep codec route store.contents (.instant t, op)).1 ∧
      after.contents =
        (ledgerStep codec route store.contents (.instant t, op)).2 := by
  simp only [ledgerStep, hkey]
  exact ⟨hcell.ready, hcell.result_eq, hcell.contents_eq⟩

/-- Every call of the store, alone and at one instant, ends and is the same
call on the ledger. -/
theorem call_ledger (hready : store.ReadyAt t) (hrange : InRange t)
    (hmarshal : ∀ n, ∃ value, codec.marshal n = .ok value)
    (route : GoString → ℕ) {op : StoreOp} (hexact : Exact store.contents t op) :
    (call codec op).Ends machine t store fun result after =>
      after.ReadyAt t ∧
        result = (ledgerStep codec route store.contents (.instant t, op)).1 ∧
        after.contents =
          (ledgerStep codec route store.contents (.instant t, op)).2 := by
  cases op with
  | get key =>
    obtain ⟨found, after, hsolo, hcell⟩ :=
      get_followsCell hready hrange codec key
    exact Prog.ends_map ⟨found, after, hsolo, hcell.ledger rfl route⟩
  | set key value ttl =>
    obtain ⟨written, after, hsolo, hcell⟩ :=
      set_followsCell hready hrange codec key value hexact
    exact Prog.ends_map ⟨written, after, hsolo, hcell.ledger rfl route⟩
  | delete key =>
    obtain ⟨ok, after, hsolo, hcell⟩ :=
      delete_followsCell hready codec key
    exact Prog.ends_map ⟨ok, after, hsolo, hcell.ledger rfl route⟩
  | «exists» key =>
    obtain ⟨found, after, hsolo, hcell⟩ :=
      exists_followsCell hready hrange codec key
    exact Prog.ends_map ⟨found, after, hsolo, hcell.ledger rfl route⟩
  | ttl key =>
    obtain ⟨remaining, after, hsolo, hcell⟩ :=
      ttl_followsCell hready codec key hexact
    exact Prog.ends_map ⟨remaining, after, hsolo, hcell.ledger rfl route⟩
  | incr key delta ttl =>
    obtain ⟨result, after, hsolo, hcell⟩ :=
      incr_followsCell hready hrange hmarshal key delta hexact
    exact Prog.ends_map ⟨result, after, hsolo, hcell.ledger rfl route⟩
  | deleteExpired =>
    obtain ⟨count, after, hsolo, hready', hcount, hcontents⟩ :=
      deleteExpired_ends hready hrange route
    exact Prog.ends_map ⟨count, after, hsolo, hready',
      congrArg StoreResult.removed hcount, hcontents⟩

end PebbleStore

end CacheGrid
