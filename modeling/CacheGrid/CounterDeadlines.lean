import CacheGrid.PebbleCalls

/-!
# What Incr makes of a counter's deadline

Incr reads the clock three times.  The first reading decides whether the
counter is live, the second one turns its deadline into a remaining ttl, and
the third one turns that ttl into a deadline again.  A counter that is live at
the first reading and at its deadline at the second has no ttl left, which in
both stores stands for a counter that never expires.
-/

namespace CacheGrid

open InterleavedPrograms TimedMap

/-- The entry expires: no earlier than at `deadline`, and later than that by no
more than the time between the readings of the call. -/
def KeepsDeadline (deadline : ℤ) (clock : Readings) (r : Record Bytes) :
    Prop :=
  ∃ renewed ∈ r.deadline,
    deadline ≤ renewed ∧ renewed ≤ deadline + (clock.now 2 - clock.now 0)

/-- The deadline that Incr computes from its second and third reading. -/
def renewedDeadline (clock : Readings) (deadline : ℤ) : ℤ :=
  clock.now 2 + (timeSub deadline (clock.now 1)).toInt

variable {clock : Readings} {deadline : ℤ}

/-- Only a remaining time that no duration can hold moves the deadline back. -/
theorem renewedDeadline_between_iff (hbefore : clock.now 1 < deadline) :
    (deadline ≤ renewedDeadline clock deadline ∧
        renewedDeadline clock deadline ≤
          deadline + (clock.now 2 - clock.now 0)) ↔
      deadline ≤ clock.now 2 + (2 ^ 63 - 1) := by
  have h01 := clock.mono (Nat.zero_le 1)
  have h12 : clock.now 1 ≤ clock.now 2 := clock.mono (Nat.le_succ 1)
  unfold renewedDeadline
  rcases timeSub_cases deadline (clock.now 1) with h | h | h <;> omega

/-- A deadline moved by the time that has passed is found again, unless it has
become too large for an `int64`. -/
theorem unixNano_between_iff (deadline : ℤ) {elapsed bound : ℤ}
    (hdeadline : 0 < deadline) (hupper : deadline < 2 ^ 63)
    (helapsed : 0 ≤ elapsed ∧ elapsed ≤ bound) (hbound : bound < 2 ^ 63) :
    (unixNano (deadline + elapsed) ≠ 0 ∧
      deadline ≤ (unixNano (deadline + elapsed)).toInt ∧
      (unixNano (deadline + elapsed)).toInt ≤ deadline + bound) ↔
      deadline + elapsed < 2 ^ 63 := by
  by_cases hfits : deadline + elapsed < 2 ^ 63
  · have hsame := toInt_unixNano (t := deadline + elapsed) (by omega) hfits
    refine iff_of_true ⟨?_, by omega, by omega⟩ hfits
    intro hzero
    rw [hzero, Int64.toInt_zero] at hsame
    omega
  · have hwrapped : (unixNano (deadline + elapsed)).toInt < 0 := by
      have hsize : ((Int64.size : ℕ) : ℤ) = 2 ^ 64 := rfl
      rw [unixNano, Int64.toInt_ofInt, Int.bmod_def, hsize]
      split <;> omega
    exact iff_of_false (by omega) hfits

/-! ## The memory store -/

variable {key : GoString} {delta n : Int64} {codec : Msgpack}

namespace Shard

theorem CoherentAway.contents_storeLocked {s : Shard}
    (haway : s.CoherentAway key) (value : Bytes) (expiresAt : Option ℤ) :
    ((s.storeLocked key value expiresAt).2.contents key = none ∧
        0 < s.maxSize) ∨
      (s.storeLocked key value expiresAt).2.contents key =
        some ⟨value, expiresAt⟩ := by
  by_cases hlimited : 0 < s.maxSize
  · obtain ⟨kept, evicted, hevicts⟩ :=
      haway.storeLocked_evicts hlimited value expiresAt
    cases hlookup : (s.storeLocked key value expiresAt).2.items.lookup key with
    | none => exact Or.inl ⟨contents_of_none hlookup, hlimited⟩
    | some e =>
      obtain ⟨hmem, hkey⟩ := (hevicts.coherent.lookup_iff key e).mp hlookup
      have hold : e ∈ (s.pushEntry key value expiresAt).lru.elements := by
        rw [hevicts.split]
        exact List.mem_append_left _ (hevicts.elements ▸ hmem)
      -- only the newest entry has this key
      rcases List.mem_cons.mp hold with rfl | holder
      · exact Or.inr (contents_of_some hlookup)
      · exact absurd hkey (haway.detached e holder)
  · rw [storeLocked_unlimited (not_lt.mp hlimited)]
    exact Or.inr (by simp [contents, pushedEntry, Entry.record])

theorem Invariant.incr_live {s : Shard} (hinv : s.Invariant) {ttl : Duration}
    {e : Entry} (hlookup : s.items.lookup key = some e)
    (hlive : e.isExpired (clock.now 0) = false)
    (hresult : (s.incr codec clock key delta ttl).1 = .ok n) :
    ((s.incr codec clock key delta ttl).2.2.contents key = none ∧
        0 < s.maxSize) ∨
      ∃ value, (s.incr codec clock key delta ttl).2.2.contents key =
        some ⟨value, expiry (clock.now 2) (preservedTTL e (clock.now 1))⟩ := by
  have hdetached := hinv.detached_removeLocked hlookup
  simp only [Shard.incr, hlookup, hlive, Bool.false_eq_true, if_false]
    at hresult ⊢
  cases hunmarshal : codec.unmarshal e.value with
  | error err =>
    simp only [hunmarshal] at hresult
    contradiction
  | ok current =>
    simp only [hunmarshal, incrStore] at hresult ⊢
    cases hmarshal : codec.marshal (current + delta) with
    | error err =>
      simp only [hmarshal] at hresult
      contradiction
    | ok value =>
      exact (hdetached.away.contents_storeLocked value _).imp_right
        fun hstored => ⟨value, hstored⟩

theorem expiry_preservedTTL {e : Entry}
    (hdeadline : e.expiresAt = some deadline) (clock : Readings) :
    expiry (clock.now 2) (preservedTTL e (clock.now 1)) =
      if clock.now 1 < deadline then some (renewedDeadline clock deadline)
      else none := by
  have hpos := timeSub_pos_iff deadline (clock.now 1)
  by_cases hbefore : clock.now 1 < deadline
  · simp [expiry, preservedTTL, hdeadline, hpos.mpr hbefore, hbefore,
      addDuration, renewedDeadline]
  · simp [expiry, preservedTTL, hdeadline, mt hpos.mp hbefore, hbefore]

end Shard

namespace MemoryStore

theorem contents_setShard_self (m : MemoryStore) (key : GoString)
    (s : Shard) : (m.setShard key s).contents key = s.contents key := by
  have hget := setShard_getElem? m key s (m.shardIndex key)
  rw [if_pos rfl] at hget
  have hshard : (m.setShard key s).getShard key = s :=
    getShard_eq_of_getElem? hget
  unfold contents
  rw [hshard]

/-- Incr keeps the deadline if and only if the counter is still before it at
the second reading, and no further from it at the third than a duration can
say. -/
theorem incr_keepsDeadline_iff {m : MemoryStore} (hsound : m.Sound)
    {ttl : Duration} {value : Bytes}
    (hstored : m.contents key = some ⟨value, some deadline⟩)
    (hlive : clock.now 0 ≤ deadline)
    (hresult : ((impl codec).call m (clock, .incr key delta ttl)).1.1 =
      .counter (.ok n)) :
    let after := ((impl codec).call m (clock, .incr key delta ttl)).2
    (after.contents key = none → 0 < (m.getShard key).maxSize) ∧
      ∀ r, after.contents key = some r →
        (KeepsDeadline deadline clock r ↔
          clock.now 1 < deadline ∧
            deadline ≤ clock.now 2 + (2 ^ 63 - 1)) := by
  have hinv := hsound _ (m.getShard_mem key)
  obtain ⟨e, hlookup, hrecord⟩ := Option.map_eq_some_iff.mp hstored
  have hdeadline : e.expiresAt = some deadline :=
    congrArg Record.deadline hrecord
  have hnotExpired : e.isExpired (clock.now 0) = false := by
    simp [Entry.isExpired, hdeadline, hlive]
  rw [impl_call_of_key codec m clock rfl] at hresult ⊢
  have hincr := hinv.incr_live hlookup hnotExpired
    (StoreResult.counter.inj hresult)
  have hafter : (m.onShard codec key (clock, .incr key delta ttl)).2.contents
      key = ((m.getShard key).incr codec clock key delta ttl).2.2.contents key :=
    m.contents_setShard_self key _
  simp only [hafter]
  rcases hincr with ⟨hnone, hlimited⟩ | ⟨counter, hcounter⟩
  · exact ⟨fun _ => hlimited, fun r hr => by
      rw [hnone] at hr
      contradiction⟩
  · refine ⟨fun hnone => ?_, fun r hr => ?_⟩
    · rw [hcounter] at hnone
      contradiction
    · obtain rfl := Option.some.inj (hr.symm.trans hcounter)
      rw [KeepsDeadline, Shard.expiry_preservedTTL hdeadline]
      by_cases hbefore : clock.now 1 < deadline
      · simpa [hbefore] using renewedDeadline_between_iff hbefore
      · simp [hbefore]

end MemoryStore

/-! ## The disk store -/

namespace PebbleStore

theorem recordOf_encodedAt (value : Bytes) (ttl : Duration) (now : ℤ) :
    recordOf (encodedAt value ttl now) =
      ⟨value, if 0 < ttl ∧ unixNano (addDuration now ttl) ≠ 0 then
        some (unixNano (addDuration now ttl)).toInt else none⟩ := by
  unfold encodedAt
  by_cases hpos : 0 < ttl
  · simp [recordOf_pack, hpos]
  · simp [recordOf_pack, hpos]

theorem incr_live {store : PebbleStore} {ttl : Duration} {raw : Bytes}
    (hraw : store.db.lookup key = some raw) (hexpires : (decode raw).2 ≠ 0)
    (hlive : expiredRaw (unixNano (clock.now 0)) raw = false)
    (hresult : ((impl codec).call store (clock, .incr key delta ttl)).1.1 =
      .counter (.ok n)) :
    ∃ value,
      ((impl codec).call store (clock, .incr key delta ttl)).2.contents key =
        some (recordOf (encodedAt value
          (preservedAt (decode raw).2 (clock.now 1)) (clock.now 2))) := by
  unfold impl at hresult ⊢
  cases halone : (PebbleStore.call codec (.incr key delta ttl)).alone machine
      readsClock clock.now { store with fired := [] } with
  | none =>
    simp only [halone] at hresult
    contradiction
  | some outcome =>
    obtain ⟨result, rest, after⟩ := outcome
    simp only [halone] at hresult ⊢
    obtain ⟨answer, hanswer, hincr⟩ := Prog.exists_eq_of_alone_map halone
    obtain ⟨_, middle, hlocked, rfl⟩ := alone_incr hincr
    have hfound : ({ store with fired := [], locked := true } :
        PebbleStore).db.lookup key = some raw := hraw
    rcases alone_incrLocked_live hfound hlive hlocked with
      ⟨err, herr, _⟩ | ⟨_, value, now, _, _, _, hnow, hafter⟩
    · rw [← hanswer, herr] at hresult
      exact absurd (StoreResult.counter.inj hresult) (by simp)
    · refine ⟨value, ?_⟩
      rw [← hnow hexpires]
      apply contents_of_some
      change middle.db.lookup key = _
      rw [hafter.db_eq, AList.lookup_insert]

theorem deadline_encodedAt {expiresAtNano : Int64} (hexpires : expiresAtNano ≠ 0)
    (value : Bytes) (clock : Readings) :
    (recordOf (encodedAt value (preservedAt expiresAtNano (clock.now 1))
        (clock.now 2))).deadline =
      if clock.now 1 < expiresAtNano.toInt ∧
          unixNano (renewedDeadline clock expiresAtNano.toInt) ≠ 0 then
        some (unixNano (renewedDeadline clock expiresAtNano.toInt)).toInt
      else none := by
  have hpos := timeSub_pos_iff expiresAtNano.toInt (clock.now 1)
  rw [recordOf_encodedAt]
  by_cases hbefore : clock.now 1 < expiresAtNano.toInt
  · simp [preservedAt, hexpires, hpos.mpr hbefore, hbefore, addDuration,
      renewedDeadline]
  · simp [preservedAt, hexpires, mt hpos.mp hbefore, hbefore]

/-- As in memory; at readings between 1970 and 2262 the remaining time is a
duration, and the new deadline has to be an `int64` number of nanoseconds
too. -/
theorem incr_keepsDeadline_iff {store : PebbleStore} {ttl : Duration}
    {value : Bytes}
    (hstored : store.contents key = some ⟨value, some deadline⟩)
    (hfirst : 0 ≤ clock.now 0) (hlast : clock.now 2 < 2 ^ 63)
    (hlive : clock.now 0 ≤ deadline)
    (hresult : ((impl codec).call store (clock, .incr key delta ttl)).1.1 =
      .counter (.ok n)) :
    ∃ r, ((impl codec).call store (clock, .incr key delta ttl)).2.contents
        key = some r ∧
      (KeepsDeadline deadline clock r ↔
        clock.now 1 < deadline ∧
          deadline + (clock.now 2 - clock.now 1) < 2 ^ 63) := by
  have h01 := clock.mono (Nat.zero_le 1)
  have h12 : clock.now 1 ≤ clock.now 2 := clock.mono (Nat.le_succ 1)
  obtain ⟨raw, hraw, hrecord⟩ := Option.map_eq_some_iff.mp hstored
  have hdeadline : (if (decode raw).2 = 0 then none
      else some (decode raw).2.toInt) = some deadline :=
    congrArg Record.deadline hrecord
  have hexpires : (decode raw).2 ≠ 0 := by
    intro hzero
    rw [if_pos hzero] at hdeadline
    contradiction
  rw [if_neg hexpires, Option.some.injEq] at hdeadline
  have hupper := (decode raw).2.toInt_lt
  have hnotExpired : expiredRaw (unixNano (clock.now 0)) raw = false := by
    have hle : unixNano (clock.now 0) ≤ (decode raw).2 := by
      rw [Int64.le_iff_toInt_le, hdeadline,
        toInt_unixNano (by omega) (by omega)]
      exact hlive
    simp [expiredRaw, Int64.not_lt.mpr hle]
  obtain ⟨counter, hcontents⟩ := incr_live hraw hexpires hnotExpired hresult
  refine ⟨_, hcontents, ?_⟩
  rw [KeepsDeadline, deadline_encodedAt hexpires counter clock, hdeadline]
  by_cases hbefore : clock.now 1 < deadline
  · have hrenewed : renewedDeadline clock deadline =
        deadline + (clock.now 2 - clock.now 1) := by
      rw [renewedDeadline, toInt_timeSub (by omega) (by omega)]
      ring
    have helapsed : 0 ≤ clock.now 2 - clock.now 1 ∧
        clock.now 2 - clock.now 1 ≤ clock.now 2 - clock.now 0 := by omega
    have hwrapped := unixNano_between_iff deadline (by omega) (by omega)
      helapsed (by omega)
    rw [hrenewed]
    simpa [hbefore] using hwrapped
  · simp [hbefore]

end PebbleStore

/-- In both stores, a live counter that Incr writes back keeps its deadline if
and only if its second reading is before the deadline, and no conversion
between times and durations overflows. -/
theorem incr_preserves_expiration_iff (codec : Msgpack) (clock : Readings)
    (key : GoString) (delta n : Int64) (ttl : Duration) (value : Bytes)
    (deadline : ℤ) :
    (∀ m : MemoryStore, m.Sound →
      m.contents key = some ⟨value, some deadline⟩ →
      clock.now 0 ≤ deadline →
      ((MemoryStore.impl codec).call m (clock, .incr key delta ttl)).1.1 =
        .counter (.ok n) →
      let after :=
        ((MemoryStore.impl codec).call m (clock, .incr key delta ttl)).2
      (after.contents key = none → 0 < (m.getShard key).maxSize) ∧
        ∀ r, after.contents key = some r →
          (KeepsDeadline deadline clock r ↔
            clock.now 1 < deadline ∧
              deadline ≤ clock.now 2 + (2 ^ 63 - 1))) ∧
    ∀ store : PebbleStore,
      store.contents key = some ⟨value, some deadline⟩ →
      0 ≤ clock.now 0 → clock.now 2 < 2 ^ 63 → clock.now 0 ≤ deadline →
      ((PebbleStore.impl codec).call store (clock, .incr key delta ttl)).1.1 =
        .counter (.ok n) →
      ∃ r, ((PebbleStore.impl codec).call store
          (clock, .incr key delta ttl)).2.contents key = some r ∧
        (KeepsDeadline deadline clock r ↔
          clock.now 1 < deadline ∧
            deadline + (clock.now 2 - clock.now 1) < 2 ^ 63) :=
  ⟨fun _ hsound hstored hlive hresult =>
      MemoryStore.incr_keepsDeadline_iff hsound hstored hlive hresult,
    fun _ hstored hfirst hlast hlive hresult =>
      PebbleStore.incr_keepsDeadline_iff hstored hfirst hlast hlive hresult⟩

/-- A counter of five that expires at ten is raised at three. -/
theorem incr_preserves_expiration_iff_at_three :
    let value : Bytes := 0xd3 :: putInt64 5
    let m := ((MemoryStore.impl .int64).call
      (.new 1 Nat.one_pos 0 true true) (.instant 0, .incr [107] 5 10)).2
    let store := ((PebbleStore.impl .int64).call (.new true 0)
      (.instant 0, .incr [107] 5 10)).2
    m.contents [107] = some ⟨value, some 10⟩ ∧
    (∃ r, ((MemoryStore.impl .int64).call m
        (.instant 3, .incr [107] 1 0)).2.contents [107] = some r ∧
      KeepsDeadline 10 (.instant 3) r) ∧
    store.contents [107] = some ⟨value, some 10⟩ ∧
    ∃ r, ((PebbleStore.impl .int64).call store
        (.instant 3, .incr [107] 1 0)).2.contents [107] = some r ∧
      KeepsDeadline 10 (.instant 3) r := by
  intro value m store
  have hm : m.contents [107] = some ⟨value, some 10⟩ := by decide +kernel
  have hraised : ((MemoryStore.impl .int64).call m
      (.instant 3, .incr [107] 1 0)).2.contents [107] =
        some ⟨0xd3 :: putInt64 6, some 10⟩ := by
    decide +kernel
  have hstore : store.contents [107] = some ⟨value, some 10⟩ := by
    decide +kernel
  have hpreserves := incr_preserves_expiration_iff .int64 (.instant 3) [107] 1
    6 0 value 10
  have hsound : m.Sound :=
    (MemoryStore.sound_new 1 Nat.one_pos 0 true true).impl_call _ _
  refine ⟨hm, ⟨_, hraised, ?_⟩, hstore, ?_⟩
  · have hkept := (hpreserves.1 m hsound hm (by decide)
      (by decide +kernel)).2 _ hraised
    exact hkept.mpr ⟨by decide, by decide⟩
  · obtain ⟨r, hr, hkept⟩ := hpreserves.2 store hstore (by decide) (by decide)
      (by decide) (by decide +kernel)
    exact ⟨r, hr, hkept.mpr ⟨by decide, by decide⟩⟩

/-- A counter that expires at ten is raised at ten, when it is still live, and
never expires. -/
theorem incr_loses_expiration :
    let m := ((MemoryStore.impl .int64).call
      (.new 1 Nat.one_pos 0 true true) (.instant 0, .incr [107] 5 10)).2
    let store := ((PebbleStore.impl .int64).call (.new true 0)
      (.instant 0, .incr [107] 5 10)).2
    let value : Bytes := 0xd3 :: putInt64 6
    m.contents [107] = some ⟨0xd3 :: putInt64 5, some 10⟩ ∧
    ((MemoryStore.impl .int64).call m
      (.instant 10, .incr [107] 1 0)).2.contents [107] = some ⟨value, none⟩ ∧
    store.contents [107] = some ⟨0xd3 :: putInt64 5, some 10⟩ ∧
    ((PebbleStore.impl .int64).call store
      (.instant 10, .incr [107] 1 0)).2.contents [107] =
        some ⟨value, none⟩ := by
  decide +kernel

end CacheGrid
