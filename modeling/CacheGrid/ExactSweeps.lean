import CacheGrid.ExpiryCallbacks

/-!
# Sweeps are exact

A sweep at an instant takes out the entries whose deadline is before it,
returns how many they are, reports each once, and leaves the others as they
are.  The memory store keeps a deadline as it was computed and its sweep is
exact in every reachable state.  The disk store keeps the `UnixNano` of it,
which is defined between the years 1678 and 2262 only.  So the deadlines that
the calls of a run have computed are carried beside the store, and the sweep
is exact if and only if `UnixNano` compares each of them with the clock as
the instants themselves compare.
-/

namespace CacheGrid

open InterleavedPrograms SequentialRuns TimedMap

/-- A sweep of the map `before` in which an entry is expired by the test
`expired`. -/
structure SweepsOut {E : Type} (expired : GoString → E → Bool)
    (value : E → Bytes) (onExpire : Bool) (before after : GoString → Option E)
    (count : ℕ) (callbacks : List Callback) : Prop where
  left : ∀ key, after key = (before key).filter fun e => !expired key e
  count_eq : count =
    Set.ncard { key | ∃ e, before key = some e ∧ expired key e = true }
  nodup : ((expirations callbacks).map Prod.fst).Nodup
  reported : ∀ key data, (key, data) ∈ expirations callbacks ↔
    onExpire = true ∧
      ∃ e, before key = some e ∧ expired key e = true ∧ value e = data

section SweepsOut

variable {E : Type} {expired expired' : GoString → E → Bool}
  {value : E → Bytes} {onExpire : Bool} {before after : GoString → Option E}
  {count : ℕ} {callbacks : List Callback}

theorem SweepsOut.congr
    (hsweeps : SweepsOut expired value onExpire before after count callbacks)
    (hagree : ∀ key e, before key = some e →
      expired key e = expired' key e) :
    SweepsOut expired' value onExpire before after count callbacks where
  left key := by
    rw [hsweeps.left]
    cases hbefore : before key with
    | none => rfl
    | some e => simp only [Option.filter, hagree key e hbefore]
  count_eq := by
    rw [hsweeps.count_eq]
    congr 1
    ext key
    refine exists_congr fun e => and_congr_right fun hbefore => ?_
    rw [hagree key e hbefore]
  nodup := hsweeps.nodup
  reported key data := by
    rw [hsweeps.reported]
    refine and_congr_right fun _ => exists_congr fun e =>
      and_congr_right fun hbefore => ?_
    rw [hagree key e hbefore]

/-- What a sweep leaves shows its test on every entry that was there. -/
theorem SweepsOut.agree
    (hsweeps : SweepsOut expired value onExpire before after count callbacks)
    {count' : ℕ} {callbacks' : List Callback}
    (hsweeps' : SweepsOut expired' value onExpire before after count'
      callbacks')
    {key : GoString} {e : E} (hbefore : before key = some e) :
    expired key e = expired' key e := by
  have hleft := (hsweeps.left key).symm.trans (hsweeps'.left key)
  simp only [hbefore, Option.filter] at hleft
  cases hexpired : expired key e with
  | false =>
    cases hexpired' : expired' key e with
    | false => rfl
    | true => simp [hexpired, hexpired'] at hleft
  | true =>
    cases hexpired' : expired' key e with
    | false => simp [hexpired, hexpired'] at hleft
    | true => rfl

end SweepsOut

/-! ## The memory store -/

namespace Shard

variable {s : Shard}

theorem Invariant.sweepsOut (hinv : s.Invariant) (clock : Readings) :
    SweepsOut (fun _ e => past e.expiresAt (clock.now 0)) Entry.value
      s.onExpire s.items.lookup (s.deleteExpired clock).2.2.items.lookup
      (s.deleteExpired clock).1 (s.deleteExpired clock).2.1 where
  left key := by
    rw [(hinv.deleteExpired_sweeps clock).lookup]
    change (if (s.items.lookup key).any _ then none else _) = _
    cases s.items.lookup key with
    | none => rfl
    | some e =>
      have hsame : e.isExpired (clock.now 0) =
        past e.expiresAt (clock.now 0) := rfl
      cases hpast : past e.expiresAt (clock.now 0) with
      | false => simp [hsame, hpast, Option.filter]
      | true => simp [hsame, hpast, Option.filter]
  count_eq := by
    rw [(hinv.deleteExpired_sweeps clock).count]
    exact length_filter_entries s.items fun e => e.isExpired (clock.now 0)
  nodup := by
    cases honExpire : s.onExpire with
    | true => exact nodup_expirations_deleteExpired hinv honExpire clock
    | false =>
      rw [(hinv.deleteExpired_sweeps clock).callbacks_eq, honExpire]
      exact List.nodup_nil
  reported key data := by
    cases honExpire : s.onExpire with
    | false =>
      rw [(hinv.deleteExpired_sweeps clock).callbacks_eq, honExpire]
      simp [expirations]
    | true =>
      rw [mem_expirations_deleteExpired hinv honExpire clock]
      constructor
      · rintro ⟨r, hstored, hdead, hvalue⟩
        obtain ⟨e, hlookup, rfl⟩ := Option.map_eq_some_iff.mp hstored
        exact ⟨rfl, e, hlookup, hdead, hvalue⟩
      · rintro ⟨_, e, hlookup, hpast, hvalue⟩
        exact ⟨e.record, contents_of_some hlookup, hpast, hvalue⟩

theorem Invariant.elements_deleteExpired (hinv : s.Invariant)
    (clock : Readings) :
    (s.deleteExpired clock).2.2.lru.elements =
      s.lru.elements.filter fun e => !past e.expiresAt (clock.now 0) := by
  have hsweeps := hinv.deleteExpired_sweeps clock
  have hleft := (hinv.sweepsOut clock).left
  have hnodup : s.lru.elements.Nodup := .of_map _ hinv.keysNodup
  have hmem : ∀ e, e ∈ (s.deleteExpired clock).2.2.lru.elements ↔
      e ∈ s.lru.elements.filter fun e => !past e.expiresAt (clock.now 0) := by
    intro e
    have hafter := hsweeps.invariant.lookup_iff e.key e
    have hbefore := hinv.lookup_iff e.key e
    rw [hleft, Option.filter_eq_some_iff, hbefore] at hafter
    rw [List.mem_filter]
    simpa using hafter.symm
  have hperm := (List.perm_ext_iff_of_nodup (hsweeps.sublist.nodup hnodup)
    (hnodup.filter _)).mpr hmem
  have hkept : (s.deleteExpired clock).2.2.lru.elements.filter
      (fun e => !past e.expiresAt (clock.now 0)) =
        (s.deleteExpired clock).2.2.lru.elements :=
    List.filter_eq_self.mpr fun e he =>
      (List.mem_filter.mp ((hmem e).mp he)).2
  have hsublist := hsweeps.sublist.filter fun e =>
    !past e.expiresAt (clock.now 0)
  rw [hkept] at hsublist
  exact hsublist.eq_of_length hperm.length_eq

end Shard

/-! ## The disk store -/

namespace PebbleStore

theorem deleteExpired_returns {store : PebbleStore} {choices : ℕ → ℤ}
    (hclock : store.clock ≤ choices 0) :
    ∃ outcome, deleteExpired.alone machine readsClock choices store =
      some outcome := by
  unfold deleteExpired
  rw [Prog.alone_perform_bind (exec_now hclock), alone_iterate]
  simp only
  split
  · exact ⟨_, rfl⟩
  · rw [alone_commit, alone_addCount, alone_loadOnExpire]
    split
    · rw [Prog.alone_bind_of_eq (alone_fireAll _ _ _)]
      exact ⟨_, rfl⟩
    · exact ⟨_, rfl⟩

theorem length_expiredEntries (now : Int64) (store : PebbleStore) :
    (expiredEntries now store.snapshot).length =
      Set.ncard { key | ∃ raw, store.db.lookup key = some raw ∧
        expiredRaw now raw = true } := by
  rw [← length_filter_entries, expiredEntries_eq, List.length_map, snapshot,
    List.filter_map, List.length_map]
  rfl

theorem deleteExpired_sweepsOut (codec : Msgpack) {store : PebbleStore}
    {clock : Readings} (hclock : store.clock ≤ clock.now 0) :
    ∃ count, ((impl codec).call store (clock, .deleteExpired)).1.1 =
        .removed count ∧
      SweepsOut (fun _ raw => expiredRaw (unixNano (clock.now 0)) raw)
        (fun raw => (decode raw).1) store.onExpire store.db.lookup
        ((impl codec).call store (clock, .deleteExpired)).2.db.lookup count
        ((impl codec).call store (clock, .deleteExpired)).1.2 := by
  obtain ⟨⟨count, rest, after⟩, hsweep⟩ := @deleteExpired_returns
    { store with fired := [] } clock.now hclock
  obtain ⟨hcount, hdb, _, hfired⟩ := alone_deleteExpired hsweep
  have hcall : (impl codec).call store (clock, .deleteExpired) =
      ((.removed count, after.fired), after) := by
    have halone := Prog.alone_map_of_eq (f := StoreResult.removed) hsweep
    simp only [impl, PebbleStore.call, halone]
  have hexpirations : expirations after.fired = if store.onExpire then
      expiredEntries (unixNano (clock.now 0)) store.snapshot else [] := by
    rw [hfired, List.nil_append]
    cases store.onExpire with
    | true => exact expirations_sweep _ _
    | false => rfl
  rw [hcall]
  refine ⟨count, rfl, ?_, ?_, ?_, ?_⟩
  · intro key
    rw [hdb]
    exact lookup_commit_expired _ store key
  · rw [hcount]
    exact length_expiredEntries _ store
  · rw [hexpirations]
    split
    · exact (expiredEntries_sublist _ store).nodup store.db.nodupKeys
    · exact List.nodup_nil
  · intro key data
    rw [hexpirations]
    cases store.onExpire with
    | true => simp [mem_expiredEntries_raw]
    | false => simp

end PebbleStore

section Exact

open PebbleStore

/-- A sweep of a shard at any instant, in any reachable state, is exact, and
leaves the other entries in the order of their last use.  A sweep of the disk
store is exact if and only if `UnixNano` compares the deadlines with the
instant as they are.  (The instant may also be before the last reading of the
clock, which can be set back.) -/
theorem sweep_exact_iff (codec : Msgpack) :
    (∀ (maxSize : ℤ) (onEvict onExpire : Bool)
        (calls : List (Readings × StoreOp)) (clock : Readings),
      let s := (run (Shard.step codec) (.new maxSize onEvict onExpire) calls).2
      let swept := s.deleteExpired clock
      SweepsOut (fun _ e => past e.expiresAt (clock.now 0)) Entry.value
          onExpire s.items.lookup swept.2.2.items.lookup swept.1 swept.2.1 ∧
        swept.2.2.lru.elements =
          s.lru.elements.filter fun e => !past e.expiresAt (clock.now 0)) ∧
    ∀ (db : AList fun _ : GoString => Bytes) (onExpire : Bool) (start : ℤ)
        (calls : List (Readings × StoreOp)) (clock : Readings),
      let store := (run (impl codec).call (opened db onExpire start) calls).2
      let due := (run (datedStep codec)
        (opened db onExpire start, storedDeadlines db) calls).2.2
      let swept := (impl codec).call { store with clock := clock.now 0 }
        (clock, .deleteExpired)
      (∃ count, swept.1.1 = .removed count ∧
        SweepsOut (fun key _ => past (due key) (clock.now 0))
          (fun raw => (decode raw).1) onExpire store.db.lookup
          swept.2.db.lookup count swept.1.2) ↔
      ∀ key raw deadline, store.db.lookup key = some raw →
        due key = some deadline → ComparesAlike deadline (clock.now 0) := by
  constructor
  · intro maxSize onEvict onExpire calls clock
    obtain ⟨hinv, hsettings⟩ :=
      Shard.run_reachable codec maxSize onEvict onExpire calls
    have honExpire := congrArg (fun settings => settings.2.2) hsettings
    have hsweeps := hinv.sweepsOut clock
    simp only [Shard.settings] at honExpire
    rw [honExpire] at hsweeps
    exact ⟨hsweeps, hinv.elements_deleteExpired clock⟩
  · intro db onExpire start calls clock store due swept
    have hdated : store.Dated due := dated_run codec db onExpire start calls
    have honExpire : store.onExpire = onExpire :=
      run_invariant (fun s : PebbleStore => s.onExpire = onExpire)
        (fun s call hs => (impl_call_onExpire codec s call).trans hs) rfl calls
    obtain ⟨count, hremoved, hsweeps⟩ := @deleteExpired_sweepsOut codec
      { store with clock := clock.now 0 } clock le_rfl
    have hswept : SweepsOut
        (fun _ raw => expiredRaw (unixNano (clock.now 0)) raw)
        (fun raw => (decode raw).1) onExpire store.db.lookup
        swept.2.db.lookup count swept.1.2 := by
      rw [← honExpire]
      exact hsweeps
    constructor
    · rintro ⟨count', _, hexact⟩ key raw deadline hraw hdue
      exact (hdated.expiredRaw_eq_past_iff hraw _).mp
        (hswept.agree hexact hraw) deadline hdue
    · intro halike
      refine ⟨count, hremoved, hswept.congr ?_⟩
      intro key raw hraw
      exact (hdated.expiredRaw_eq_past_iff hraw _).mpr
        fun deadline hdue => halike key raw deadline hraw hdue

/-- At the start of 2025 a value is set that is to live as long as a duration
can say, until 2317.  The sweep one second later removes and reports it. -/
theorem sweep_removes_before_deadline :
    let calls := [(Readings.instant 1735689600000000000,
      StoreOp.set [107] [1] 9223372036854775807)]
    let store := (run (impl .int64).call (opened ∅ true 0) calls).2
    let due := (run (datedStep .int64) (opened ∅ true 0, storedDeadlines ∅)
      calls).2.2
    let swept := (impl .int64).call store
      (Readings.instant 1735689601000000000, .deleteExpired)
    due [107] = some 10959061636854775807 ∧
      (store.db.lookup [107]).isSome = true ∧
      swept.1 = (.removed 1, [.expire [107] [1]]) ∧
      swept.2.db.lookup [107] = none := by
  decide +kernel

end Exact

end CacheGrid
