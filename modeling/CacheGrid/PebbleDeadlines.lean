import CacheGrid.PebbleRecords

/-!
# Deadlines as the calls have computed them

The disk store keeps the `UnixNano` of a deadline, which is defined between the
years 1678 and 2262 only.  So the deadlines that the calls of a run have
computed are carried beside the store.  They take no part in the calls; in
every reachable state the records carry their `UnixNano`.
-/

namespace CacheGrid

open InterleavedPrograms SequentialRuns TimedMap

def past (deadline : Option ℤ) (now : ℤ) : Bool :=
  match deadline with
  | none => false
  | some deadline => decide (deadline < now)

namespace PebbleStore

/-- The eight bytes of a deadline; zero is for none. -/
def nanoOf : Option ℤ → Int64
  | none => 0
  | some deadline => unixNano deadline

/-- Every record carries the `UnixNano` of the deadline of its key. -/
def Dated (store : PebbleStore) (due : GoString → Option ℤ) : Prop :=
  ∀ key raw, store.db.lookup key = some raw → (decode raw).2 = nanoOf (due key)

/-- The deadline that an Incr which succeeds computes for its counter. -/
def incrDeadline (store : PebbleStore) (clock : Readings) (key : GoString)
    (defaultTTL : Duration) : Option ℤ :=
  match store.db.lookup key with
  | none => deadlineOf (clock.now 0) defaultTTL
  | some raw =>
    if expiredRaw (unixNano (clock.now 0)) raw then
      deadlineOf (clock.now 1) defaultTTL
    else
      deadlineOf (clock.now 2) (preservedAt (decode raw).2 (clock.now 1))

/-- What the call returns, unless its clock is behind the clock of the
store. -/
def returned? (codec : Msgpack) (store : PebbleStore)
    (call : Readings × StoreOp) : Option StoreResult :=
  ((PebbleStore.call codec call.2).alone machine readsClock call.1.now
    { store with fired := [] }).map Prod.fst

def dueAfter (codec : Msgpack) (store : PebbleStore)
    (due : GoString → Option ℤ) (call : Readings × StoreOp) :
    GoString → Option ℤ :=
  match call.2, returned? codec store call with
  | .set key _ ttl, some _ =>
    Function.update due key (deadlineOf (call.1.now 0) ttl)
  | .incr key _ defaultTTL, some (.counter (.ok _)) =>
    Function.update due key (store.incrDeadline call.1 key defaultTTL)
  | _, _ => due

/-- A call on the store, beside which the exact deadlines are kept. -/
def datedStep (codec : Msgpack)
    (state : PebbleStore × (GoString → Option ℤ))
    (call : Readings × StoreOp) :
    (StoreResult × List Callback) × PebbleStore × (GoString → Option ℤ) :=
  let next := (impl codec).call state.1 call
  (next.1, next.2, dueAfter codec state.1 state.2 call)

/-- The deadlines that an opened database carries. -/
def storedDeadlines (db : AList fun _ : GoString => Bytes) (key : GoString) :
    Option ℤ :=
  (db.lookup key).bind fun raw => (recordOf raw).deadline

theorem run_datedStep_store (codec : Msgpack) (store : PebbleStore)
    (due : GoString → Option ℤ) (calls : List (Readings × StoreOp)) :
    (run (datedStep codec) (store, due) calls).2.1 =
      (run (impl codec).call store calls).2 := by
  induction calls generalizing store due with
  | nil => rfl
  | cons call calls ih => exact ih _ _

theorem dated_opened (db : AList fun _ : GoString => Bytes) (onExpire : Bool)
    (start : ℤ) : Dated (opened db onExpire start) (storedDeadlines db) := by
  intro key raw hraw
  have hraw' : db.lookup key = some raw := hraw
  by_cases hzero : (decode raw).2 = 0
  · simp [storedDeadlines, hraw', recordOf, hzero, nanoOf]
  · simp [storedDeadlines, hraw', recordOf, hzero, nanoOf, unixNano]

theorem nano_encodedAt (value : Bytes) (ttl : Duration) (now : ℤ) :
    (decode (encodedAt value ttl now)).2 = nanoOf (deadlineOf now ttl) := by
  rw [encodedAt, decode_pack]
  by_cases hpos : 0 < ttl
  · have hpositive := (Duration.pos_iff ttl).mp hpos
    simp [deadlineOf, hpos, hpositive, nanoOf, addDuration]
  · have hnonpos := mt (Duration.pos_iff ttl).mpr hpos
    simp [deadlineOf, hpos, hnonpos, nanoOf]

section Steps

variable {codec : Msgpack} {store after : PebbleStore}
  {due : GoString → Option ℤ} {clock : Readings} {rest : ℕ → ℤ}
  {key : GoString}

theorem Dated.insert (hdated : store.Dated due) {raw : Bytes}
    {deadline : Option ℤ} (hraw : (decode raw).2 = nanoOf deadline)
    (hdb : after.db = store.db.insert key raw) :
    after.Dated (Function.update due key deadline) := by
  intro other stored hstored
  rw [hdb] at hstored
  by_cases hkey : other = key
  · subst hkey
    rw [AList.lookup_insert] at hstored
    obtain rfl := Option.some.inj hstored
    rw [Function.update_self]
    exact hraw
  · rw [AList.lookup_insert_ne hkey] at hstored
    rw [Function.update_of_ne hkey]
    exact hdated other stored hstored

theorem Dated.commit (hdated : store.Dated due) (deleted : List GoString)
    (hdb : after.db = deleted.foldl (fun db key => db.erase key) store.db) :
    after.Dated due := by
  intro other stored hstored
  rw [hdb, commit_lookup] at hstored
  split at hstored
  · contradiction
  · exact hdated other stored hstored

theorem Dated.read (hdated : store.Dated due) {op : StoreOp}
    (hread : op.reads = true) (heffect : Effect codec clock.now store op after) :
    after.Dated due := by
  cases heffect with
  | kept _ hafter => exact hdated.commit [] hafter.db_eq
  | dropped _ _ _ _ hafter => exact hdated.commit [_] hafter.db_eq
  | deleted _ _ => contradiction
  | written _ hread' _ => simp [hread] at hread'
  | miscounted _ _ _ _ _ => contradiction
  | swept _ => contradiction

/-- A failed Incr leaves the database alone, another one writes a record with
the `UnixNano` of the deadline it computes. -/
theorem alone_incrLocked_dated {delta : Int64} {defaultTTL : Duration}
    {result : Except GoString Int64}
    (halone : (incrLocked codec key delta defaultTTL).alone machine readsClock
      clock.now store = some (result, rest, after)) :
    (∃ err, result = .error err ∧ after.db = store.db) ∨
    ∃ n raw, result = .ok n ∧
      (decode raw).2 = nanoOf (store.incrDeadline clock key defaultTTL) ∧
      after.db = store.db.insert key raw := by
  unfold incrDeadline
  cases hraw : store.db.lookup key with
  | none =>
    rcases alone_incrLocked_absent hraw halone with
      ⟨err, hresult, hafter⟩ | ⟨value, hresult, hafter⟩
    · exact Or.inl ⟨err, hresult, hafter.db_eq⟩
    · exact Or.inr ⟨_, _, hresult, nano_encodedAt _ _ _, hafter.db_eq⟩
  | some raw =>
    cases hexpired : expiredRaw (unixNano (clock.now 0)) raw with
    | true =>
      rcases alone_incrLocked_expired hraw hexpired halone with
        ⟨err, hresult, hafter⟩ | ⟨value, hresult, hafter⟩
      · exact Or.inl ⟨err, hresult, hafter.db_eq⟩
      · refine Or.inr ⟨_, _, hresult, ?_, hafter.db_eq⟩
        simp only [hexpired, if_true]
        exact nano_encodedAt _ _ _
    | false =>
      rcases alone_incrLocked_live hraw hexpired halone with
        ⟨err, hresult, hafter⟩ |
        ⟨_, value, now, _, _, hresult, hnow, hafter⟩
      · exact Or.inl ⟨err, hresult, hafter.db_eq⟩
      · refine Or.inr ⟨_, _, hresult, ?_, hafter.db_eq⟩
        simp only [hexpired, Bool.false_eq_true, if_false]
        rw [nano_encodedAt]
        -- without a deadline the clock is not read again
        by_cases hzero : (decode raw).2 = 0
        · simp [preservedAt, hzero, deadlineOf]
        · rw [hnow hzero]

theorem Dated.call (hdated : store.Dated due) {op : StoreOp}
    {result : StoreResult}
    (halone : (PebbleStore.call codec op).alone machine readsClock clock.now
      { store with fired := [] } = some (result, rest, after)) :
    after.Dated (dueAfter codec store due (clock, op)) := by
  have heffect := call_effect halone
  have hstart : Dated { store with fired := [] } due := hdated
  have hreturned : returned? codec store (clock, op) = some result := by
    rw [returned?, halone]
    rfl
  unfold dueAfter
  rw [hreturned]
  cases op with
  | get key => exact hstart.read rfl heffect
  | «exists» key => exact hstart.read rfl heffect
  | ttl key => exact hstart.read rfl heffect
  | set key value ttl =>
    obtain ⟨_, hset⟩ := Prog.exists_of_alone_map halone
    exact hdated.insert (nano_encodedAt _ _ _) (alone_set hset).db_eq
  | delete key =>
    obtain ⟨_, hdelete⟩ := Prog.exists_of_alone_map halone
    rcases alone_delete hdelete with hafter | ⟨_, _, hafter⟩
    · exact hdated.commit [] hafter.db_eq
    · exact hdated.commit [key] hafter.db_eq
  | incr key delta defaultTTL =>
    obtain ⟨outcome, rfl, hincr⟩ := Prog.exists_eq_of_alone_map halone
    obtain ⟨_, middle, hlocked, rfl⟩ := alone_incr hincr
    rcases alone_incrLocked_dated hlocked with
      ⟨err, rfl, hdb⟩ | ⟨n, raw, rfl, hraw, hdb⟩
    · exact hdated.commit [] hdb
    · exact hdated.insert hraw hdb
  | deleteExpired =>
    obtain ⟨_, hsweep⟩ := Prog.exists_of_alone_map halone
    exact hdated.commit _ (alone_deleteExpired hsweep).2.db_eq

end Steps

theorem Dated.datedStep {codec : Msgpack}
    {state : PebbleStore × (GoString → Option ℤ)}
    (hdated : state.1.Dated state.2) (call : Readings × StoreOp) :
    (PebbleStore.datedStep codec state call).2.1.Dated
      (PebbleStore.datedStep codec state call).2.2 := by
  obtain ⟨clock, op⟩ := call
  cases halone : (PebbleStore.call codec op).alone machine readsClock clock.now
      { state.1 with fired := [] } with
  | none =>
    have hreturned : returned? codec state.1 (clock, op) = none := by
      rw [returned?, halone]
      rfl
    have hstore : ((impl codec).call state.1 (clock, op)).2 = state.1 := by
      simp only [impl, halone]
    have hdue : dueAfter codec state.1 state.2 (clock, op) = state.2 := by
      unfold dueAfter
      rw [hreturned]
      cases op <;> rfl
    simp only [PebbleStore.datedStep, hstore, hdue]
    exact hdated
  | some outcome =>
    obtain ⟨result, rest, after⟩ := outcome
    have hstore : ((impl codec).call state.1 (clock, op)).2 = after := by
      simp only [impl, halone]
    simp only [PebbleStore.datedStep, hstore]
    exact hdated.call halone

/-- In every reachable state the records carry the deadlines of the run. -/
theorem dated_run (codec : Msgpack) (db : AList fun _ : GoString => Bytes)
    (onExpire : Bool) (start : ℤ) (calls : List (Readings × StoreOp)) :
    (run (impl codec).call (opened db onExpire start) calls).2.Dated
      (run (datedStep codec) (opened db onExpire start, storedDeadlines db)
        calls).2.2 := by
  rw [← run_datedStep_store codec _ (storedDeadlines db)]
  exact run_invariant
    (fun state : PebbleStore × (GoString → Option ℤ) =>
      state.1.Dated state.2)
    (fun _ call hdated => hdated.datedStep call)
    (dated_opened db onExpire start) calls

/-- `UnixNano` compares the deadline with the clock as the instants do, and
does not make it zero, which stands for no deadline. -/
def ComparesAlike (deadline now : ℤ) : Prop :=
  unixNano deadline ≠ 0 ∧ unixNano deadline < unixNano now ↔ deadline < now

theorem comparesAlike_of_inRange {deadline now : ℤ} (hpos : 0 < deadline)
    (hupper : deadline < 2 ^ 63) (hnow : InRange now) :
    ComparesAlike deadline now := by
  have hdeadline := InRange.toInt_unixNano ⟨hpos.le, hupper⟩
  have hne : unixNano deadline ≠ 0 := by
    intro hzero
    rw [hzero, Int64.toInt_zero] at hdeadline
    omega
  rw [ComparesAlike, Int64.lt_iff_toInt_lt, hdeadline, hnow.toInt_unixNano]
  exact and_iff_right hne

theorem Dated.expiredRaw_eq_past_iff {store : PebbleStore}
    {due : GoString → Option ℤ} (hdated : store.Dated due) {key : GoString}
    {raw : Bytes} (hraw : store.db.lookup key = some raw) (now : ℤ) :
    expiredRaw (unixNano now) raw = past (due key) now ↔
      ∀ deadline, due key = some deadline → ComparesAlike deadline now := by
  rw [Bool.eq_iff_iff, expiredRaw, hdated key raw hraw, decide_eq_true_iff]
  cases hdue : due key with
  | none => simp [nanoOf, past]
  | some deadline => simp [nanoOf, past, ComparesAlike]

end PebbleStore

end CacheGrid
