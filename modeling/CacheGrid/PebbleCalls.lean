import CacheGrid.StoreLaws
import CacheGrid.PebbleLedger

/-!
# What a call on the disk store does

Every method of the disk store, run alone along any clock readings, has one
of a few effects on the database, the counter of records and the callbacks:
it leaves them alone, drops a record that it finds expired, deletes or writes
one, or sweeps.  Incr has an effect of its own on a counter that it finds
expired: it takes one off the number of records, does not remove the record,
and finds it there when it writes.
-/

namespace CacheGrid

open InterleavedPrograms

namespace PebbleStore

def readsClock : PebbleOp → Bool
  | .now => true
  | _ => false

/-- A disk store as the store of a cache.  A call runs alone; one that cannot
run, since its clock is behind the clock of the store, leaves the store as it
is. -/
def impl (codec : Msgpack) : StoreImpl PebbleStore where
  call := fun store call =>
    match (PebbleStore.call codec call.2).alone machine readsClock
      call.1.now { store with fired := [] } with
    | none => ((.done, []), store)
    | some (result, _, after) => ((result, after.fired), after)

theorem impl_call_cases (codec : Msgpack) (store : PebbleStore)
    (clock : Readings) (op : StoreOp) :
    (impl codec).call store (clock, op) = ((.done, []), store) ∨
      ∃ result rest after,
        (PebbleStore.call codec op).alone machine readsClock clock.now
          { store with fired := [] } = some (result, rest, after) ∧
        (impl codec).call store (clock, op) =
          ((result, after.fired), after) := by
  unfold impl
  cases halone : (PebbleStore.call codec op).alone machine readsClock
      clock.now { store with fired := [] } with
  | none => exact Or.inl (by simp [halone])
  | some outcome =>
    obtain ⟨result, rest, after⟩ := outcome
    exact Or.inr ⟨result, rest, after, rfl, by simp [halone]⟩

theorem exec_onExpire {store after : PebbleStore} {op : PebbleOp}
    {reading : ℤ} {answer : op.Answer}
    (hexec : store.exec op reading = some (answer, after)) :
    after.onExpire = store.onExpire := by
  cases op with
  | now =>
    obtain ⟨_, _, rfl⟩ := exec_now_eq hexec
    rfl
  | lock =>
    obtain ⟨_, rfl⟩ := exec_lock_eq hexec
    rfl
  | _ =>
    cases hexec
    rfl

theorem impl_call_onExpire (codec : Msgpack) (store : PebbleStore)
    (call : Readings × StoreOp) :
    ((impl codec).call store call).2.onExpire = store.onExpire := by
  obtain ⟨clock, op⟩ := call
  rcases impl_call_cases codec store clock op with hsame |
    ⟨result, rest, after, halone, hcall⟩
  · rw [hsame]
  · rw [hcall]
    have hstart : ({ store with fired := [] } : PebbleStore).onExpire =
      store.onExpire := rfl
    refine (Prog.performs_trivial _).alone_invariant
      (fun s : PebbleStore => s.onExpire = store.onExpire) ?_ hstart halone
    intro middle op reading answer next hmiddle _ hexec
    exact ⟨trivial, (exec_onExpire hexec).trans hmiddle⟩

theorem alone_fireAll (entries : List (GoString × Bytes))
    (choices : ℕ → ℤ) (store : PebbleStore) :
    (fireAll entries).alone machine readsClock choices store =
      some ((), choices, { store with
        fired := store.fired ++
          entries.map fun entry => .expire entry.1 entry.2 }) := by
  induction entries generalizing store with
  | nil => simp [fireAll]
  | cons entry rest ih =>
    unfold fireAll
    rw [Prog.alone_perform_bind rfl]
    simp [ih, readsClock]

/-- The parts of a store that a call may change, apart from its clock. -/
structure Has (after : PebbleStore) (db : AList fun _ : GoString => Bytes)
    (count : Int64) (fired : List Callback) : Prop where
  db_eq : after.db = db
  count_eq : after.count = count
  fired_eq : after.fired = fired

def Ticked (store after : PebbleStore) : Prop :=
  ∃ clock, after = { store with clock := clock }

theorem Ticked.refl (store : PebbleStore) : Ticked store store :=
  ⟨store.clock, rfl⟩

/-- The test of the methods that find a record: past its deadline, for TTL
also at the deadline. -/
def lapsedFor (op : StoreOp) (raw : Bytes) (now : ℤ) : Prop :=
  match op with
  | .ttl _ => (decode raw).2 ≠ 0 ∧ (decode raw).2.toInt ≤ now
  | _ => expiredRaw (unixNano now) raw = true

inductive Effect (codec : Msgpack) (choices : ℕ → ℤ) (store : PebbleStore) :
    StoreOp → PebbleStore → Prop
  | kept {op : StoreOp} {key : GoString} {after : PebbleStore}
      (hkey : op.key? = some key)
      (hafter : after.Has store.db store.count store.fired) :
      Effect codec choices store op after
  | dropped {op : StoreOp} {key : GoString} {raw : Bytes}
      {after : PebbleStore} (hkey : op.key? = some key)
      (hread : op.reads = true) (hraw : store.db.lookup key = some raw)
      (hlapsed : lapsedFor op raw (choices 0))
      (hafter : after.Has (store.db.erase key) (store.count + (-1))
        store.fired) :
      Effect codec choices store op after
  | deleted {key : GoString} {raw : Bytes} {after : PebbleStore}
      (hraw : store.db.lookup key = some raw)
      (hafter : after.Has (store.db.erase key) (store.count + (-1))
        store.fired) :
      Effect codec choices store (.delete key) after
  | written {op : StoreOp} {key : GoString} {raw : Bytes}
      {after : PebbleStore} (hkey : op.key? = some key)
      (hread : op.reads = false)
      (hafter : after.Has (store.db.insert key raw)
        (if (store.db.lookup key).isNone then store.count + 1
          else store.count) store.fired) :
      Effect codec choices store op after
  | miscounted {key : GoString} {delta : Int64} {ttl : Duration}
      {raw : Bytes} {after : PebbleStore}
      (hraw : store.db.lookup key = some raw)
      (hexpired : expiredRaw (unixNano (choices 0)) raw = true)
      (hcount : after.count = store.count + (-1))
      (hfired : after.fired = store.fired)
      (hdb : after.db = store.db ∨ ∃ raw', after.db = store.db.insert key raw') :
      Effect codec choices store (.incr key delta ttl) after
  | swept {after : PebbleStore}
      (hafter : after.Has
        (((expiredEntries (unixNano (choices 0)) store.snapshot).map
          Prod.fst).foldl (fun db key => db.erase key) store.db)
        (store.count + Int64.ofInt
          (-(expiredEntries (unixNano (choices 0)) store.snapshot).length))
        (store.fired ++ if store.onExpire then
          (expiredEntries (unixNano (choices 0)) store.snapshot).map
            fun entry => .expire entry.1 entry.2
          else [])) :
      Effect codec choices store .deleteExpired after

def encodedAt (value : Bytes) (ttl : Duration) (now : ℤ) : Bytes :=
  pack (if 0 < ttl then unixNano (addDuration now ttl) else 0) value

def preservedAt (expiresAtNano : Int64) (now : ℤ) : Duration :=
  if expiresAtNano ≠ 0 ∧ 0 < timeSub expiresAtNano.toInt now then
    timeSub expiresAtNano.toInt now
  else 0

section Methods

variable {store after : PebbleStore} {choices rest : ℕ → ℤ} {α : Type}
  {key : GoString}

variable {r : α × (ℕ → ℤ) × PebbleStore}

theorem alone_now {f : ℤ → Program α}
    (halone : (perform .now >>= f).alone machine readsClock choices store =
      some r) :
    (f (choices 0)).alone machine readsClock (later choices)
      { store with clock := choices 0 } = some r := by
  by_cases hclock : store.clock ≤ choices 0
  · rwa [Prog.alone_perform_bind (exec_now hclock)] at halone
  · have hblocked : machine.exec store .now (choices 0) = none := if_neg hclock
    rw [Prog.alone_perform_bind_none hblocked] at halone
    contradiction

/-! The operations that do not read the clock leave the readings alone. -/

theorem alone_lookup {f : Option Bytes → Program α} :
    (perform (.get key) >>= f).alone machine readsClock choices store =
      (f (store.db.lookup key)).alone machine readsClock choices store := rfl

variable {raw : Bytes}

theorem alone_put {f : Except GoString Unit → Program α} :
    (perform (.set key raw) >>= f).alone machine readsClock choices store =
      (f (.ok ())).alone machine readsClock choices
        { store with db := store.db.insert key raw } := rfl

theorem alone_erase {f : Except GoString Unit → Program α} :
    (perform (.delete key) >>= f).alone machine readsClock choices store =
      (f (.ok ())).alone machine readsClock choices
        { store with db := store.db.erase key } := rfl

variable {delta : Int64}

theorem alone_addCount {f : Unit → Program α} :
    (perform (.addCount delta) >>= f).alone machine readsClock choices store =
      (f ()).alone machine readsClock choices
        { store with count := store.count + delta } := rfl

theorem alone_iterate {f : Option (List (GoString × Bytes)) → Program α} :
    (perform .iterate >>= f).alone machine readsClock choices store =
      (f (some store.snapshot)).alone machine readsClock choices store := rfl

theorem alone_commit {keys : List GoString} {f : Unit → Program α} :
    (perform (.commit keys) >>= f).alone machine readsClock choices store =
      (f ()).alone machine readsClock choices { store with
        db := keys.foldl (fun db key => db.erase key) store.db } := rfl

theorem alone_loadOnExpire {f : Bool → Program α} :
    (perform .loadOnExpire >>= f).alone machine readsClock choices store =
      (f store.onExpire).alone machine readsClock choices store := rfl

theorem alone_isExpired {f : Bool → Program α}
    (halone : (isExpired (decode raw).2 >>= f).alone machine readsClock
      choices store = some r) :
    ∃ choices' store', Ticked store store' ∧
      (f (expiredRaw (unixNano (choices 0)) raw)).alone machine readsClock
        choices' store' = some r ∧
      ((decode raw).2 ≠ 0 → choices' = later choices) := by
  by_cases hzero : (decode raw).2 = 0
  · have hlive : expiredRaw (unixNano (choices 0)) raw = false := by
      simp [expiredRaw, hzero]
    simp only [isExpired, hzero, ne_eq, not_true_eq_false, if_false,
      Prog.pure_eq_ret, Prog.ret_bind] at halone
    rw [hlive]
    exact ⟨choices, store, .refl store, halone, absurd hzero⟩
  · have hexpired : expiredRaw (unixNano (choices 0)) raw =
        decide ((decode raw).2 < unixNano (choices 0)) := by
      simp [expiredRaw, hzero]
    simp only [isExpired, ne_eq, hzero, not_false_eq_true, if_true] at halone
    rw [hexpired]
    exact ⟨later choices, _, ⟨_, rfl⟩, alone_now halone, fun _ => rfl⟩

theorem alone_removeExpired {value result : α}
    (halone : (removeExpired key >>= fun _ => pure value).alone machine
      readsClock choices store = some (result, rest, after)) :
    after.Has (store.db.erase key) (store.count + (-1)) store.fired := by
  have heq := Option.some.inj halone
  rw [Prod.mk.injEq, Prod.mk.injEq] at heq
  rw [← heq.2.2]
  exact ⟨rfl, rfl, rfl⟩

theorem Has.of_returned {result value : α}
    (halone : (pure value : Program α).alone machine readsClock choices
      store = some (result, rest, after)) :
    after.Has store.db store.count store.fired := by
  have heq := Option.some.inj halone
  rw [Prod.mk.injEq, Prod.mk.injEq] at heq
  rw [← heq.2.2]
  exact ⟨rfl, rfl, rfl⟩

variable {codec : Msgpack}

theorem read_effect {op : StoreOp} (hkey : op.key? = some key)
    (hread : op.reads = true)
    (hop : ∀ raw now, expiredRaw (unixNano now) raw = true →
      lapsedFor op raw now)
    {missing result : α} {found : Bytes → α}
    (halone : (do
        match ← perform (.get key) with
        | none => pure missing
        | some raw =>
          if ← isExpired (decode raw).2 then
            removeExpired key
            pure missing
          else pure (found raw) : Program α).alone machine readsClock
      choices store = some (result, rest, after)) :
    Effect codec choices store op after := by
  rw [alone_lookup] at halone
  cases hraw : store.db.lookup key with
  | none =>
    simp only [hraw] at halone
    exact .kept hkey (.of_returned halone)
  | some raw =>
    simp only [hraw] at halone
    obtain ⟨choices', _, ⟨clock, rfl⟩, hrest, _⟩ := alone_isExpired halone
    cases hexpired : expiredRaw (unixNano (choices 0)) raw with
    | true =>
      simp only [hexpired, if_true] at hrest
      have hafter := alone_removeExpired hrest
      exact .dropped hkey hread hraw (hop raw _ hexpired) hafter
    | false =>
      simp only [hexpired, Bool.false_eq_true, if_false] at hrest
      have hafter := Has.of_returned hrest
      exact .kept hkey hafter

theorem get_effect {value : Option Bytes}
    (halone : (get key).alone machine readsClock choices store =
      some (value, rest, after)) :
    Effect codec choices store (.get key) after :=
  read_effect rfl rfl (fun _ _ hexpired => hexpired) halone

theorem exists_effect {value : Bool}
    (halone : («exists» key).alone machine readsClock choices store =
      some (value, rest, after)) :
    Effect codec choices store (.exists key) after :=
  read_effect rfl rfl (fun _ _ hexpired => hexpired) halone

theorem ttl_effect {value : Duration}
    (halone : (ttl key).alone machine readsClock choices store =
      some (value, rest, after)) :
    Effect codec choices store (.ttl key) after := by
  unfold ttl at halone
  rw [alone_lookup] at halone
  cases hraw : store.db.lookup key with
  | none =>
    simp only [hraw] at halone
    exact .kept rfl (.of_returned halone)
  | some raw =>
    simp only [hraw] at halone
    split at halone
    · exact .kept rfl (.of_returned halone)
    · rename_i hzero
      have hrest := alone_now halone
      split at hrest
      · rename_i hpast
        have hafter := alone_removeExpired hrest
        refine .dropped rfl rfl hraw ⟨hzero, ?_⟩ hafter
        have hnot : ¬ 0 < timeSub (decode raw).2.toInt (choices 0) :=
          Int64.not_lt.mpr hpast
        rw [timeSub_pos_iff, not_lt] at hnot
        exact hnot
      · have hafter := Has.of_returned hrest
        exact .kept rfl hafter

theorem alone_delete {value : Bool}
    (halone : (delete key).alone machine readsClock choices store =
      some (value, rest, after)) :
    after.Has store.db store.count store.fired ∨
      ∃ raw, store.db.lookup key = some raw ∧
        after.Has (store.db.erase key) (store.count + (-1)) store.fired := by
  unfold delete at halone
  rw [alone_lookup] at halone
  cases hraw : store.db.lookup key with
  | none =>
    simp only [hraw] at halone
    exact Or.inl (.of_returned halone)
  | some raw =>
    simp only [hraw] at halone
    rw [alone_erase] at halone
    simp only at halone
    rw [alone_addCount] at halone
    have hafter := Has.of_returned halone
    exact Or.inr ⟨raw, rfl, hafter⟩

theorem delete_effect {value : Bool}
    (halone : (delete key).alone machine readsClock choices store =
      some (value, rest, after)) :
    Effect codec choices store (.delete key) after := by
  rcases alone_delete halone with hafter | ⟨raw, hraw, hafter⟩
  · exact .kept rfl hafter
  · exact .deleted hraw hafter

theorem alone_write {existing : Option Bytes} {value result : α}
    (halone : (do
        if existing.isNone then
          perform (.addCount 1)
          pure value
        else pure value : Program α).alone machine readsClock choices
      { store with db := store.db.insert key raw } =
        some (result, rest, after)) :
    after.Has (store.db.insert key raw)
      (if existing.isNone then store.count + 1 else store.count)
      store.fired := by
  cases existing with
  | none =>
    simp only [Option.isNone_none, if_true] at halone ⊢
    rw [alone_addCount] at halone
    have hafter := Has.of_returned halone
    exact hafter
  | some other =>
    simp only [Option.isNone_some, Bool.false_eq_true, if_false] at halone ⊢
    have hafter := Has.of_returned halone
    exact hafter

theorem alone_encode {value : Bytes} {ttl : Duration} {f : Bytes → Program α}
    (halone : (encode value ttl >>= f).alone machine readsClock choices
      store = some r) :
    ∃ choices' store', Ticked store store' ∧
      (f (encodedAt value ttl (choices 0))).alone machine readsClock choices'
        store' = some r := by
  unfold encode at halone
  by_cases hpos : 0 < ttl
  · simp only [hpos, if_true] at halone
    simp only [encodedAt, hpos, if_true]
    exact ⟨later choices, _, ⟨_, rfl⟩, alone_now halone⟩
  · simp only [hpos, if_false, Prog.pure_eq_ret, Prog.ret_bind] at halone
    simp only [encodedAt, hpos, if_false]
    exact ⟨choices, store, .refl store, halone⟩

theorem alone_set {value : Bytes} {ttl : Duration} {result : Unit}
    (halone : (set key value ttl).alone machine readsClock choices store =
      some (result, rest, after)) :
    after.Has (store.db.insert key (encodedAt value ttl (choices 0)))
      (if (store.db.lookup key).isNone then store.count + 1
        else store.count) store.fired := by
  unfold set at halone
  rw [alone_lookup] at halone
  obtain ⟨choices', _, ⟨clock, rfl⟩, hrest⟩ := alone_encode halone
  rw [alone_put] at hrest
  have hafter := alone_write hrest
  exact hafter

theorem alone_preservedTTL {expiresAtNano : Int64} {f : Duration → Program α}
    (halone : (preservedTTL expiresAtNano >>= f).alone machine readsClock
      choices store = some r) :
    ∃ choices' store', Ticked store store' ∧
      (f (preservedAt expiresAtNano (choices 0))).alone machine readsClock
        choices' store' = some r ∧
      (expiresAtNano ≠ 0 → choices' = later choices) := by
  unfold preservedTTL at halone
  by_cases hzero : expiresAtNano = 0
  · simp only [hzero, ne_eq, not_true_eq_false, if_false, Prog.pure_eq_ret,
      Prog.ret_bind] at halone
    simp only [preservedAt, hzero, ne_eq, not_true_eq_false, false_and,
      if_false]
    exact ⟨choices, store, .refl store, halone, False.elim⟩
  · simp only [ne_eq, hzero, not_false_eq_true, if_true] at halone
    simp only [preservedAt, ne_eq, hzero, not_false_eq_true, true_and]
    exact ⟨later choices, _, ⟨_, rfl⟩, alone_now halone, fun _ => rfl⟩

variable {result : Except GoString Int64}

theorem alone_incrStore {current delta : Int64} {ttl : Duration}
    (halone : (incrStore codec key current delta ttl).alone machine
      readsClock choices store = some (result, rest, after)) :
    (∃ err, result = .error err ∧
      after.Has store.db store.count store.fired) ∨
    ∃ value, codec.marshal (current + delta) = .ok value ∧
      result = .ok (current + delta) ∧
      after.Has (store.db.insert key (encodedAt value ttl (choices 0)))
        (if (store.db.lookup key).isNone then store.count + 1
          else store.count) store.fired := by
  unfold incrStore at halone
  cases hmarshal : codec.marshal (current + delta) with
  | error err =>
    simp only [hmarshal] at halone
    refine Or.inl ⟨err, ?_, .of_returned halone⟩
    exact (Prod.mk.inj (Option.some.inj halone)).1.symm
  | ok value =>
    simp only [hmarshal] at halone
    obtain ⟨choices', _, ⟨clock, rfl⟩, hrest⟩ := alone_encode halone
    rw [alone_lookup, alone_put] at hrest
    have hafter := alone_write hrest
    refine Or.inr ⟨value, rfl, ?_, hafter⟩
    simp only at hrest
    split at hrest
    · exact (Prod.mk.inj (Option.some.inj hrest)).1.symm
    · exact (Prod.mk.inj (Option.some.inj hrest)).1.symm

variable {defaultTTL : Duration}

theorem alone_incrLocked_live (hraw : store.db.lookup key = some raw)
    (hlive : expiredRaw (unixNano (choices 0)) raw = false)
    (halone : (incrLocked codec key delta defaultTTL).alone machine
      readsClock choices store = some (result, rest, after)) :
    (∃ err, result = .error err ∧
      after.Has store.db store.count store.fired) ∨
    ∃ current value now, codec.unmarshal (decode raw).1 = .ok current ∧
      codec.marshal (current + delta) = .ok value ∧
      result = .ok (current + delta) ∧
      ((decode raw).2 ≠ 0 → now = choices 2) ∧
      after.Has (store.db.insert key (encodedAt value
        (preservedAt (decode raw).2 (choices 1)) now)) store.count
        store.fired := by
  unfold incrLocked at halone
  rw [alone_lookup] at halone
  simp only [hraw] at halone
  obtain ⟨choices', _, ⟨clock, rfl⟩, hrest, hchoices⟩ :=
    alone_isExpired halone
  simp only [hlive, Bool.false_eq_true, if_false] at hrest
  cases hunmarshal : codec.unmarshal (decode raw).1 with
  | error err =>
    simp only [hunmarshal] at hrest
    have hafter := Has.of_returned hrest
    exact Or.inl ⟨err, (Prod.mk.inj (Option.some.inj hrest)).1.symm, hafter⟩
  | ok current =>
    simp only [hunmarshal] at hrest
    obtain ⟨choices'', _, ⟨clock', rfl⟩, hstore, hchoices'⟩ :=
      alone_preservedTTL hrest
    have hsame : preservedAt (decode raw).2 (choices' 0) =
        preservedAt (decode raw).2 (choices 1) := by
      by_cases hzero : (decode raw).2 = 0
      · simp [preservedAt, hzero]
      · rw [hchoices hzero]
        rfl
    rw [hsame] at hstore
    rcases alone_incrStore hstore with ⟨err, hresult, hafter⟩ |
      ⟨value, hmarshal, hresult, hafter⟩
    · exact Or.inl ⟨err, hresult, hafter⟩
    · refine Or.inr ⟨current, value, choices'' 0, rfl, hmarshal, hresult,
        ?_, ?_⟩
      · intro hzero
        rw [hchoices' hzero, hchoices hzero]
        rfl
      · simpa [hraw] using hafter

theorem alone_incrLocked_expired (hraw : store.db.lookup key = some raw)
    (hexpired : expiredRaw (unixNano (choices 0)) raw = true)
    (halone : (incrLocked codec key delta defaultTTL).alone machine
      readsClock choices store = some (result, rest, after)) :
    (∃ err, result = .error err ∧
      after.Has store.db (store.count + (-1)) store.fired) ∨
    ∃ value, result = .ok (0 + delta) ∧
      after.Has (store.db.insert key (encodedAt value defaultTTL (choices 1)))
        (store.count + (-1)) store.fired := by
  unfold incrLocked at halone
  rw [alone_lookup] at halone
  simp only [hraw] at halone
  obtain ⟨choices', _, ⟨clock, rfl⟩, hrest, hchoices⟩ :=
    alone_isExpired halone
  have hzero : (decode raw).2 ≠ 0 := (of_decide_eq_true hexpired).1
  simp only [hexpired, if_true] at hrest
  rw [hchoices hzero, alone_addCount] at hrest
  rcases alone_incrStore hrest with ⟨err, hresult, hafter⟩ |
    ⟨value, _, hresult, hafter⟩
  · exact Or.inl ⟨err, hresult, hafter⟩
  · refine Or.inr ⟨value, hresult, hafter.db_eq, ?_, hafter.fired_eq⟩
    rw [hafter.count_eq]
    simp [hraw]

theorem alone_incrLocked_absent (hraw : store.db.lookup key = none)
    (halone : (incrLocked codec key delta defaultTTL).alone machine
      readsClock choices store = some (result, rest, after)) :
    (∃ err, result = .error err ∧
      after.Has store.db store.count store.fired) ∨
    ∃ value, result = .ok (0 + delta) ∧
      after.Has (store.db.insert key (encodedAt value defaultTTL (choices 0)))
        (if (store.db.lookup key).isNone then store.count + 1
          else store.count) store.fired := by
  unfold incrLocked at halone
  rw [alone_lookup] at halone
  simp only [hraw] at halone
  rcases alone_incrStore halone with hfailed | ⟨value, _, hresult, hafter⟩
  · exact Or.inl hfailed
  · exact Or.inr ⟨value, hresult, hafter⟩

theorem incrLocked_effect
    (halone : (incrLocked codec key delta defaultTTL).alone machine
      readsClock choices store = some (result, rest, after)) :
    Effect codec choices store (.incr key delta defaultTTL) after := by
  cases hraw : store.db.lookup key with
  | none =>
    rcases alone_incrLocked_absent hraw halone with
      ⟨_, _, hafter⟩ | ⟨_, _, hafter⟩
    · exact .kept rfl hafter
    · exact .written rfl rfl hafter
  | some raw =>
    cases hexpired : expiredRaw (unixNano (choices 0)) raw with
    | false =>
      rcases alone_incrLocked_live hraw hexpired halone with
        ⟨_, _, hafter⟩ | ⟨_, _, _, _, _, _, _, hafter⟩
      · exact .kept rfl hafter
      · refine .written rfl rfl ⟨hafter.db_eq, ?_, hafter.fired_eq⟩
        rw [hafter.count_eq, hraw]
        rfl
    | true =>
      rcases alone_incrLocked_expired hraw hexpired halone with
        ⟨_, _, hafter⟩ | ⟨_, _, hafter⟩
      · exact .miscounted hraw hexpired hafter.count_eq hafter.fired_eq
          (Or.inl hafter.db_eq)
      · exact .miscounted hraw hexpired hafter.count_eq hafter.fired_eq
          (Or.inr ⟨_, hafter.db_eq⟩)

theorem Effect.unlock {ttl : Duration}
    (heffect : Effect codec choices { store with locked := true }
      (.incr key delta ttl) after) :
    Effect codec choices store (.incr key delta ttl)
      { after with locked := false } := by
  cases heffect with
  | kept hkey hafter =>
    exact .kept hkey ⟨hafter.db_eq, hafter.count_eq, hafter.fired_eq⟩
  | dropped hkey hread hraw hlapsed hafter => contradiction
  | written hkey hread hafter =>
    exact .written hkey hread
      ⟨hafter.db_eq, hafter.count_eq, hafter.fired_eq⟩
  | miscounted hraw hexpired hcount hfired hdb =>
    exact .miscounted hraw hexpired hcount hfired hdb

theorem alone_incr
    (halone : (incr codec key delta defaultTTL).alone machine readsClock
      choices store = some (result, rest, after)) :
    ∃ rest' middle, (incrLocked codec key delta defaultTTL).alone machine
        readsClock choices { store with locked := true } =
          some (result, rest', middle) ∧
      after = { middle with locked := false } := by
  unfold incr at halone
  by_cases hlocked : store.locked = true
  · have hblocked : machine.exec store .lock (choices 0) = none :=
      if_pos hlocked
    rw [Prog.alone_perform_bind_none hblocked] at halone
    contradiction
  · have hlock : machine.exec store .lock (choices 0) =
        some ((), { store with locked := true }) := if_neg hlocked
    rw [Prog.alone_perform_bind hlock, Prog.alone_bind] at halone
    obtain ⟨⟨value, rest', middle⟩, hinner, hfinal⟩ :=
      Option.bind_eq_some_iff.mp halone
    have heq := Option.some.inj hfinal
    rw [Prod.mk.injEq, Prod.mk.injEq] at heq
    obtain ⟨rfl, _, hafter⟩ := heq
    exact ⟨rest', middle, hinner, hafter.symm⟩

theorem incr_effect
    (halone : (incr codec key delta defaultTTL).alone machine readsClock
      choices store = some (result, rest, after)) :
    Effect codec choices store (.incr key delta defaultTTL) after := by
  obtain ⟨_, middle, hinner, rfl⟩ := alone_incr halone
  exact (incrLocked_effect hinner).unlock

theorem alone_deleteExpired {count : ℕ}
    (halone : deleteExpired.alone machine readsClock choices store =
      some (count, rest, after)) :
    count = (expiredEntries (unixNano (choices 0)) store.snapshot).length ∧
      after.Has
        (((expiredEntries (unixNano (choices 0)) store.snapshot).map
          Prod.fst).foldl (fun db key => db.erase key) store.db)
        (store.count + Int64.ofInt
          (-(expiredEntries (unixNano (choices 0)) store.snapshot).length))
        (store.fired ++ if store.onExpire then
          (expiredEntries (unixNano (choices 0)) store.snapshot).map
            fun entry => .expire entry.1 entry.2
          else []) := by
  unfold deleteExpired at halone
  have hsweep := alone_now halone
  rw [alone_iterate] at hsweep
  simp only at hsweep
  split at hsweep
  · rename_i hnone
    have hafter := Has.of_returned hsweep
    have hempty : expiredEntries (unixNano (choices 0)) store.snapshot = [] :=
      List.length_eq_zero_iff.mp hnone
    refine ⟨?_, ?_, ?_, ?_⟩
    · rw [hempty]
      exact (Prod.mk.inj (Option.some.inj hsweep)).1.symm
    · rw [hempty]
      exact hafter.db_eq
    · rw [hempty, hafter.count_eq]
      simp
    · rw [hempty, hafter.fired_eq]
      simp
  · rw [alone_commit, alone_addCount, alone_loadOnExpire] at hsweep
    cases honExpire : store.onExpire with
    | true =>
      simp only [honExpire, if_true] at hsweep
      rw [Prog.alone_bind_of_eq (alone_fireAll _ _ _)] at hsweep
      have hafter := Has.of_returned hsweep
      refine ⟨(Prod.mk.inj (Option.some.inj hsweep)).1.symm, hafter.db_eq,
        hafter.count_eq, ?_⟩
      rw [if_pos rfl]
      exact hafter.fired_eq
    | false =>
      simp only [honExpire, Bool.false_eq_true, if_false] at hsweep
      have hafter := Has.of_returned hsweep
      refine ⟨(Prod.mk.inj (Option.some.inj hsweep)).1.symm, hafter.db_eq,
        hafter.count_eq, ?_⟩
      simpa using hafter.fired_eq

theorem call_effect {op : StoreOp} {result : StoreResult}
    (halone : (call codec op).alone machine readsClock choices store =
      some (result, rest, after)) :
    Effect codec choices store op after := by
  cases op with
  | get key =>
    obtain ⟨_, hget⟩ := Prog.exists_of_alone_map halone
    exact get_effect hget
  | set key value ttl =>
    obtain ⟨_, hset⟩ := Prog.exists_of_alone_map halone
    exact .written rfl rfl (alone_set hset)
  | delete key =>
    obtain ⟨_, hdelete⟩ := Prog.exists_of_alone_map halone
    exact delete_effect hdelete
  | «exists» key =>
    obtain ⟨_, hexists⟩ := Prog.exists_of_alone_map halone
    exact exists_effect hexists
  | ttl key =>
    obtain ⟨_, httl⟩ := Prog.exists_of_alone_map halone
    exact ttl_effect httl
  | incr key delta defaultTTL =>
    obtain ⟨_, hincr⟩ := Prog.exists_of_alone_map halone
    exact incr_effect hincr
  | deleteExpired =>
    obtain ⟨_, hsweep⟩ := Prog.exists_of_alone_map halone
    exact .swept (alone_deleteExpired hsweep).2

end Methods

/-- A call as the cache makes it: it has its effect, or its clock is behind
and nothing happens. -/
theorem impl_call_effect (codec : Msgpack) (store : PebbleStore)
    (clock : Readings) (op : StoreOp) :
    ((impl codec).call store (clock, op)).2 = store ∧
        ((impl codec).call store (clock, op)).1.2 = [] ∨
      Effect codec clock.now { store with fired := [] } op
          ((impl codec).call store (clock, op)).2 ∧
        ((impl codec).call store (clock, op)).1.2 =
          ((impl codec).call store (clock, op)).2.fired := by
  rcases impl_call_cases codec store clock op with hsame |
    ⟨result, rest, after, halone, hcall⟩
  · rw [hsame]
    exact Or.inl ⟨rfl, rfl⟩
  · rw [hcall]
    exact Or.inr ⟨call_effect halone, rfl⟩

end PebbleStore

end CacheGrid
