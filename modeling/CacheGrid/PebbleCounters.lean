import CacheGrid.PebbleLedger

/-!
# Counters on disk

Set, Delete and Incr of one key without expiry.  Alone, each of them is one
step on the bytes under the key.  Among other calls, each takes effect at one
of its database steps: a Set when it writes, a Delete when it deletes or finds
nothing, an Incr when it writes or, if it fails, when it reads.
-/

namespace CacheGrid

open InterleavedPrograms SequentialRuns TimedMap

namespace PebbleStore

/-! ## Calls on one key without expiry -/

/-- A Set, Delete or Incr of `key` that sets no deadline. -/
def OnCounter (key : GoString) : StoreOp → Prop
  | .set other _ ttl => other = key ∧ ¬ 0 < ttl
  | .delete other => other = key
  | .incr other _ ttl => other = key ∧ ¬ 0 < ttl
  | _ => False

def plain (cell : Option Bytes) : Bool :=
  cell.all fun raw => (decode raw).2 == 0

variable {raw : Bytes}

@[simp] theorem plain_some :
    plain (some raw) = true ↔ (decode raw).2 = 0 := by
  simp [plain]

def bump (codec : Msgpack) (current delta : Int64) (cell : Option Bytes) :
    Except GoString Int64 × Option Bytes :=
  match codec.marshal (current + delta) with
  | .error err => (.error err, cell)
  | .ok value => (.ok (current + delta), some (pack 0 value))

def countFrom (codec : Msgpack) (delta : Int64) (cell : Option Bytes) :
    Except GoString Int64 × Option Bytes :=
  match cell with
  | none => bump codec 0 delta cell
  | some raw =>
    match codec.unmarshal (decode raw).1 with
    | .error err => (.error err, cell)
    | .ok current => bump codec current delta cell

def applyCall (codec : Msgpack) (cell : Option Bytes) :
    StoreOp → StoreResult × Option Bytes
  | .set _ value _ => (.done, some (pack 0 value))
  | .delete _ => (.flag cell.isSome, none)
  | .incr _ delta _ =>
    (.counter (countFrom codec delta cell).1,
      (countFrom codec delta cell).2)
  | _ => (.done, cell)

variable {cell : Option Bytes}

theorem bump_of_error {codec : Msgpack} {current delta : Int64}
    (herror : (bump codec current delta cell).1.isOk = false) :
    (bump codec current delta cell).2 = cell := by
  unfold bump at herror ⊢
  cases hencoded : codec.marshal (current + delta) with
  | error err => rfl
  | ok value => simp [hencoded, Except.isOk, Except.toBool] at herror

theorem countFrom_of_error {codec : Msgpack} {delta : Int64}
    (herror : (countFrom codec delta cell).1.isOk = false) :
    (countFrom codec delta cell).2 = cell := by
  unfold countFrom at herror ⊢
  cases cell with
  | none => exact bump_of_error herror
  | some raw =>
    simp only at herror ⊢
    cases hdecoded : codec.unmarshal (decode raw).1 with
    | error err => rfl
    | ok current =>
      rw [hdecoded] at herror
      exact bump_of_error herror

/-! ## One call alone -/

theorem encode_plain {value : Bytes} {ttl : Duration} (httl : ¬ 0 < ttl) :
    encode value ttl = pure (pack 0 value) := by
  rw [encode, if_neg httl]

theorem isExpired_plain (hplain : (decode raw).2 = 0) :
    isExpired (decode raw).2 = pure false := by
  rw [isExpired, if_neg (by simpa using hplain)]

theorem preservedTTL_plain (hplain : (decode raw).2 = 0) :
    preservedTTL (decode raw).2 = pure 0 := by
  rw [preservedTTL, if_neg (by simpa using hplain)]

theorem incrStore_ends_plain {store : PebbleStore} {codec : Msgpack}
    {key : GoString} (hcell : store.db.lookup key = cell) (t : ℤ)
    (current delta : Int64) {ttl : Duration} (httl : ¬ 0 < ttl) :
    (incrStore codec key current delta ttl).Ends machine t store
      fun result after =>
        result = (bump codec current delta cell).1 ∧
        after.db.lookup key = (bump codec current delta cell).2 := by
  unfold incrStore bump
  cases codec.marshal (current + delta) with
  | error err => exact Prog.ends_ret ⟨rfl, hcell⟩
  | ok value =>
    simp only [encode_plain httl, Prog.pure_eq_ret, Prog.ret_bind]
    apply Prog.ends_perform rfl
    apply Prog.ends_perform rfl
    by_cases hnew : (store.db.lookup key).isNone = true
    · simp only [hnew, if_true]
      apply Prog.ends_perform rfl
      apply Prog.ends_ret
      exact ⟨rfl, AList.lookup_insert _⟩
    · simp only [hnew]
      apply Prog.ends_ret
      exact ⟨rfl, AList.lookup_insert _⟩

theorem incrLocked_ends_plain {store : PebbleStore} {codec : Msgpack}
    {key : GoString} {cell : Option Bytes}
    (hcell : store.db.lookup key = cell) (hplain : plain cell = true) (t : ℤ)
    (delta : Int64) {ttl : Duration} (httl : ¬ 0 < ttl) :
    (incrLocked codec key delta ttl).Ends machine t store
      fun result after =>
        result = (countFrom codec delta cell).1 ∧
        after.db.lookup key = (countFrom codec delta cell).2 := by
  apply Prog.ends_perform rfl
  rw [hcell]
  cases cell with
  | none => exact incrStore_ends_plain hcell t 0 delta httl
  | some raw =>
    have hzero := plain_some.mp hplain
    simp only [isExpired_plain hzero, preservedTTL_plain hzero,
      Prog.pure_eq_ret, Prog.ret_bind, countFrom]
    cases codec.unmarshal (decode raw).1 with
    | error err => exact Prog.ends_ret ⟨rfl, hcell⟩
    | ok current =>
      exact incrStore_ends_plain hcell t current delta (by decide)

theorem set_ends_plain (store : PebbleStore) (key : GoString)
    (value : Bytes) {ttl : Duration} (httl : ¬ 0 < ttl) (t : ℤ) :
    (set key value ttl).Ends machine t store fun _ after =>
      after.locked = store.locked ∧
        after.db.lookup key = some (pack 0 value) := by
  apply Prog.ends_perform rfl
  simp only [encode_plain httl, Prog.pure_eq_ret, Prog.ret_bind]
  apply Prog.ends_perform rfl
  by_cases hnew : (store.db.lookup key).isNone = true
  · simp only [hnew, if_true]
    apply Prog.ends_act rfl
    apply Prog.ends_ret
    exact ⟨rfl, AList.lookup_insert _⟩
  · simp only [hnew]
    apply Prog.ends_ret
    exact ⟨rfl, AList.lookup_insert _⟩

theorem delete_ends_plain (store : PebbleStore) (key : GoString) (t : ℤ) :
    (delete key).Ends machine t store fun ok after =>
      after.locked = store.locked ∧
        ok = (store.db.lookup key).isSome ∧
        after.db.lookup key = none := by
  apply Prog.ends_perform rfl
  cases hlookup : store.db.lookup key with
  | none => exact Prog.ends_ret ⟨rfl, rfl, hlookup⟩
  | some raw =>
    apply Prog.ends_perform rfl
    apply Prog.ends_perform rfl
    exact Prog.ends_ret ⟨rfl, rfl, AList.lookup_erase _ _⟩

/-- A call alone leaves the mutex free and acts on the key as `applyCall`. -/
theorem call_ends_plain {store : PebbleStore} {key : GoString}
    (hcell : store.db.lookup key = cell) (hplain : plain cell = true)
    (hfree : store.locked = false) (codec : Msgpack) {op : StoreOp}
    (hop : OnCounter key op) (t : ℤ) :
    (call codec op).Ends machine t store fun result after =>
      after.locked = false ∧ result = (applyCall codec cell op).1 ∧
        after.db.lookup key = (applyCall codec cell op).2 := by
  cases op with
  | set other value ttl =>
    obtain ⟨rfl, httl⟩ := hop
    obtain ⟨written, after, hsolo, hlocked, hlookup⟩ :=
      set_ends_plain store other value httl t
    exact Prog.ends_map
      ⟨written, after, hsolo, hlocked.trans hfree, rfl, hlookup⟩
  | delete other =>
    obtain rfl := hop
    obtain ⟨ok, after, hsolo, hlocked, hok, hlookup⟩ :=
      delete_ends_plain store other t
    rw [hcell] at hok
    exact Prog.ends_map ⟨ok, after, hsolo, hlocked.trans hfree,
      congrArg StoreResult.flag hok, hlookup⟩
  | incr other delta ttl =>
    obtain ⟨rfl, httl⟩ := hop
    have hlock : machine.exec store .lock t =
        some ((), { store with locked := true }) := by
      simp [machine, exec, hfree]
    apply Prog.ends_map
    apply Prog.ends_perform hlock
    apply Prog.ends_bind
    obtain ⟨result, after, hsolo, hresult, hlookup⟩ :=
      @incrLocked_ends_plain { store with locked := true } codec other
        cell hcell hplain t delta ttl httl
    refine ⟨result, after, hsolo, ?_⟩
    apply Prog.ends_perform rfl
    apply Prog.ends_ret
    exact ⟨rfl, congrArg StoreResult.counter hresult, hlookup⟩
  | _ => exact hop.elim

theorem plain_bump (codec : Msgpack) (current delta : Int64)
    (hplain : plain cell = true) :
    plain (bump codec current delta cell).2 = true := by
  unfold bump
  cases codec.marshal (current + delta) with
  | error err => exact hplain
  | ok value => simp

theorem plain_applyCall (codec : Msgpack) (hplain : plain cell = true)
    (op : StoreOp) :
    plain (applyCall codec cell op).2 = true := by
  cases op with
  | set key value ttl => simp [applyCall]
  | delete key => rfl
  | incr key delta ttl =>
    simp only [applyCall, countFrom]
    cases cell with
    | none => exact plain_bump codec 0 delta hplain
    | some raw =>
      simp only
      cases codec.unmarshal (decode raw).1 with
      | error err => exact hplain
      | ok current => exact plain_bump codec current delta hplain
  | _ => exact hplain

/-! ## A sequential order of the calls -/

section Sequential

variable {ι : Type}

def sequentially (codec : Msgpack) (calls : ι → StoreOp) (t : ℤ) :
    List ι → PebbleStore → Option (List StoreResult × PebbleStore)
  | [], store => some ([], store)
  | i :: order, store =>
    match (call codec (calls i)).solo machine t store with
    | none => none
    | some (result, after) =>
      match sequentially codec calls t order after with
      | none => none
      | some (results, final) => some (result :: results, final)

abbrev applied (codec : Msgpack) (calls : ι → StoreOp)
    (cell : Option Bytes) (order : List ι) :
    List StoreResult × Option Bytes :=
  run (fun cell i => applyCall codec cell (calls i)) cell order

theorem sequentially_eq_applied (codec : Msgpack) {calls : ι → StoreOp}
    {key : GoString} (hcalls : ∀ i, OnCounter key (calls i)) (t : ℤ)
    (order : List ι) {store : PebbleStore} (hfree : store.locked = false)
    (hplain : plain (store.db.lookup key) = true) :
    ∃ final, sequentially codec calls t order store =
        some ((applied codec calls (store.db.lookup key) order).1, final) ∧
      final.db.lookup key =
        (applied codec calls (store.db.lookup key) order).2 := by
  induction order generalizing store with
  | nil => exact ⟨store, rfl, rfl⟩
  | cons i order ih =>
    obtain ⟨result, after, hsolo, hfree', hresult, hlookup⟩ :=
      call_ends_plain rfl hplain hfree codec (hcalls i) t
    have hplain' : plain (after.db.lookup key) = true := by
      rw [hlookup]
      exact plain_applyCall codec hplain (calls i)
    obtain ⟨final, hrest, hfinal⟩ := ih hfree' hplain'
    refine ⟨final, ?_, ?_⟩
    · simp only [sequentially, hsolo, hrest, run, hresult, hlookup]
    · rw [hfinal, hlookup]
      rfl

end Sequential

/-! ## How far a call has come -/

def takesEffect (codec : Msgpack) :
    StoreOp → (op : PebbleOp) → op.Answer → Bool
  | .set _ _ _, .set _ _, _ => true
  | .delete _, .get _, found => found.isNone
  | .delete _, .delete _, _ => true
  | .incr _ delta _, .get _, found => !(countFrom codec delta found).1.isOk
  | .incr _ _ _, .set _ _, _ => true
  | _, _, _ => false

structure Progress where
  /-- The answer of the first `db.Get`. -/
  read : Option (Option Bytes)
  effective : Bool
  holds : Bool

def Progress.fresh : Progress := ⟨none, false, false⟩

def Progress.Writes (codec : Msgpack) (p : Progress) (raw : Bytes) :
    StoreOp → Prop
  | .set _ value _ => raw = pack 0 value
  | .incr _ delta _ => p.holds = true ∧ ∃ found n, p.read = some found ∧
      countFrom codec delta found = (.ok n, some raw)
  | _ => False

/-- A call stays on its key, takes effect once, and an Incr works under the
mutex.  The state `none` is that of a call which has met a deadline, a failing
database or a counter that changes between its two reads; nothing is said
about such a call. -/
def account (codec : Msgpack) (key : GoString) (call : StoreOp) :
    Discipline pebbleSignature (Option Progress) where
  guard := fun progress op =>
    match progress with
    | none => True
    | some p =>
      match op with
      | .get other => other = key ∧ p.effective = false ∧
          (p.read = none ∨ ∃ delta ttl, call = .incr key delta ttl) ∧
          ∀ delta ttl, call = .incr key delta ttl → p.holds = true
      | .set other raw => other = key ∧ p.effective = false ∧
          p.Writes codec raw call
      | .delete other => other = key ∧ p.effective = false ∧
          call = .delete key
      | .lock => p.holds = false ∧ p.read = none
      | .unlock => p.holds = true ∧ p.effective = true
      | .addCount _ => True
      | _ => False
  update := fun progress op answer =>
    match progress with
    | none => none
    | some p =>
      match op, answer with
      | .get other, found =>
        if plain found = true ∧ (p.read = none ∨ p.read = some found) then
          some { p with
            read := some found
            effective := p.effective ||
              takesEffect codec call (.get other) found }
        else none
      | .set _ _, .ok _ => some { p with effective := true }
      | .set _ _, .error _ => none
      | .delete _, .ok _ => some { p with effective := true }
      | .delete _, .error _ => none
      | .lock, _ => some { p with holds := true }
      | .unlock, _ => some { p with holds := false }
      | _, _ => some p

def Returned (codec : Msgpack) (call : StoreOp) (progress : Option Progress)
    (result : StoreResult) : Prop :=
  ∀ p, progress = some p → p.effective = true ∧
    ∀ key delta ttl, call = .incr key delta ttl →
      ∃ found, p.read = some found ∧
        result = .counter (countFrom codec delta found).1

section Accounts

variable {codec : Msgpack} {key : GoString} {call : StoreOp} {α : Type}
  {post : Option Progress → α → Prop} {p : Progress}

theorem account_lost (hlost : ∀ value, post none value)
    (program : Program α) :
    Follows (account codec key call) post none program :=
  follows_of_closed (fun _ => trivial) (fun _ _ => rfl) hlost program

theorem account_get {f : Option Bytes → Program α}
    (hlost : ∀ value, post none value) (heffective : p.effective = false)
    (hagain : p.read = none ∨ ∃ delta ttl, call = .incr key delta ttl)
    (hholds : ∀ delta ttl, call = .incr key delta ttl → p.holds = true)
    (hrest : ∀ found, plain found = true →
      p.read = none ∨ p.read = some found →
      Follows (account codec key call) post
        (some { p with
          read := some found
          effective := takesEffect codec call (.get key) found })
        (f found)) :
    Follows (account codec key call) post (some p)
      (perform (.get key) >>= f) := by
  refine ⟨⟨rfl, heffective, hagain, hholds⟩, fun found => ?_⟩
  by_cases hfound : plain found = true ∧
      (p.read = none ∨ p.read = some found)
  · have hnext := hrest found hfound.1 hfound.2
    simp only [account, hfound, and_self, if_true, heffective,
      Bool.false_or]
    exact hnext
  · simp only [account, hfound, if_false]
    exact account_lost hlost _

theorem account_set {f : Except GoString Unit → Program α}
    (hlost : ∀ value, post none value) (heffective : p.effective = false)
    (hwrites : p.Writes codec raw call)
    (hrest : Follows (account codec key call) post
      (some { p with effective := true }) (f (.ok ()))) :
    Follows (account codec key call) post (some p)
      (perform (.set key raw) >>= f) := by
  refine ⟨⟨rfl, heffective, hwrites⟩, fun answer => ?_⟩
  cases answer with
  | ok written => exact hrest
  | error err => exact account_lost hlost _

theorem account_delete {f : Except GoString Unit → Program α}
    (hlost : ∀ value, post none value) (heffective : p.effective = false)
    (hrest : Follows (account codec key (.delete key)) post
      (some { p with effective := true }) (f (.ok ()))) :
    Follows (account codec key (.delete key)) post (some p)
      (perform (.delete key) >>= f) := by
  refine ⟨⟨rfl, heffective, rfl⟩, fun answer => ?_⟩
  cases answer with
  | ok deleted => exact hrest
  | error err => exact account_lost hlost _

end Accounts

theorem set_accounted (codec : Msgpack) (key : GoString) (value : Bytes)
    {ttl : Duration} (httl : ¬ 0 < ttl) :
    Follows (account codec key (.set key value ttl))
      (fun progress _ => Returned codec (.set key value ttl) progress .done)
      (some .fresh) (set key value ttl) := by
  have hlost : Returned codec (.set key value ttl) none .done := by
    simp [Returned]
  apply account_get (fun _ => hlost) rfl (Or.inl rfl) (by simp)
  intro existing _ _
  simp only [encode_plain httl, Prog.pure_eq_ret, Prog.ret_bind]
  refine account_set (fun _ => hlost) rfl ?_ ?_
  · exact rfl
  have hdone : ∀ p : Progress, p.effective = true →
      Returned codec (.set key value ttl) (some p) .done := by
    rintro p heffective _ ⟨⟩
    exact ⟨heffective, by simp⟩
  cases existing with
  | none => exact ⟨trivial, fun _ => hdone _ rfl⟩
  | some old => exact hdone _ rfl

theorem delete_accounted (codec : Msgpack) (key : GoString) :
    Follows (account codec key (.delete key))
      (fun progress ok => Returned codec (.delete key) progress (.flag ok))
      (some .fresh) (delete key) := by
  have hlost : ∀ ok, Returned codec (.delete key) none (.flag ok) := by
    simp [Returned]
  have hdone : ∀ (p : Progress) (ok : Bool), p.effective = true →
      Returned codec (.delete key) (some p) (.flag ok) := by
    rintro p ok heffective _ ⟨⟩
    exact ⟨heffective, by simp⟩
  apply account_get hlost rfl (Or.inl rfl) (by simp)
  intro found _ _
  cases found with
  | none => exact hdone _ _ rfl
  | some raw =>
    apply account_delete hlost rfl
    exact ⟨trivial, fun _ => hdone _ _ rfl⟩

def Counted (codec : Msgpack) (delta : Int64) (progress : Option Progress)
    (result : Except GoString Int64) : Prop :=
  ∀ p, progress = some p → p.effective = true ∧ p.holds = true ∧
    ∃ found, p.read = some found ∧
      result = (countFrom codec delta found).1

theorem incrStore_accounted {codec : Msgpack} {key : GoString}
    {current delta : Int64} {callTTL ttl : Duration} {found : Option Bytes}
    (hfound : countFrom codec delta found = bump codec current delta found)
    (httl : ¬ 0 < ttl) :
    Follows (account codec key (.incr key delta callTTL))
      (Counted codec delta)
      (some ⟨some found, !(countFrom codec delta found).1.isOk, true⟩)
      (incrStore codec key current delta ttl) := by
  have hlost : ∀ result, Counted codec delta none result := by
    simp [Counted]
  unfold incrStore
  cases hencoded : codec.marshal (current + delta) with
  | error err =>
    have herror : (countFrom codec delta found).1 = .error err := by
      simp [hfound, bump, hencoded]
    rintro _ ⟨⟩
    refine ⟨?_, rfl, found, rfl, herror.symm⟩
    simp [herror, Except.isOk, Except.toBool]
  | ok value =>
    have hok : countFrom codec delta found =
        (.ok (current + delta), some (pack 0 value)) := by
      simp [hfound, bump, hencoded]
    have hpending : (!(countFrom codec delta found).1.isOk) = false := by
      simp [hok, Except.isOk, Except.toBool]
    have hdone : ∀ p : Progress, p.effective = true → p.holds = true →
        p.read = some found →
        Counted codec delta (some p) (.ok (current + delta)) := by
      rintro p heffective hholds hread _ ⟨⟩
      exact ⟨heffective, hholds, found, hread, by rw [hok]⟩
    simp only [encode_plain httl, Prog.pure_eq_ret, Prog.ret_bind]
    rw [hpending]
    apply account_get hlost rfl (Or.inr ⟨_, _, rfl⟩) (fun _ _ _ => rfl)
    intro again _ hread
    -- the second read sees what the first one saw
    have hsame : again = found := by
      simpa [eq_comm] using hread
    subst again
    simp only [takesEffect, hpending]
    refine account_set hlost rfl ?_ ?_
    · exact ⟨rfl, found, _, rfl, hok⟩
    · cases found with
      | none => exact ⟨trivial, fun _ => hdone _ rfl rfl rfl⟩
      | some raw => exact hdone _ rfl rfl rfl

theorem incrLocked_accounted (codec : Msgpack) (key : GoString)
    (delta : Int64) {ttl : Duration} (httl : ¬ 0 < ttl) :
    Follows (account codec key (.incr key delta ttl)) (Counted codec delta)
      (some ⟨none, false, true⟩) (incrLocked codec key delta ttl) := by
  have hlost : ∀ result, Counted codec delta none result := by
    simp [Counted]
  apply account_get hlost rfl (Or.inl rfl) (fun _ _ _ => rfl)
  intro found hplain _
  cases found with
  | none => exact incrStore_accounted rfl httl
  | some raw =>
    have hzero := plain_some.mp hplain
    simp only [isExpired_plain hzero, preservedTTL_plain hzero,
      Prog.pure_eq_ret, Prog.ret_bind]
    cases hdecoded : codec.unmarshal (decode raw).1 with
    | error err =>
      have herror : (countFrom codec delta (some raw)).1 =
          .error err := by
        simp [countFrom, hdecoded]
      rintro _ ⟨⟩
      refine ⟨?_, rfl, some raw, rfl, herror.symm⟩
      simp [takesEffect, herror, Except.isOk, Except.toBool]
    | ok current =>
      refine incrStore_accounted ?_ (by decide)
      simp [countFrom, hdecoded]

theorem incr_accounted (codec : Msgpack) (key : GoString) (delta : Int64)
    {ttl : Duration} (httl : ¬ 0 < ttl) :
    Follows (account codec key (.incr key delta ttl))
      (fun progress result =>
        Returned codec (.incr key delta ttl) progress (.counter result))
      (some .fresh) (incr codec key delta ttl) := by
  refine follows_perform ?_ fun _ => ?_
  · exact ⟨rfl, rfl⟩
  apply follows_bind
  apply (incrLocked_accounted codec key delta httl).mono
  intro progress result hcounted
  cases progress with
  | none =>
    apply account_lost
    simp [Returned]
  | some p =>
    obtain ⟨heffective, hholds, found, hread, hresult⟩ := hcounted p rfl
    refine ⟨⟨hholds, heffective⟩, fun _ => ?_⟩
    rintro _ ⟨⟩
    refine ⟨heffective, ?_⟩
    rintro _ _ _ ⟨⟩
    exact ⟨found, hread, congrArg StoreResult.counter hresult⟩

theorem call_accounted (codec : Msgpack) {key : GoString} {op : StoreOp}
    (hop : OnCounter key op) :
    Follows (account codec key op) (Returned codec op) (some .fresh)
      (call codec op) := by
  cases op with
  | set other value ttl =>
    obtain ⟨rfl, httl⟩ := hop
    exact follows_map (set_accounted codec other value httl)
  | delete other =>
    obtain rfl := hop
    exact follows_map (delete_accounted codec other)
  | incr other delta ttl =>
    obtain ⟨rfl, httl⟩ := hop
    exact follows_map (incr_accounted codec other delta httl)
  | _ => exact hop.elim

end PebbleStore

end CacheGrid
