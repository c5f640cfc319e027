import CacheGrid.Store
import CacheGrid.TimedMap
import CacheGrid.SequentialRuns

/-!
# What a store without a size limit is for

Two specifications of a `Store`.  The ledger keeps, for every key, the record
that is physically there: reads drop a dead record lazily and a sweep drops
all of them, so Delete and DeleteExpired can be specified by what they find.
The timed map never drops anything and only answers reads.  The ledger is a
trimming of the timed map.
-/

namespace CacheGrid

open SequentialRuns TimedMap

abbrev Cell := Option (Record Bytes)

def StoreOp.key? : StoreOp → Option GoString
  | .get key => some key
  | .set key _ _ => some key
  | .delete key => some key
  | .exists key => some key
  | .ttl key => some key
  | .incr key _ _ => some key
  | .deleteExpired => none

/-- A write at `now` gives the deadline `now + ttl` if the ttl is positive,
none otherwise. -/
def deadlineOf (now : ℤ) (ttl : Duration) : Option ℤ :=
  if 0 < ttl.toInt then some (now + ttl.toInt) else none

theorem deadlineOf_lt {now deadline : ℤ} {ttl : Duration}
    (hdeadline : deadlineOf now ttl = some deadline) :
    deadline < now + 2 ^ 63 := by
  simp only [deadlineOf, Option.ite_none_right_eq_some,
    Option.some.injEq] at hdeadline
  have hlt := Int64.toInt_lt ttl
  omega

/-! ## The ledger -/

def cellTTL (r : Record Bytes) (now : ℤ) : Duration :=
  match r.deadline with
  | none => -1
  | some deadline =>
    let remaining := timeSub deadline now
    if remaining < 0 then 0 else remaining

/-- The ttl under which a counter is written back, so that its deadline does
not move. -/
def cellPreservedTTL (r : Record Bytes) (now : ℤ) : Duration :=
  match r.deadline with
  | none => 0
  | some deadline =>
    let remaining := timeSub deadline now
    if 0 < remaining then remaining else 0

def cellCount (codec : Msgpack) (now : ℤ) (current delta : Int64)
    (ttl : Duration) : StoreResult × Cell :=
  match codec.marshal (current + delta) with
  | .error err => (.counter (.error err), none)
  | .ok value =>
    (.counter (.ok (current + delta)), some ⟨value, deadlineOf now ttl⟩)

/-- A call on one key, in terms of the record under that key alone. -/
def cellStep (codec : Msgpack) (clock : Readings) :
    StoreOp → Cell → StoreResult × Cell
  | .get _, none => (.value none, none)
  | .get _, some r =>
    if r.dead (clock.now 0) then (.value none, none)
    else (.value (some r.value), some r)
  | .set _ value ttl, _ =>
    (.done, some ⟨value, deadlineOf (clock.now 0) ttl⟩)
  | .delete _, cell => (.flag cell.isSome, none)
  | .exists _, none => (.flag false, none)
  | .exists _, some r =>
    if r.dead (clock.now 0) then (.flag false, none)
    else (.flag true, some r)
  | .ttl _, none => (.remaining 0, none)
  | .ttl _, some r =>
    if r.dead (clock.now 0) then (.remaining 0, none)
    else (.remaining (cellTTL r (clock.now 1)), some r)
  | .incr _ delta defaultTTL, none =>
    cellCount codec (clock.now 2) 0 delta defaultTTL
  | .incr _ delta defaultTTL, some r =>
    if r.dead (clock.now 0) then
      cellCount codec (clock.now 2) 0 delta defaultTTL
    else
      match codec.unmarshal r.value with
      | .error err => (.counter (.error err), some r)
      | .ok current =>
        cellCount codec (clock.now 2) current delta
          (cellPreservedTTL r (clock.now 1))
  | .deleteExpired, cell => (.done, cell)

theorem length_filter_entries {K V : Type} [DecidableEq K]
    (l : AList fun _ : K => V) (p : V → Bool) :
    (l.entries.filter fun entry => p entry.2).length =
      Set.ncard { key | ∃ v, l.lookup key = some v ∧ p v = true } := by
  classical
  have hnodup : ((l.entries.filter fun entry => p entry.2).map
      Sigma.fst).Nodup :=
    l.nodupKeys.sublist List.filter_sublist
  have hset : { key | ∃ v, l.lookup key = some v ∧ p v = true } =
      ((l.entries.filter fun entry => p entry.2).map
        Sigma.fst).toFinset := by
    ext key
    simp only [← Option.mem_def, AList.mem_lookup_iff]
    simp
  rw [hset, Set.ncard_coe_finset, List.toFinset_card_of_nodup hnodup,
    List.length_map]

/-- The keys whose record a sweep removes; `route` says which reading of the
call each key is compared with. -/
def sweptKeys (route : GoString → ℕ) (clock : Readings)
    (contents : Contents GoString Bytes) : Set GoString :=
  { key | ∃ r, contents key = some r ∧
    r.dead (clock.now (route key)) = true }

noncomputable def ledgerStep (codec : Msgpack) (route : GoString → ℕ)
    (contents : Contents GoString Bytes) (call : Readings × StoreOp) :
    StoreResult × Contents GoString Bytes :=
  match call.2.key? with
  | some key =>
    let next := cellStep codec call.1 call.2 (contents key)
    (next.1, Function.update contents key next.2)
  | none =>
    (.removed (sweptKeys route call.1 contents).ncard,
      fun key => (contents key).filter
        fun r => !r.dead (call.1.now (route key)))

/-! ## The timed map -/

/-- What a read returns; the remaining time is an exact integer. -/
inductive TimedAnswer where
  | value (found : Option Bytes)
  | present (found : Bool)
  | remaining (ttl : ℤ)

def timedAnswer (contents : Contents GoString Bytes) (clock : Readings) :
    StoreOp → Option TimedAnswer
  | .get key =>
    some (.value ((live contents (clock.now 0) key).map Record.value))
  | .exists key =>
    some (.present (live contents (clock.now 0) key).isSome)
  | .ttl key =>
    some (.remaining
      (match live contents (clock.now 1) key with
      | none => 0
      | some r =>
        match r.deadline with
        | none => -1
        | some deadline => deadline - clock.now 1))
  | _ => none

def timedWrite (contents : Contents GoString Bytes) (clock : Readings) :
    StoreOp → Contents GoString Bytes
  | .set key value ttl =>
    Function.update contents key
      (some ⟨value, deadlineOf (clock.now 0) ttl⟩)
  | .delete key => Function.update contents key none
  | _ => contents

/-- A call on the timed map, which also remembers when it ended. -/
def timedStep (state : ℤ × Contents GoString Bytes)
    (call : Readings × StoreOp) :
    Option TimedAnswer × (ℤ × Contents GoString Bytes) :=
  (timedAnswer state.2 call.1 call.2,
    (call.1.finish, timedWrite state.2 call.1 call.2))

/-- Each call starts when the one before it has ended. -/
def StartsAfter (state : ℤ × Contents GoString Bytes)
    (call : Readings × StoreOp) : Prop :=
  state.1 ≤ call.1.start

/-- A result of the store is the answer of the timed map, where that has
one. -/
def Answers : Option TimedAnswer → StoreResult → Prop
  | some (.value found), result => result = .value found
  | some (.present found), result => result = .flag found
  | some (.remaining ttl), result => ∃ d, result = .remaining d ∧ d.toInt = ttl
  | none, _ => True

theorem Answers.unique {answer : TimedAnswer} {result other : StoreResult}
    (hresult : Answers (some answer) result)
    (hother : Answers (some answer) other) : result = other := by
  cases answer with
  | value found => exact Eq.trans hresult (Eq.symm hother)
  | present found => exact Eq.trans hresult (Eq.symm hother)
  | remaining ttl =>
    obtain ⟨d, rfl, hd⟩ := hresult
    obtain ⟨d', rfl, hd'⟩ := hother
    rw [Int64.toInt_inj.mp (hd.trans hd'.symm)]

/-- The calls of the timed map: all but Incr. -/
def StoreOp.timed : StoreOp → Bool
  | .incr _ _ _ => false
  | _ => true

def StoreOp.reads : StoreOp → Bool
  | .get _ => true
  | .exists _ => true
  | .ttl _ => true
  | _ => false

def TimedRun (start : ℤ) (calls : List (Readings × StoreOp)) : Prop :=
  Meets timedStep
    (fun state call => StartsAfter state call ∧ call.2.timed = true)
    (start, fun _ => none) calls

/-! ## The ledger is a trimming of the timed map -/

/-- The ledger has dropped only dead records, and no deadline is further away
than a `time.Duration` reaches. -/
structure LedgerTrims (state : ℤ × Contents GoString Bytes)
    (contents : Contents GoString Bytes) : Prop where
  trims : Trims state.1 contents state.2
  near : ∀ key r deadline, state.2 key = some r →
    r.deadline = some deadline → deadline < state.1 + 2 ^ 63

theorem ledgerTrims_empty (start : ℤ) :
    LedgerTrims (start, fun _ => none) (fun _ => none) where
  trims := Trims.refl _ _
  near := by simp

variable {contents : Contents GoString Bytes} {r : Record Bytes}
  {key : GoString} {now : ℤ}

theorem live_of_some (hsome : contents key = some r)
    (hlive : r.dead now = false) : live contents now key = some r := by
  simp [live, hsome, hlive]

theorem live_of_dead (hsome : contents key = some r)
    (hdead : r.dead now = true) : live contents now key = none := by
  simp [live, hsome, hdead]

theorem live_of_none (hnone : contents key = none) :
    live contents now key = none := by
  simp [live, hnone]

theorem cellTTL_of_dead (hdead : r.dead now = true) : cellTTL r now = 0 := by
  obtain ⟨deadline, hdeadline, hlt⟩ := Record.dead_iff.mp hdead
  simp [cellTTL, hdeadline, timeSub_neg_iff, hlt]

/-- The ledger's TTL is the timed map's, exactly, while no deadline is out of
reach. -/
theorem cellTTL_of_live {now deadline : ℤ}
    (hdeadline : r.deadline = some deadline) (hlive : r.dead now = false)
    (hnear : deadline < now + 2 ^ 63) :
    (cellTTL r now).toInt = deadline - now := by
  have hle : now ≤ deadline := by
    by_contra hlt
    have hdead : r.dead now = true :=
      Record.dead_iff.mpr ⟨deadline, hdeadline, not_le.mp hlt⟩
    rw [hlive] at hdead
    contradiction
  have hnonneg : ¬ timeSub deadline now < 0 := by
    rw [timeSub_neg_iff]
    omega
  simp only [cellTTL, hdeadline, hnonneg, if_false]
  exact toInt_timeSub (by omega) (by omega)

variable {state : ℤ × Contents GoString Bytes} {call : Readings × StoreOp}

theorem LedgerTrims.answers (hledger : LedgerTrims state contents)
    (codec : Msgpack) (route : GoString → ℕ) (hstarts : StartsAfter state call) :
    Answers (timedStep state call).1
      (ledgerStep codec route contents call).1 := by
  obtain ⟨clock, op⟩ := call
  have hafter : ∀ i, state.1 ≤ clock.now i := fun i =>
    hstarts.trans (clock.start_le i)
  cases op with
  | get key =>
    change _ = StoreResult.value _
    rw [← hledger.trims.live_eq (hafter 0)]
    simp only [ledgerStep, StoreOp.key?]
    cases hcell : contents key with
    | none => simp [cellStep, live_of_none hcell]
    | some r =>
      cases hdead : r.dead (clock.now 0) with
      | true => simp [cellStep, hdead, live_of_dead hcell hdead]
      | false => simp [cellStep, hdead, live_of_some hcell hdead]
  | «exists» key =>
    change _ = StoreResult.flag _
    rw [← hledger.trims.live_eq (hafter 0)]
    simp only [ledgerStep, StoreOp.key?]
    cases hcell : contents key with
    | none => simp [cellStep, live_of_none hcell]
    | some r =>
      cases hdead : r.dead (clock.now 0) with
      | true => simp [cellStep, hdead, live_of_dead hcell hdead]
      | false => simp [cellStep, hdead, live_of_some hcell hdead]
  | ttl key =>
    simp only [timedStep, timedAnswer, Answers,
      ← hledger.trims.live_eq (hafter 1), ledgerStep, StoreOp.key?]
    cases hcell : contents key with
    | none => simp [cellStep, live_of_none hcell]
    | some r =>
      cases hfirst : r.dead (clock.now 0) with
      | true =>
        -- dead at the first reading, so dead at the second
        have hsecond := Record.dead_mono
          (clock.mono (Nat.zero_le 1)) hfirst
        simp [cellStep, hfirst, live_of_dead hcell hsecond]
      | false =>
        cases hsecond : r.dead (clock.now 1) with
        | true =>
          simp [cellStep, hfirst, live_of_dead hcell hsecond,
            cellTTL_of_dead hsecond]
        | false =>
          simp only [cellStep, hfirst, live_of_some hcell hsecond]
          refine ⟨_, rfl, ?_⟩
          cases hdeadline : r.deadline with
          | none =>
            simp only [cellTTL, hdeadline]
            rfl
          | some deadline =>
            have hfull := hledger.trims.kept key r hcell
            have hnear :=
              hledger.near key r deadline hfull hdeadline
            have hle := hafter 1
            exact cellTTL_of_live hdeadline hsecond (by omega)
  | set key value ttl => trivial
  | delete key => trivial
  | incr key delta defaultTTL => trivial
  | deleteExpired => trivial

theorem cellStep_read_drops (codec : Msgpack) (clock : Readings)
    {op : StoreOp} (hread : op.reads = true) (cell : Cell) :
    (cellStep codec clock op cell).2 = cell ∨
      (cellStep codec clock op cell).2 = none ∧
        ∀ r, cell = some r → r.dead (clock.now 0) = true := by
  cases op with
  | get key =>
    cases cell with
    | none => exact Or.inl rfl
    | some r => cases hdead : r.dead (clock.now 0) <;> simp [cellStep, hdead]
  | «exists» key =>
    cases cell with
    | none => exact Or.inl rfl
    | some r => cases hdead : r.dead (clock.now 0) <;> simp [cellStep, hdead]
  | ttl key =>
    cases cell with
    | none => exact Or.inl rfl
    | some r => cases hdead : r.dead (clock.now 0) <;> simp [cellStep, hdead]
  | _ => simp [StoreOp.reads] at hread

theorem LedgerTrims.near_finish (hledger : LedgerTrims state contents)
    (hstarts : StartsAfter state call) {deadline : ℤ}
    (hsome : state.2 key = some r) (hdeadline : r.deadline = some deadline) :
    deadline < call.1.finish + 2 ^ 63 := by
  have hnear := hledger.near key r deadline hsome hdeadline
  have hle : state.1 ≤ call.1.finish :=
    hstarts.trans call.1.start_le_finish
  omega

theorem LedgerTrims.write (hledger : LedgerTrims state contents)
    (hstarts : StartsAfter state call) (key : GoString) (cell : Cell)
    (hnear : ∀ r deadline, cell = some r → r.deadline = some deadline →
      deadline < call.1.finish + 2 ^ 63) :
    LedgerTrims (call.1.finish, Function.update state.2 key cell)
      (Function.update contents key cell) where
  trims := (hledger.trims.mono
    (hstarts.trans call.1.start_le_finish)).update key cell
  near := by
    intro other r deadline hsome hdeadline
    by_cases hother : other = key
    · subst other
      exact hnear r deadline (by simpa using hsome) hdeadline
    · simp only [Function.update_of_ne hother] at hsome
      exact hledger.near_finish hstarts hsome hdeadline

theorem LedgerTrims.drop {contents next : Contents GoString Bytes}
    (hledger : LedgerTrims state contents) (hstarts : StartsAfter state call)
    (hnext : ∀ key, next key = contents key ∨
      next key = none ∧ ∀ r, contents key = some r →
        r.dead call.1.finish = true) :
    LedgerTrims (call.1.finish, state.2) next where
  trims := hledger.trims.drop (hstarts.trans call.1.start_le_finish) hnext
  near := fun _ _ _ hsome hdeadline =>
    hledger.near_finish hstarts hsome hdeadline

theorem LedgerTrims.read (hledger : LedgerTrims state contents)
    (codec : Msgpack) (hstarts : StartsAfter state call)
    (hread : call.2.reads = true) (key : GoString) :
    LedgerTrims (call.1.finish, state.2)
      (Function.update contents key
        (cellStep codec call.1 call.2 (contents key)).2) := by
  apply hledger.drop hstarts
  intro other
  by_cases hother : other = key
  · subst hother
    rw [Function.update_self]
    rcases cellStep_read_drops codec call.1 hread (contents other) with
      hsame | ⟨hnone, hdead⟩
    · exact Or.inl hsame
    · exact Or.inr ⟨hnone, fun r hr =>
        Record.dead_mono (call.1.le_finish 0) (hdead r hr)⟩
  · exact Or.inl (Function.update_of_ne hother _ _)

theorem LedgerTrims.step (hledger : LedgerTrims state contents)
    (codec : Msgpack) (route : GoString → ℕ) (hstarts : StartsAfter state call)
    (htimed : call.2.timed = true) :
    LedgerTrims (timedStep state call).2
      (ledgerStep codec route contents call).2 := by
  obtain ⟨clock, op⟩ := call
  cases op with
  | get key => exact hledger.read codec hstarts rfl key
  | «exists» key => exact hledger.read codec hstarts rfl key
  | ttl key => exact hledger.read codec hstarts rfl key
  | set key value ttl =>
    refine hledger.write hstarts key
      (some ⟨value, deadlineOf (clock.now 0) ttl⟩) ?_
    intro r deadline hr hdeadline
    rw [Option.some.injEq] at hr
    subst r
    have hlt := deadlineOf_lt hdeadline
    have hle := clock.le_finish 0
    change deadline < clock.finish + 2 ^ 63
    omega
  | delete key => exact hledger.write hstarts key none (by simp)
  | deleteExpired =>
    apply hledger.drop hstarts
    intro key
    refine (filter_dead_cases (contents key) (clock.now (route key))).imp_right
      fun hdrops => ⟨hdrops.1, fun r hr => ?_⟩
    exact Record.dead_mono (clock.le_finish _) (hdrops.2 r hr)
  | incr key delta defaultTTL => simp [StoreOp.timed] at htimed

def StoreOp.writes : StoreOp → Bool
  | .set _ _ _ => true
  | .delete _ => true
  | _ => false

/-- The timed map after a run depends on the writes of the run alone. -/
theorem timedStep_contents_of_writes (calls : List (Readings × StoreOp))
    (state state' : ℤ × Contents GoString Bytes) (hsame : state.2 = state'.2) :
    (run timedStep state calls).2.2 =
      (run timedStep state' (calls.filter fun call => call.2.writes)).2.2 := by
  induction calls generalizing state state' with
  | nil => exact hsame
  | cons call calls ih =>
    cases hwrites : call.2.writes with
    | true =>
      rw [List.filter_cons_of_pos (by simpa using hwrites)]
      refine ih _ _ ?_
      change timedWrite state.2 call.1 call.2 =
        timedWrite state'.2 call.1 call.2
      rw [hsame]
    | false =>
      rw [List.filter_cons_of_neg (by simp [hwrites])]
      refine ih _ _ ?_
      change timedWrite state.2 call.1 call.2 = state'.2
      obtain ⟨clock, op⟩ := call
      cases op with
      | set key value ttl => simp [StoreOp.writes] at hwrites
      | delete key => simp [StoreOp.writes] at hwrites
      | _ => exact hsame

end CacheGrid
