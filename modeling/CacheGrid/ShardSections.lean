import CacheGrid.InterleavedPrograms
import CacheGrid.StoreLaws

/-!
# The critical sections of a shard

An operation of a shard is one section under its lock, apart from Exists and
TTL: they look the key up under the read lock, and if the entry looks expired
they give the lock back, take it for writing and look again.  Meanwhile any
other operation may run.

A section is one step here, with its own readings of the clock.  A section
under the write lock begins after all earlier sections have ended, one under
the read lock after the last one that wrote, so that readers may overlap.  Set
and DeleteExpired read the clock before they ask for the lock.

Beside the shard the state has the timed map that the shard stands for.  It
changes with the writes, the deletions and the evictions, and expiration does
not touch it.
-/

namespace CacheGrid

open InterleavedPrograms TimedMap

namespace Shard

/-! ## The read sections -/

/-- The read section of Exists; `none` if the entry looks expired. -/
def existsRead (s : Shard) (now : ℤ) (key : GoString) : Option Bool :=
  match s.items.lookup key with
  | none => some false
  | some e => if e.isExpired now then none else some true

/-- The read section of TTL; `none` if the entry looks expired. -/
def ttlRead (s : Shard) (clock : Readings) (key : GoString) :
    Option Duration :=
  match s.items.lookup key with
  | none => some 0
  | some e =>
    if e.isExpired (clock.now 0) then none else some (e.ttl (clock.now 1))

end Shard

namespace Sections

inductive Section where
  /-- `time.Now()`, without the lock. -/
  | now
  | get (key : GoString)
  | set (key : GoString) (value : Bytes) (expiresAt : Option ℤ)
  | delete (key : GoString)
  | existsRead (key : GoString)
  | ttlRead (key : GoString)
  | removeIfExpired (key : GoString)
  | incr (key : GoString) (delta : Int64) (ttl : Duration)
  | sweep (now : ℤ)

def Section.Answer : Section → Type
  | .now => ℤ
  | .get _ => Option Bytes
  | .set _ _ _ => List Callback
  | .delete _ => Bool
  | .existsRead _ => Option Bool
  | .ttlRead _ => Option Duration
  | .removeIfExpired _ => Unit
  | .incr _ _ _ => Except GoString Int64 × List Callback
  | .sweep _ => ℕ × List Callback

abbrev signature : Signature := ⟨Section, Section.Answer⟩

abbrev Program (α : Type) := Prog signature α

abbrev perform (op : Section) : Program op.Answer :=
  Prog.perform (S := signature) op

abbrev Outcome := StoreResult × List Callback

def set (key : GoString) (value : Bytes) (ttl : Duration) :
    Program Outcome :=
  if 0 < ttl then do
    let now ← perform .now
    let callbacks ← perform (.set key value (some (addDuration now ttl)))
    pure (.done, callbacks)
  else do
    let callbacks ← perform (.set key value none)
    pure (.done, callbacks)

/-- The second section of Exists and TTL, which does not change the result. -/
def recheck (key : GoString) (result : StoreResult) : Program Outcome := do
  perform (.removeIfExpired key)
  pure (result, [])

def existsNext (key : GoString) : Option Bool → Program Outcome
  | some ok => pure (.flag ok, [])
  | none => recheck key (.flag false)

def ttlNext (key : GoString) : Option Duration → Program Outcome
  | some remaining => pure (.remaining remaining, [])
  | none => recheck key (.remaining 0)

def program : StoreOp → Program Outcome
  | .get key => do
    let found ← perform (.get key)
    pure (.value found, [])
  | .set key value ttl => set key value ttl
  | .delete key => do
    let ok ← perform (.delete key)
    pure (.flag ok, [])
  | .exists key => do
    let read ← perform (.existsRead key)
    existsNext key read
  | .ttl key => do
    let read ← perform (.ttlRead key)
    ttlNext key read
  | .incr key delta ttl => do
    let counted ← perform (.incr key delta ttl)
    pure (.counter counted.1, counted.2)
  | .deleteExpired => do
    let now ← perform .now
    let swept ← perform (.sweep now)
    pure (.removed swept.1, swept.2)

/-! ## One section -/

inductive Lock where
  | free
  | shared
  | exclusive

def Section.lock : Section → Lock
  | .now => .free
  | .existsRead _ => .shared
  | .ttlRead _ => .shared
  | _ => .exclusive

section Semantics

variable (codec : Msgpack)

def Section.body (s : Shard) (clock : Readings) :
    (op : Section) → op.Answer × Shard
  | .now => (clock.now 0, s)
  | .get key => s.get clock key
  | .set key value expiresAt => s.setLocked key value expiresAt
  | .delete key => s.delete key
  | .existsRead key => (s.existsRead (clock.now 0) key, s)
  | .ttlRead key => (s.ttlRead clock key, s)
  | .removeIfExpired key => ((), s.removeIfExpired (clock.now 0) key)
  | .incr key delta ttl =>
    let counted := s.incr codec clock key delta ttl
    ((counted.1, counted.2.1), counted.2.2)
  | .sweep reading =>
    let swept := Shard.sweep reading s.items.entries s
    ((swept.1, swept.2.1), swept.2.2)

def Section.write (clock : Readings) (map : Contents GoString Bytes) :
    Section → Contents GoString Bytes
  | .set key value expiresAt =>
    Function.update map key (some ⟨value, expiresAt⟩)
  | .delete key => Function.update map key none
  | .incr key delta ttl =>
    Function.update map key
      (cellStep codec clock (.incr key delta ttl) (map key)).2
  | _ => map

/-- The key under which the section stores an entry, and then evicts others. -/
def Section.stores? : Section → Option GoString
  | .set key _ _ => some key
  | .incr key _ _ => some key
  | _ => none

def Section.evicts (op : Section) (before after : Shard) (key : GoString) :
    Bool :=
  match op.stores? with
  | none => false
  | some stored =>
    (after.items.lookup key).isNone &&
      (decide (key = stored) || (before.items.lookup key).isSome)

/-- The shard and its timed map, when the last section that wrote ended, and
the latest reading of the clock. -/
structure Guarded where
  shard : Shard
  map : Contents GoString Bytes
  wrote : ℤ
  latest : ℤ

/-- The lock can be had at the first reading of the section. -/
def Guarded.admits (g : Guarded) (clock : Readings) : Lock → Bool
  | .free => true
  | .shared => decide (g.wrote ≤ clock.start)
  | .exclusive => decide (g.latest ≤ clock.start)

def Guarded.after (g : Guarded) (op : Section) (clock : Readings) :
    Guarded where
  shard := (op.body codec g.shard clock).2
  map := fun key =>
    if op.evicts g.shard (op.body codec g.shard clock).2 key then none
    else op.write codec clock g.map key
  wrote := match op.lock with
    | .exclusive => clock.finish
    | _ => g.wrote
  latest := max g.latest clock.finish

def exec (g : Guarded) (op : Section) (clock : Readings) :
    Option (op.Answer × Guarded) :=
  if g.admits clock op.lock then
    some ((op.body codec g.shard clock).1, g.after codec op clock)
  else none

def machine : Semantics signature Guarded Readings Empty where
  exec := exec codec
  env := fun _ event => nomatch event

end Semantics

def Guarded.new (maxSize : ℤ) (onEvict onExpire : Bool) (start : ℤ) :
    Guarded :=
  ⟨.new maxSize onEvict onExpire, fun _ => none, start, start⟩

/-! ## A call that runs alone -/

variable {op : Section}

section Sequential

variable {codec : Msgpack} {g : Guarded} {clock : Readings}

theorem exec_of_admits (hadmits : g.admits clock op.lock = true) :
    (machine codec).exec g op clock =
      some ((op.body codec g.shard clock).1, g.after codec op clock) :=
  if_pos hadmits

theorem exec_cases {answer : op.Answer} {next : Guarded}
    (hexec : (machine codec).exec g op clock = some (answer, next)) :
    g.admits clock op.lock = true ∧
      answer = (op.body codec g.shard clock).1 ∧
      next = g.after codec op clock := by
  change (if g.admits clock op.lock = true then _ else none) = _ at hexec
  split at hexec
  · rename_i hadmits
    obtain ⟨hanswer, hnext⟩ := Prod.mk.inj (Option.some.inj hexec)
    exact ⟨hadmits, hanswer.symm, hnext.symm⟩
  · contradiction

theorem wrote_after_cases (codec : Msgpack) (g : Guarded) (op : Section)
    (clock : Readings) :
    op.lock = .exclusive ∧ (g.after codec op clock).wrote = clock.finish ∨
      op.lock ≠ .exclusive ∧ (g.after codec op clock).wrote = g.wrote := by
  cases hlock : op.lock with
  | exclusive => exact Or.inl ⟨rfl, by simp [Guarded.after, hlock]⟩
  | free => exact Or.inr ⟨by simp, by simp [Guarded.after, hlock]⟩
  | shared => exact Or.inr ⟨by simp, by simp [Guarded.after, hlock]⟩

theorem exec_instant {t : ℤ} (hwrote : g.wrote ≤ t) (hlatest : g.latest ≤ t)
    (op : Section) :
    (machine codec).exec g op (.instant t) =
      some ((op.body codec g.shard (.instant t)).1,
        g.after codec op (.instant t)) := by
  apply exec_of_admits
  cases op.lock with
  | free => rfl
  | shared => exact decide_eq_true hwrote
  | exclusive => exact decide_eq_true hlatest

/-- A call whose sections run at one instant, without another one between
them, is the operation of the shard. -/
theorem program_ends {t : ℤ} (hwrote : g.wrote ≤ t) (hlatest : g.latest ≤ t)
    (op : StoreOp) :
    (program op).Ends (machine codec) (.instant t) g fun result final =>
      (result, final.shard) = Shard.step codec g.shard (.instant t, op) := by
  have hfirst := @exec_instant codec g t hwrote hlatest
  have hsecond (first : Section) :
      ∀ op : Section, _ := @exec_instant codec
        (g.after codec first (.instant t)) t
        (by
          rcases wrote_after_cases codec g first (.instant t) with
            ⟨_, heq⟩ | ⟨_, heq⟩
          · exact heq.le
          · exact heq.trans_le hwrote)
        (max_le hlatest le_rfl)
  cases op with
  | get key => exact Prog.ends_perform (hfirst _) (Prog.ends_ret rfl)
  | set key value ttl =>
    change (set key value ttl).Ends _ _ _ _
    unfold set
    split
    · rename_i hpos
      refine Prog.ends_perform (hfirst _)
        (Prog.ends_perform (hsecond _ _) (Prog.ends_ret ?_))
      simp only [Shard.step, Shard.set, Shard.expiry, hpos, if_true]
      rfl
    · rename_i hpos
      refine Prog.ends_perform (hfirst _) (Prog.ends_ret ?_)
      simp only [Shard.step, Shard.set, Shard.expiry, hpos, if_false]
      rfl
  | delete key => exact Prog.ends_perform (hfirst _) (Prog.ends_ret rfl)
  | «exists» key =>
    refine Prog.ends_perform (hfirst _) ?_
    change (existsNext key (g.shard.existsRead t key)).Ends _ _ _ _
    cases hlookup : g.shard.items.lookup key with
    | none =>
      simp only [Shard.existsRead, Shard.step, Shard.exists, hlookup]
      exact Prog.ends_ret rfl
    | some e =>
      simp only [Shard.existsRead, Shard.step, Shard.exists, hlookup,
        Readings.instant_now]
      by_cases hexpired : e.isExpired t = true
      · simp only [hexpired, if_true]
        exact Prog.ends_perform (hsecond _ _) (Prog.ends_ret rfl)
      · simp only [hexpired]
        exact Prog.ends_ret rfl
  | ttl key =>
    refine Prog.ends_perform (hfirst _) ?_
    change (ttlNext key (g.shard.ttlRead (.instant t) key)).Ends _ _ _ _
    cases hlookup : g.shard.items.lookup key with
    | none =>
      simp only [Shard.ttlRead, Shard.step, Shard.ttl, hlookup]
      exact Prog.ends_ret rfl
    | some e =>
      simp only [Shard.ttlRead, Shard.step, Shard.ttl, hlookup,
        Readings.instant_now]
      by_cases hexpired : e.isExpired t = true
      · simp only [hexpired, if_true]
        exact Prog.ends_perform (hsecond _ _) (Prog.ends_ret rfl)
      · simp only [hexpired]
        exact Prog.ends_ret rfl
  | incr key delta ttl =>
    exact Prog.ends_perform (hfirst _) (Prog.ends_ret rfl)
  | deleteExpired =>
    exact Prog.ends_perform (hfirst _)
      (Prog.ends_perform (hsecond _ _) (Prog.ends_ret rfl))

end Sequential

/-! ## The shard is a trimming of its timed map -/

theorem removeIfExpired_drops (s : Shard) (now : ℤ) (key other : GoString) :
    (s.removeIfExpired now key).contents other = s.contents other ∨
      (s.removeIfExpired now key).contents other = none ∧
        ∀ r, s.contents other = some r → r.dead now = true := by
  unfold Shard.removeIfExpired
  cases hlookup : s.items.lookup key with
  | none => exact Or.inl rfl
  | some e =>
    by_cases hexpired : e.isExpired now = true
    · simp only [hexpired, if_true, Shard.contents_removeLocked]
      by_cases hother : other = key
      · subst hother
        refine Or.inr ⟨Function.update_self .., ?_⟩
        intro r hr
        rw [Shard.contents_of_some hlookup, Option.some_inj] at hr
        rwa [← hr]
      · exact Or.inl (Function.update_of_ne hother _ _)
    · simp only [hexpired]
      exact Or.inl rfl

/-- A counter goes on from the live record, whether the shard has dropped a
dead one or not. -/
theorem cellStep_incr_of_trims {codec : Msgpack} {clock : Readings} {now : ℤ}
    {contents map : Contents GoString Bytes}
    (htrims : Trims now contents map) (hle : now ≤ clock.now 0)
    (key : GoString) (delta : Int64) (ttl : Duration) :
    cellStep codec clock (.incr key delta ttl) (map key) =
      cellStep codec clock (.incr key delta ttl) (contents key) := by
  cases hcontents : contents key with
  | some r => rw [htrims.kept key r hcontents]
  | none =>
    cases hmap : map key with
    | none => rfl
    | some r =>
      have hdead := Record.dead_mono hle
        (htrims.dropped key r hmap hcontents)
      simp only [cellStep, hdead, if_true]

theorem cellCount_near {codec : Msgpack} {now deadline : ℤ}
    {current delta : Int64} {ttl : Duration} {r : Record Bytes}
    (hcell : (cellCount codec now current delta ttl).2 = some r)
    (hdeadline : r.deadline = some deadline) :
    deadline < now + 2 ^ 63 := by
  unfold cellCount at hcell
  split at hcell
  · contradiction
  · rw [← Option.some.inj hcell] at hdeadline
    exact deadlineOf_lt hdeadline

theorem cellStep_incr_near {codec : Msgpack} {clock : Readings}
    {key : GoString} {delta : Int64} {ttl : Duration} {cell : Cell}
    (hnear : ∀ r deadline, cell = some r → r.deadline = some deadline →
      deadline < clock.finish + 2 ^ 63)
    {r : Record Bytes} {deadline : ℤ}
    (hr : (cellStep codec clock (.incr key delta ttl) cell).2 = some r)
    (hdeadline : r.deadline = some deadline) :
    deadline < clock.finish + 2 ^ 63 := by
  have hcount {current : Int64} {kept : Duration}
      (hr : (cellCount codec (clock.now 2) current delta kept).2 = some r) :
      deadline < clock.finish + 2 ^ 63 := by
    have hlt := cellCount_near hr hdeadline
    have hle := clock.le_finish 2
    omega
  cases cell with
  | none => exact hcount hr
  | some old =>
    simp only [cellStep] at hr
    split at hr
    · exact hcount hr
    · split at hr
      · exact hnear r deadline hr hdeadline
      · exact hcount hr

structure Sound (g : Guarded) : Prop where
  invariant : g.shard.Invariant
  wrote_le : g.wrote ≤ g.latest
  ledger : LedgerTrims (g.wrote, g.map) g.shard.contents

theorem sound_new (maxSize : ℤ) (onEvict onExpire : Bool) (start : ℤ) :
    Sound (.new maxSize onEvict onExpire start) where
  invariant := Shard.invariant_new maxSize onEvict onExpire
  wrote_le := le_rfl
  ledger := ledgerTrims_empty start

/-- What an earlier reading of the clock has put into a section. -/
def Section.Timely (latest : ℤ) : Section → Prop
  | .set _ _ (some deadline) => deadline < latest + 2 ^ 63
  | .sweep reading => reading ≤ latest
  | _ => True

theorem Section.Timely.mono (latest later : ℤ) (op : Section)
    (hle : latest ≤ later) (htimely : op.Timely latest) :
    op.Timely later := by
  cases op with
  | set key value expiresAt =>
    cases expiresAt with
    | none => trivial
    | some deadline =>
      simp only [Timely] at htimely ⊢
      omega
  | sweep reading => exact le_trans htimely hle
  | _ => trivial

section Exclusive

variable {codec : Msgpack} {g : Guarded} {clock : Readings}

theorem Sound.ledger_stores (hsound : Sound g) (hle : g.wrote ≤ clock.start)
    {stored : GoString} (hstores : op.stores? = some stored) {cell : Cell}
    {after : Shard}
    (hloses : Shard.Loses (Function.update g.shard.contents stored cell) after)
    (hnear : ∀ r deadline, cell = some r → r.deadline = some deadline →
      deadline < clock.finish + 2 ^ 63) :
    LedgerTrims (clock.finish, fun key =>
      if op.evicts g.shard after key then none
      else Function.update g.map stored cell key) after.contents := by
  have hstarts : StartsAfter (g.wrote, g.map) (clock, .delete stored) := hle
  have hwritten := hsound.ledger.write hstarts stored cell hnear
  have hevicts (key : GoString) : op.evicts g.shard after key =
      ((after.items.lookup key).isNone &&
        (decide (key = stored) || (g.shard.items.lookup key).isSome)) := by
    simp only [Section.evicts, hstores]
  refine ⟨hwritten.trims.restrict hloses ?_ ?_, ?_⟩
  · intro key hgone
    rw [hevicts, Bool.and_eq_true, Option.isNone_iff_eq_none] at hgone
    exact Shard.contents_of_none hgone.1
  · intro key hstays hnone
    have hlookup : after.items.lookup key = none :=
      Option.map_eq_none_iff.mp hnone
    rw [hevicts, hlookup] at hstays
    simp only [Option.isNone_none, Bool.true_and, Bool.or_eq_false_iff,
      decide_eq_false_iff_not, Option.isSome_eq_false_iff,
      Option.isNone_iff_eq_none] at hstays
    rw [Function.update_of_ne hstays.1]
    exact Shard.contents_of_none hstays.2
  · intro key r deadline hsome hdeadline
    simp only at hsome
    split at hsome
    · contradiction
    · exact hwritten.near key r deadline hsome hdeadline

theorem Sound.ledger_exclusive (hsound : Sound g)
    (hlock : op.lock = .exclusive) (htimely : op.Timely g.latest)
    (hle : g.latest ≤ clock.start) :
    LedgerTrims (clock.finish, (g.after codec op clock).map)
      (g.after codec op clock).shard.contents := by
  have hcoherent := hsound.invariant.toCoherent
  have hwrote : g.wrote ≤ clock.start := hsound.wrote_le.trans hle
  have hfinish := clock.start_le_finish
  cases op with
  | get key =>
    have hstarts : StartsAfter (g.wrote, g.map) (clock, .get key) := hwrote
    have hread := hsound.ledger.read codec hstarts rfl key
    rw [← (Shard.get_followsCell g.shard codec clock key).contents_eq]
      at hread
    exact hread
  | set key value expiresAt =>
    obtain ⟨base, hbase, hset⟩ :=
      hcoherent.setLocked_cases key value expiresAt
    have hloses := (hbase.storeLocked_announces value expiresAt).loses
    rw [← hset] at hloses
    refine hsound.ledger_stores hwrote rfl hloses ?_
    intro r deadline hr hdeadline
    rw [← Option.some.inj hr] at hdeadline
    simp only at hdeadline
    subst hdeadline
    change deadline < g.latest + 2 ^ 63 at htimely
    omega
  | delete key =>
    have hstarts : StartsAfter (g.wrote, g.map) (clock, .delete key) :=
      hwrote
    have hwritten := hsound.ledger.write hstarts key none (by simp)
    have hcontents : (g.shard.delete key).2.contents =
        Function.update g.shard.contents key none :=
      (Shard.delete_followsCell g.shard codec clock key).contents_eq
    rw [← hcontents] at hwritten
    exact hwritten
  | removeIfExpired key =>
    have hstarts : StartsAfter (g.wrote, g.map) (clock, .get key) := hwrote
    refine hsound.ledger.drop hstarts fun other => ?_
    rcases removeIfExpired_drops g.shard (clock.now 0) key other with
      hsame | ⟨hnone, hdead⟩
    · exact Or.inl hsame
    · exact Or.inr ⟨hnone, fun r hr =>
        Record.dead_mono (clock.le_finish 0) (hdead r hr)⟩
  | incr key delta ttl =>
    have hstarts : StartsAfter (g.wrote, g.map) (clock, .get key) := hwrote
    have hcell := @cellStep_incr_of_trims codec clock _ _ _
      hsound.ledger.trims (hwrote.trans (clock.start_le 0)) key delta ttl
    have hloses := (hcoherent.incr_announcesCell codec clock key delta
      ttl).loses.loses
    rw [← hcell] at hloses
    refine hsound.ledger_stores hwrote rfl hloses ?_
    intro r deadline hr hdeadline
    refine cellStep_incr_near ?_ hr hdeadline
    intro old deadline hold hdeadline
    exact hsound.ledger.near_finish hstarts hold hdeadline
  | sweep reading =>
    have hstarts : StartsAfter (g.wrote, g.map) (clock, .deleteExpired) :=
      hwrote
    have hswept := (hsound.invariant.deleteExpired_ledger
      (.instant reading)).1
    change reading ≤ g.latest at htimely
    refine hsound.ledger.drop hstarts fun key => ?_
    refine (filter_dead_cases (g.shard.contents key) reading).imp
      (congrFun hswept key).trans fun hdrops =>
        ⟨(congrFun hswept key).trans hdrops.1, fun r hr => ?_⟩
    have hlater : reading ≤ clock.finish := by omega
    exact Record.dead_mono hlater (hdrops.2 r hr)
  | now => contradiction
  | existsRead key => contradiction
  | ttlRead key => contradiction

theorem body_invariant {s : Shard} (hinv : s.Invariant) (codec : Msgpack)
    (clock : Readings) (op : Section) :
    (op.body codec s clock).2.Invariant := by
  cases op with
  | get key => exact hinv.get clock key
  | set key value expiresAt =>
    obtain ⟨base, hbase, hset⟩ := hinv.setLocked_cases key value expiresAt
    change (s.setLocked key value expiresAt).2.Invariant
    rw [hset]
    exact hbase.away.storeLocked value expiresAt
  | delete key => exact hinv.delete key
  | removeIfExpired key => exact hinv.removeIfExpired _ key
  | incr key delta ttl => exact hinv.incr codec clock key delta ttl
  | sweep reading =>
    exact (hinv.deleteExpired_sweeps (.instant reading)).invariant
  | now => exact hinv
  | existsRead key => exact hinv
  | ttlRead key => exact hinv

theorem after_of_not_exclusive {op : Section} (hlock : op.lock ≠ .exclusive) :
    (g.after codec op clock).shard = g.shard ∧
      (g.after codec op clock).map = g.map := by
  cases op with
  | now => exact ⟨rfl, rfl⟩
  | existsRead key => exact ⟨rfl, rfl⟩
  | ttlRead key => exact ⟨rfl, rfl⟩
  | _ => exact absurd rfl hlock

theorem Sound.exec (hsound : Sound g) {answer : op.Answer} {next : Guarded}
    (htimely : op.Timely g.latest)
    (hexec : (machine codec).exec g op clock = some (answer, next)) :
    Sound next := by
  obtain ⟨hadmits, _, rfl⟩ := exec_cases hexec
  refine ⟨body_invariant hsound.invariant codec clock op, ?_, ?_⟩
  · rcases wrote_after_cases codec g op clock with ⟨_, hwrote⟩ | ⟨_, hwrote⟩
    · rw [hwrote]
      exact le_max_right _ _
    · rw [hwrote]
      exact hsound.wrote_le.trans (le_max_left _ _)
  · rcases wrote_after_cases codec g op clock with
      ⟨hlock, hwrote⟩ | ⟨hlock, hwrote⟩
    · rw [hwrote]
      rw [hlock] at hadmits
      exact hsound.ledger_exclusive hlock htimely (of_decide_eq_true hadmits)
    · obtain ⟨hshard, hmap⟩ :=
        @after_of_not_exclusive codec g clock op hlock
      rw [hwrote, hshard, hmap]
      exact hsound.ledger

end Exclusive

/-! ## Where an entry goes -/

/-- The section takes its decisions at this reading of the clock. -/
def Section.ReadsAt (clock : Readings) (t : ℤ) : Section → Prop
  | .sweep reading => t = reading
  | _ => ∃ i, t = clock.now i

/-- How an entry may leave the shard. -/
inductive Removal (op : Section) (clock : Readings) (before after : Shard)
    (e : Entry) : Prop where
  | delete (hop : op = .delete e.key)
  | overwrite {base : Shard} {value : Bytes} {expiresAt : Option ℤ}
      (hop : op.stores? = some e.key)
      (hbase : Shard.Detached before base e.key)
      (hafter : after = (base.storeLocked e.key value expiresAt).2)
  | evict {base : Shard} {key : GoString} {value : Bytes}
      {expiresAt : Option ℤ} {callbacks : List Callback}
      {kept evicted : List Entry} (hop : op.stores? = some key)
      (hbase : Shard.Detached before base key)
      (hevicts : Shard.Evicts (base.pushEntry key value expiresAt) callbacks
        after kept evicted)
      (hmem : e ∈ evicted)
  | expire {t : ℤ} (hreads : op.ReadsAt clock t)
      (hexpired : e.isExpired t = true)

section Removals

variable {codec : Msgpack} {s : Shard} {clock : Readings} {key : GoString}
  {e : Entry}

theorem lookup_removeLocked (hlookup : s.items.lookup key = some e)
    (other : GoString) (stored : Entry) :
    (s.removeLocked other stored).items.lookup key = some e ∨ key = other := by
  by_cases hkey : key = other
  · exact Or.inr hkey
  · left
    rw [← hlookup]
    exact AList.lookup_erase_ne hkey

theorem removal_of_expired (hlookup : s.items.lookup key = some e)
    {other : GoString} {stored : Entry}
    (hstored : s.items.lookup other = some stored) {t : ℤ}
    (hreads : op.ReadsAt clock t) (hexpired : stored.isExpired t = true) :
    (s.removeLocked other stored).items.lookup key = some e ∨
      Removal op clock s (s.removeLocked other stored) e := by
  refine (lookup_removeLocked hlookup other stored).imp_right fun hkey => ?_
  subst hkey
  obtain rfl : stored = e := Option.some.inj (hstored.symm.trans hlookup)
  exact .expire hreads hexpired

theorem removal_of_store (hcoherent : s.Coherent)
    (hlookup : s.items.lookup key = some e) {base : Shard} {stored : GoString}
    {value : Bytes} {expiresAt : Option ℤ} (hop : op.stores? = some stored)
    (hbase : Shard.Detached s base stored) :
    (base.storeLocked stored value expiresAt).2.items.lookup key = some e ∨
      Removal op clock s (base.storeLocked stored value expiresAt).2 e := by
  obtain ⟨_, hkey⟩ := (hcoherent.lookup_iff key e).mp hlookup
  by_cases hstored : key = stored
  · rw [← hkey] at hstored
    subst hstored
    exact Or.inr (.overwrite hop hbase rfl)
  · have hpushed : (base.pushEntry stored value expiresAt).items.lookup key =
        some e := by
      rw [Shard.pushEntry_items, AList.lookup_insert_ne hstored,
        hbase.lookup_eq key hstored, hlookup]
    by_cases hlimited : 0 < base.maxSize
    · obtain ⟨kept, evicted, hevicts⟩ :=
        hbase.away.storeLocked_evicts hlimited value expiresAt
      have hmem := (((hbase.away.pushEntry value expiresAt).lookup_iff key
        e).mp hpushed).1
      rw [hevicts.split, List.mem_append] at hmem
      rcases hmem with hmem | hmem
      · left
        rw [hevicts.coherent.lookup_iff, hevicts.elements]
        exact ⟨hmem, hkey⟩
      · exact Or.inr (.evict hop hbase hevicts hmem)
    · left
      rw [Shard.storeLocked_unlimited (not_lt.mp hlimited)]
      exact hpushed

/-- Wherever the entry was before the section, it stays there or leaves in one
of the four ways. -/
theorem body_removal (hmarshal : ∀ n, ∃ data, codec.marshal n = .ok data)
    (hinv : s.Invariant) (hlookup : s.items.lookup key = some e)
    (op : Section) :
    (op.body codec s clock).2.items.lookup key = some e ∨
      Removal op clock s (op.body codec s clock).2 e := by
  obtain ⟨_, hkey⟩ := (hinv.lookup_iff key e).mp hlookup
  cases op with
  | now => exact Or.inl hlookup
  | existsRead other => exact Or.inl hlookup
  | ttlRead other => exact Or.inl hlookup
  | get other =>
    simp only [Section.body, Shard.get]
    cases hstored : s.items.lookup other with
    | none => exact Or.inl hlookup
    | some stored =>
      by_cases hexpired : stored.isExpired (clock.now 0) = true
      · simp only [hexpired, if_true]
        exact removal_of_expired hlookup hstored ⟨0, rfl⟩ hexpired
      · simp only [hexpired]
        exact Or.inl hlookup
  | set other value expiresAt =>
    obtain ⟨base, hbase, hset⟩ :=
      hinv.setLocked_cases other value expiresAt
    change (s.setLocked other value expiresAt).2.items.lookup key = some e ∨
      Removal _ clock s (s.setLocked other value expiresAt).2 e
    rw [hset]
    exact removal_of_store hinv.toCoherent hlookup rfl hbase
  | delete other =>
    simp only [Section.body, Shard.delete]
    cases hstored : s.items.lookup other with
    | none => exact Or.inl hlookup
    | some stored =>
      refine (lookup_removeLocked hlookup other stored).imp_right
        fun hother => .delete ?_
      rw [hkey, hother]
  | removeIfExpired other =>
    simp only [Section.body, Shard.removeIfExpired]
    cases hstored : s.items.lookup other with
    | none => exact Or.inl hlookup
    | some stored =>
      by_cases hexpired : stored.isExpired (clock.now 0) = true
      · simp only [hexpired, if_true]
        exact removal_of_expired hlookup hstored ⟨0, rfl⟩ hexpired
      · simp only [hexpired]
        exact Or.inl hlookup
  | incr other delta ttl =>
    simp only [Section.body]
    rcases hinv.incr_cases codec clock other delta ttl with
      ⟨err, hincr⟩ | ⟨base, current, _, hbase, hincr⟩
    · rw [hincr]
      exact Or.inl hlookup
    · -- the counter can be encoded, so it is stored
      obtain ⟨data, hdata⟩ := hmarshal (current + delta)
      simp only [hincr, Shard.incrStore, hdata]
      exact removal_of_store hinv.toCoherent hlookup rfl hbase
  | sweep reading =>
    have hswept := (hinv.deleteExpired_sweeps (.instant reading)).lookup key
    have hentry : s.items.entries.dlookup key = some e := hlookup
    rw [hentry] at hswept
    by_cases hexpired : e.isExpired reading = true
    · exact Or.inr (.expire rfl hexpired)
    · left
      simp only [Option.any_some, Readings.instant_now, hexpired] at hswept
      exact hswept.trans hlookup

end Removals

/-! ## Runs -/

/-- The answers of the clock are not ahead of it. -/
def Section.Possible (latest : ℤ) : (op : Section) → op.Answer → Prop
  | .now, (reading : ℤ) => reading ≤ latest
  | _, _ => True

theorem program_performsFrom (op : StoreOp) (latest : ℤ) :
    (program op).PerformsFrom Section.Possible Section.Timely latest := by
  cases op with
  | get key => exact ⟨trivial, fun _ _ _ _ => trivial⟩
  | set key value ttl =>
    change (set key value ttl).PerformsFrom _ _ latest
    unfold set
    split
    · refine ⟨trivial, fun later (reading : ℤ) _ hreading =>
        ⟨?_, fun _ _ _ _ => trivial⟩⟩
      change reading + ttl.toInt < later + 2 ^ 63
      change reading ≤ later at hreading
      have hlt := Int64.toInt_lt ttl
      omega
    · exact ⟨trivial, fun _ _ _ _ => trivial⟩
  | delete key => exact ⟨trivial, fun _ _ _ _ => trivial⟩
  | «exists» key =>
    refine ⟨trivial, fun _ read _ _ => ?_⟩
    change (existsNext key read).PerformsFrom _ _ _
    cases read with
    | some ok => trivial
    | none => exact ⟨trivial, fun _ _ _ _ => trivial⟩
  | ttl key =>
    refine ⟨trivial, fun _ read _ _ => ?_⟩
    change (ttlNext key read).PerformsFrom _ _ _
    cases read with
    | some remaining => trivial
    | none => exact ⟨trivial, fun _ _ _ _ => trivial⟩
  | incr key delta ttl => exact ⟨trivial, fun _ _ _ _ => trivial⟩
  | deleteExpired =>
    exact ⟨trivial, fun _ _ _ hreading =>
      ⟨hreading, fun _ _ _ _ => trivial⟩⟩

section Runs

variable {ι : Type} [DecidableEq ι] {codec : Msgpack}

structure RunSound (config : Config ι signature Guarded Outcome) : Prop where
  sound : Sound config.shared
  timely : ∀ i, (config.threads i).PerformsFrom Section.Possible
    Section.Timely config.shared.latest

def initial (g : Guarded) (calls : ι → StoreOp) :
    Config ι signature Guarded Outcome :=
  Config.start g fun i => program (calls i)

theorem RunSound.step {config next : Config ι signature Guarded Outcome}
    (hrun : RunSound config) {label : Label ι Readings Empty}
    (hstep : config.step (machine codec) label = some next) :
    RunSound next := by
  cases label with
  | env event => exact event.elim
  | thread i clock =>
    obtain ⟨op, continuation, answer, hthread, hexec, _, _⟩ :=
      Config.step_thread_cases hstep
    have htimely := hrun.timely i
    rw [hthread] at htimely
    refine ⟨hrun.sound.exec htimely.1 hexec, ?_⟩
    have hlatest : next.shared.latest =
        max config.shared.latest clock.finish := by
      rw [(exec_cases hexec).2.2]
      rfl
    refine Config.step_performsFrom Section.Timely.mono hrun.timely hstep
      (hlatest ▸ le_max_left _ _) ?_
    intro op answer hexec
    cases op with
    | now =>
      rw [(exec_cases hexec).2.1]
      change clock.now 0 ≤ next.shared.latest
      rw [hlatest]
      exact (clock.le_finish 0).trans (le_max_right _ _)
    | _ => trivial

theorem runSound_of_reaches {g : Guarded} (hsound : Sound g)
    {calls : ι → StoreOp} {config : Config ι signature Guarded Outcome}
    (hreach : Config.Reaches (machine codec) anyStep (initial g calls) config) :
    RunSound config :=
  hreach.invariant RunSound
    ⟨hsound, fun i => program_performsFrom (calls i) g.latest⟩
    fun _ _ _ hrun _ hstep => hrun.step hstep

/-! ## What a read returns -/

/-- Thread `i` had, at a moment of a section of its own, the answer of the timed
map to its call. -/
def Justified (codec : Msgpack) (start config : Config ι signature Guarded
    Outcome) (i : ι) (op : StoreOp) (result : StoreResult) : Prop :=
  ∃ before after clock t,
    Config.Reaches (machine codec) anyStep start before ∧
    before.step (machine codec) (.thread i clock) = some after ∧
    Config.Reaches (machine codec) anyStep after config ∧
    clock.start ≤ t ∧ t ≤ clock.finish ∧
    Answers (timedAnswer before.shared.map (.instant t) op) result

variable {result : StoreResult}

theorem Justified.step {start config next : Config ι signature Guarded Outcome}
    {i : ι} {op : StoreOp}
    (hjustified : Justified codec start config i op result)
    {label : Label ι Readings Empty}
    (hstep : config.step (machine codec) label = some next) :
    Justified codec start next i op result := by
  obtain ⟨before, after, clock, t, hbefore, hown, hafter, hanswer⟩ :=
    hjustified
  exact ⟨before, after, clock, t, hbefore, hown,
    hafter.tail ⟨label, trivial, hstep⟩, hanswer⟩

/-- The call has returned the result, or has only its second section left. -/
def Settled (result : StoreResult) (program : Program Outcome) : Prop :=
  program = .ret (result, []) ∨ ∃ key, program = recheck key result

theorem Settled.next {next : op.Answer → Program Outcome}
    (hsettled : Settled result (.act op next)) (answer : op.Answer) :
    next answer = .ret (result, []) := by
  rcases hsettled with hret | ⟨key, hrecheck⟩
  · contradiction
  · unfold recheck at hrecheck
    cases hrecheck
    rfl

theorem Settled.eq_of_ret {outcome : Outcome}
    (hsettled : Settled result (.ret outcome)) : result = outcome.1 := by
  rcases hsettled with hret | ⟨key, hrecheck⟩
  · rw [Prog.ret.inj hret]
  · unfold recheck at hrecheck
    contradiction

theorem program_ne_ret (op : StoreOp) (outcome : Outcome) :
    program op ≠ .ret outcome := by
  cases op with
  | set key value ttl =>
    change set key value ttl ≠ .ret outcome
    unfold set
    split
    · intro heq
      contradiction
    · intro heq
      contradiction
  | _ =>
    intro heq
    contradiction

theorem exists_eq_getD (s : Shard) (clock : Readings) (key : GoString) :
    (s.exists clock key).1 = (s.existsRead (clock.now 0) key).getD false := by
  unfold Shard.exists Shard.existsRead
  cases s.items.lookup key with
  | none => rfl
  | some e =>
    simp only
    split <;> rfl

theorem ttl_eq_getD (s : Shard) (clock : Readings) (key : GoString) :
    (s.ttl clock key).1 = (s.ttlRead clock key).getD 0 := by
  unfold Shard.ttl Shard.ttlRead
  cases s.items.lookup key with
  | none => rfl
  | some e =>
    simp only
    split <;> rfl

theorem Sound.answers {g : Guarded} (hsound : Sound g) (codec : Msgpack)
    {clock : Readings} (hle : g.wrote ≤ clock.start) {call : StoreOp}
    {key : GoString} (hkey : call.key? = some key)
    (hresult : result = (cellStep codec clock call (g.shard.contents key)).1) :
    Answers (timedAnswer g.map clock call) result := by
  have hstarts : StartsAfter (g.wrote, g.map) (clock, call) := hle
  have hanswers := hsound.ledger.answers codec (fun _ => 0) hstarts
  simp only [ledgerStep, hkey] at hanswers
  rw [hresult]
  exact hanswers

theorem Sound.first_section {g : Guarded} (hsound : Sound g) {call : StoreOp}
    (hreads : call.reads = true) {next : op.Answer → Program Outcome}
    (hprogram : program call = .act op next) {clock : Readings}
    {answer : op.Answer} {after : Guarded}
    (hexec : (machine codec).exec g op clock = some (answer, after)) :
    ∃ result t, Settled result (next answer) ∧ clock.start ≤ t ∧
      t ≤ clock.finish ∧
      Answers (timedAnswer g.map (.instant t) call) result := by
  obtain ⟨hadmits, hanswer, _⟩ := exec_cases hexec
  subst hanswer
  cases call with
  | get key =>
    cases hprogram
    have hle : g.wrote ≤ clock.start :=
      hsound.wrote_le.trans (of_decide_eq_true hadmits)
    refine ⟨.value (g.shard.get clock key).1, clock.now 0, Or.inl rfl,
      clock.start_le 0, clock.le_finish 0, ?_⟩
    exact hsound.answers codec hle rfl
      (Shard.get_followsCell g.shard codec clock key).result_eq
  | «exists» key =>
    cases hprogram
    refine ⟨.flag (g.shard.exists clock key).1, clock.now 0, ?_,
      clock.start_le 0, clock.le_finish 0, ?_⟩
    · rw [exists_eq_getD]
      change Settled _ (existsNext key
        (g.shard.existsRead (clock.now 0) key))
      cases g.shard.existsRead (clock.now 0) key with
      | none => exact Or.inr ⟨key, rfl⟩
      | some ok => exact Or.inl rfl
    · exact hsound.answers codec (of_decide_eq_true hadmits) rfl
        (Shard.exists_followsCell g.shard codec clock key).result_eq
  | ttl key =>
    cases hprogram
    -- a record that dies between the two readings has no time left either
    refine ⟨.remaining (g.shard.ttl clock key).1, clock.now 1, ?_,
      clock.start_le 1, clock.le_finish 1, ?_⟩
    · rw [ttl_eq_getD]
      change Settled _ (ttlNext key (g.shard.ttlRead clock key))
      cases g.shard.ttlRead clock key with
      | none => exact Or.inr ⟨key, rfl⟩
      | some remaining => exact Or.inl rfl
    · exact hsound.answers codec (of_decide_eq_true hadmits) rfl
        (Shard.ttl_followsCell g.shard codec clock key).result_eq
  | _ => contradiction

/-- A read has not begun, or its result is settled and justified. -/
theorem settled_of_reaches {g : Guarded} (hsound : Sound g)
    {calls : ι → StoreOp} {config : Config ι signature Guarded Outcome}
    (hreach : Config.Reaches (machine codec) anyStep (initial g calls) config)
    {i : ι} (hreads : (calls i).reads = true) :
    config.threads i = program (calls i) ∨
      ∃ result, Settled result (config.threads i) ∧
        Justified codec (initial g calls) config i (calls i) result := by
  induction hreach with
  | refl => exact Or.inl rfl
  | @tail config next hreach hstep ih =>
    obtain ⟨label, _, hstep⟩ := hstep
    cases label with
    | env event => exact event.elim
    | thread j clock =>
      obtain ⟨op, continuation, answer, hthread, hexec, hthreads, _⟩ :=
        Config.step_thread_cases hstep
      rw [hthreads]
      by_cases hij : i = j
      · subst j
        rw [Function.update_self]
        right
        rcases ih with hfirst | ⟨result, hsettled, hjustified⟩
        · -- the first section settles the result
          obtain ⟨result, t, hsettled, hstart, hfinish, hanswers⟩ :=
            (runSound_of_reaches hsound hreach).sound.first_section hreads
              (hfirst.symm.trans hthread) hexec
          exact ⟨result, hsettled, config, next, clock, t, hreach, hstep,
            .refl, hstart, hfinish, hanswers⟩
        · rw [hthread] at hsettled
          exact ⟨result, Or.inl (hsettled.next answer),
            hjustified.step hstep⟩
      · rw [Function.update_of_ne hij]
        exact ih.imp_right fun ⟨result, hsettled, hjustified⟩ =>
          ⟨result, hsettled, hjustified.step hstep⟩

/-- Every counter can be encoded.  An entry leaves the shard only when its key
is deleted, when it is overwritten or evicted, or in a section that reads the
clock after its deadline; and what a read returns is the answer of the timed
map at a moment of the call. -/
theorem lock_upgrade_safe
    (hmarshal : ∀ n, ∃ data, codec.marshal n = .ok data) (maxSize : ℤ)
    (onEvict onExpire : Bool) (start : ℤ) (calls : ι → StoreOp)
    {config : Config ι signature Guarded Outcome}
    (hreach : Config.Reaches (machine codec) anyStep
      (initial (.new maxSize onEvict onExpire start) calls) config) :
    (∀ i clock next,
      config.step (machine codec) (.thread i clock) = some next →
      ∃ op answer, next.log = config.log ++ [⟨i, op, answer⟩] ∧
        ∀ key e, config.shared.shard.items.lookup key = some e →
          next.shared.shard.items.lookup key = some e ∨
            Removal op clock config.shared.shard next.shared.shard e) ∧
    ∀ i outcome, (calls i).reads = true →
      config.threads i = .ret outcome →
      Justified codec (initial (.new maxSize onEvict onExpire start) calls)
        config i (calls i) outcome.1 := by
  have hsound := sound_new maxSize onEvict onExpire start
  have hrun := runSound_of_reaches hsound hreach
  constructor
  · intro i clock next hstep
    obtain ⟨op, _, answer, _, hexec, _, hlog⟩ := Config.step_thread_cases hstep
    refine ⟨op, answer, hlog, ?_⟩
    intro key e hlookup
    rw [(exec_cases hexec).2.2]
    exact body_removal hmarshal hrun.sound.invariant hlookup op
  · intro i outcome hreads hreturned
    rcases settled_of_reaches hsound hreach hreads with
      hfirst | ⟨result, hsettled, hjustified⟩
    · exact absurd (hfirst.symm.trans hreturned) (program_ne_ret _ _)
    · rw [hreturned] at hsettled
      rw [← hsettled.eq_of_ret]
      exact hjustified

end Runs

/-- Between the two sections of Exists, a third call writes the key again. -/
def threeCalls : Fin 3 → StoreOp
  | 0 => .set (ascii "k") [1] 5
  | 1 => .exists (ascii "k")
  | 2 => .set (ascii "k") [2] 100

/-- The new entry stays, and the answer was right when the first was there. -/
theorem lock_upgrade_safe_between :
    ∃ config,
      Config.Reaches (machine .int64) anyStep
        (initial (.new 0 false false 0) threeCalls) config ∧
      config.shared.shard.contents (ascii "k") = some ⟨[2], some 110⟩ ∧
      Justified .int64 (initial (.new 0 false false 0) threeCalls) config 1
        (.exists (ascii "k")) (.flag false) := by
  have hrun : ((initial (.new 0 false false 0) threeCalls).runWith
      (machine .int64) anyStep
      [.thread 0 (.instant 0), .thread 0 (.instant 0),
        .thread 1 (.instant 10), .thread 2 (.instant 10),
        .thread 2 (.instant 10), .thread 1 (.instant 11)]).any (fun config =>
        decide ((config.threads 1).value? = some (.flag false, [])) &&
          decide (config.shared.shard.contents (ascii "k") =
            some ⟨[2], some 110⟩)) = true := by
    decide +kernel
  obtain ⟨config, hreach, htest⟩ := Config.exists_reaches hrun
  simp only [Bool.and_eq_true, decide_eq_true_eq] at htest
  obtain ⟨hreturned, hcontents⟩ := htest
  have hmarshal : ∀ n, ∃ data, Msgpack.int64.marshal n = .ok data :=
    fun n => ⟨0xd3 :: putInt64 n, rfl⟩
  exact ⟨config, hreach, hcontents,
    (lock_upgrade_safe hmarshal 0 false false 0 threeCalls hreach).2 1 _ rfl
      (Prog.eq_ret_of_value? hreturned)⟩

end Sections

end CacheGrid
