import CacheGrid.BrokerChannels
import CacheGrid.BrokerQueues

/-!
# What becomes of a published event

Publish goes through the map of subscriptions and offers the event to those
it finds open and matching; it does not wait for room in a channel.  Nothing
here rests on the lock or on the flags being read in quiet moments.

Which events get into a queue follows from three facts.  The map files a
subscription under its own number, so a range over it finds every
subscription once.  Publish offers its event only where the pattern matched.
And it leaves out no entry of the range but those it found closed or not
matching.
-/

namespace CacheGrid

open InterleavedPrograms LossyQueues

namespace Pubsub

/-! ## Numbers and patterns -/

/-- What an answer tells about the subscriptions. -/
def Tells (pathMatch : GoString → GoString → Bool)
    (heap : List Subscription) : (op : Op) → op.Answer → Prop
  | .newSubscription id _, s => ∃ sub, heap[s]? = some sub ∧ sub.id = id
  | .matchKey s key, found => ∃ sub, heap[s]? = some sub ∧
      pathMatch sub.pattern key = found
  | .subscriptions, entries => (entries.map Sigma.snd).Nodup
  | _, _ => True

/-- Every subscription of the map is filed under its own number. -/
def Filed (b : Broker) : Prop :=
  ∀ entry ∈ b.subscriptions.entries, ∃ sub,
    b.heap[entry.2]? = some sub ∧ sub.id = entry.1

section Answers

variable {pathMatch : GoString → GoString → Bool} {b b' : Broker} {op : Op}
  {answer : op.Answer} {choice : Choice}

theorem HeapStep.tells {broken : Prop} {heap heap' : List Subscription}
    {op' : Op} {answer' : op'.Answer}
    (hstep : HeapStep broken op answer heap heap')
    (htells : Tells pathMatch heap op' answer') :
    Tells pathMatch heap' op' answer' := by
  cases op' with
  | newSubscription id pattern =>
    obtain ⟨sub, hsub, hid⟩ := htells
    obtain ⟨sub', hsub', hserved⟩ := hstep.served hsub
    exact ⟨sub', hsub', hserved.id.trans hid⟩
  | matchKey s key =>
    obtain ⟨sub, hsub, hfound⟩ := htells
    obtain ⟨sub', hsub', hserved⟩ := hstep.served hsub
    exact ⟨sub', hsub', by rw [hserved.pattern, hfound]⟩
  | subscriptions => exact htells
  | _ => trivial

theorem Filed.exec (hfiled : Filed b)
    (hmade : ∀ id s, op = .insert id s → ∃ sub,
      b.heap[s]? = some sub ∧ sub.id = id)
    (hexec : exec pathMatch b op choice = some (answer, b')) : Filed b' := by
  have hkept : ∀ {s : ℕ} {id : UInt64},
      (∃ sub, b.heap[s]? = some sub ∧ sub.id = id) →
      ∃ sub, b'.heap[s]? = some sub ∧ sub.id = id := by
    rintro s id ⟨sub, hsub, hid⟩
    obtain ⟨sub', hsub', hserved⟩ := (exec_step hexec).1.served hsub
    exact ⟨sub', hsub', hserved.id.trans hid⟩
  intro entry hentry
  rw [(exec_step hexec).2] at hentry
  cases op with
  | insert id s =>
    rcases List.mem_cons.mp hentry with rfl | htail
    · exact hkept (hmade id s rfl)
    · exact hkept (hfiled entry ((List.kerase_sublist _ _).subset htail))
  | delete id =>
    exact hkept (hfiled entry ((List.kerase_sublist _ _).subset hentry))
  | _ => exact hkept (hfiled entry hentry)

theorem Filed.nodup (hfiled : Filed b) :
    (b.subscriptions.entries.map Sigma.snd).Nodup := by
  refine List.Nodup.map_on ?_ (List.NodupKeys.nodup b.subscriptions.nodupKeys)
  rintro ⟨id, s⟩ hfirst ⟨id', s'⟩ hsecond hsame
  obtain ⟨sub, hsub, rfl⟩ := hfiled _ hfirst
  obtain ⟨sub', hsub', rfl⟩ := hfiled _ hsecond
  obtain rfl : s = s' := hsame
  rw [hsub, Option.some.injEq] at hsub'
  rw [hsub']

theorem tells_of_exec (hfiled : Filed b)
    (hexec : exec pathMatch b op choice = some (answer, b')) :
    Tells pathMatch b'.heap op answer := by
  have hcalm := execCalm_of_exec hexec
  cases op with
  | newSubscription id pattern =>
    simp only [execCalm, Option.some.injEq, Prod.mk.injEq] at hcalm
    rw [← hcalm.1, ← hcalm.2]
    simp [Tells, newSubscription]
  | subscriptions =>
    simp only [execCalm, Option.ite_none_right_eq_some, Option.some.injEq,
      Prod.mk.injEq] at hcalm
    rw [← hcalm.2.1]
    exact (hcalm.1.map Sigma.snd).nodup_iff.mpr hfiled.nodup
  | matchKey s key =>
    obtain ⟨sub, hsub, heq⟩ := Option.map_eq_some_iff.mp hcalm
    rw [Prod.mk.injEq] at heq
    rw [← heq.1, ← heq.2]
    exact ⟨sub, hsub, rfl⟩
  | _ => trivial

end Answers

/-! ## What the parties do -/

def Op.Plain : Op → Prop
  | .newSubscription _ _ => False
  | .insert _ _ => False
  | .trySend _ _ => False
  | _ => True

section Programs

theorem performs_close (s : ℕ) :
    (close s).Performs (fun _ _ => True) Op.Plain fun _ => True := by
  refine ⟨trivial, fun closed _ => ?_⟩
  cases closed with
  | true => trivial
  | false =>
    exact ⟨trivial, fun _ _ => ⟨trivial, fun _ _ => ⟨trivial,
      fun _ _ => trivial⟩⟩⟩

theorem performs_unsubscribe (id : UInt64) :
    (unsubscribe id).Performs (fun _ _ => True) Op.Plain fun _ => True := by
  refine ⟨trivial, fun _ _ => ⟨trivial, fun found _ => ?_⟩⟩
  cases found with
  | none => exact ⟨trivial, fun _ _ => trivial⟩
  | some s =>
    refine (performs_close s).bind fun _ _ => ?_
    exact ⟨trivial, fun _ _ => ⟨trivial, fun _ _ => trivial⟩⟩

theorem performs_closeEach (entries : List ((_ : UInt64) × ℕ)) :
    (closeEach entries).Performs (fun _ _ => True) Op.Plain
      fun _ => True := by
  induction entries with
  | nil => trivial
  | cons entry rest ih =>
    exact (performs_close entry.2).bind fun _ _ =>
      ⟨trivial, fun _ _ => ih⟩

theorem performs_shutdown :
    shutdown.Performs (fun _ _ => True) Op.Plain fun _ => True := by
  refine ⟨trivial, fun _ _ => ⟨trivial, fun entries _ => ?_⟩⟩
  exact (performs_closeEach entries).bind fun _ _ =>
    ⟨trivial, fun _ _ => trivial⟩

theorem performs_receiveEvents (s rounds : ℕ) :
    (receiveEvents s rounds).Performs (fun _ _ => True) Op.Plain
      fun _ => True := by
  induction rounds with
  | zero => trivial
  | succ rounds ih =>
    refine ⟨trivial, fun received _ => ?_⟩
    cases received with
    | none => trivial
    | some event => exact ih

/-! ## A Publish on its way through the map -/

/-- The event as it is sent: with a time stamp, its own if it has one. -/
def Stamped (event stamped : Event) : Prop :=
  ∃ time, stamped = { event with timestamp := some time } ∧
    (event.timestamp = none ∨ event.timestamp = some time)

theorem Stamped.key {event stamped : Event} (hstamped : Stamped event stamped) :
    stamped.key = event.key := by
  obtain ⟨time, rfl, _⟩ := hstamped
  rfl

inductive Duty where
  | before
  /-- A new subscription, to be filed under its number. -/
  | made (id : UInt64) (s : ℕ)
  /-- The entries of the map that are still to be served, and whether the
  first of them was found to match. -/
  | visiting (found : Bool) (rest : List ((_ : UInt64) × ℕ))

namespace Duty

def current : Duty → Option ℕ
  | visiting _ (⟨_, s⟩ :: _) => some s
  | _ => none

def matched : Duty → Bool
  | visiting found _ => found
  | _ => false

def find : Duty → Duty
  | visiting _ rest => visiting true rest
  | duty => duty

def served : Duty → Duty
  | visiting _ (_ :: rest) => visiting false rest
  | duty => duty

theorem eq_of_current {duty : Duty} {s : ℕ}
    (hcurrent : duty.current = some s) :
    ∃ found id rest, duty = .visiting found (⟨id, s⟩ :: rest) := by
  cases duty with
  | before => contradiction
  | made id s => contradiction
  | visiting found entries =>
    cases entries with
    | nil => contradiction
    | cons entry rest =>
      rw [← Option.some.inj hcurrent]
      exact ⟨found, entry.1, rest, rfl⟩

end Duty

/-- A Publish serves the entries of the map in turn. -/
def publishDuties (event : Event) : Discipline signature Duty where
  guard duty op :=
    match op with
    | .insert _ _ => False
    | .subscriptions => duty = .before
    | .readClosed s => duty.current = some s
    | .matchKey s key => duty.current = some s ∧ key = event.key
    | .trySend s stamped => duty.current = some s ∧ duty.matched = true ∧
        Stamped event stamped
    | _ => True
  update duty op answer :=
    match op, answer with
    | .subscriptions, entries => .visiting false entries
    | .readClosed _, closed => if closed then duty.served else duty
    | .matchKey _ _, found => if found then duty.find else duty.served
    | .trySend _ _, _ => duty.served
    | _, _ => duty

/-- Nobody else offers an event, and Subscribe files what it has made. -/
def otherDuties : Discipline signature Duty where
  guard duty op :=
    match op with
    | .insert id s => duty = .made id s
    | .trySend _ _ => False
    | _ => True
  update duty op answer :=
    match op, answer with
    | .newSubscription id _, s => .made id s
    | _, _ => duty

def duties : Party → Discipline signature Duty
  | .publish event => publishDuties event
  | _ => otherDuties

theorem follows_publishDuties_to {event stamped : Event}
    (hstamped : Stamped event stamped) (id : UInt64) (s : ℕ)
    (rest : List ((_ : UInt64) × ℕ)) :
    Follows (publishDuties event) (fun duty _ => duty = .visiting false rest)
      (.visiting false (⟨id, s⟩ :: rest)) (publishTo stamped s) := by
  refine follows_perform rfl fun closed => ?_
  cases closed with
  | true => exact rfl
  | false =>
    refine follows_perform ⟨rfl, hstamped.key⟩ fun found => ?_
    cases found with
    | true => exact ⟨⟨rfl, rfl, hstamped⟩, fun _ => rfl⟩
    | false => exact rfl

theorem follows_publishDuties_each {event stamped : Event}
    (hstamped : Stamped event stamped) (entries : List ((_ : UInt64) × ℕ)) :
    Follows (publishDuties event) (fun duty _ => duty = .visiting false [])
      (.visiting false entries) (publishEach stamped entries) := by
  induction entries with
  | nil => exact rfl
  | cons entry rest ih =>
    refine follows_bind
      ((follows_publishDuties_to hstamped entry.1 entry.2 rest).mono ?_)
    rintro _ _ rfl
    exact ih

theorem follows_publishDuties_stamp (event : Event) :
    Follows (publishDuties event)
      (fun duty stamped => duty = .before ∧ Stamped event stamped) .before
      (stamp event) := by
  unfold stamp
  split
  · next time htime =>
      refine ⟨rfl, time, ?_, Or.inr htime⟩
      rw [← htime]
  · next htime =>
      exact follows_perform trivial fun now =>
        ⟨rfl, now, rfl, Or.inl htime⟩

theorem follows_publishDuties (event : Event) :
    Follows (publishDuties event) (fun duty _ => duty = .visiting false [])
      .before (publish event) := by
  refine follows_bind ((follows_publishDuties_stamp event).mono ?_)
  rintro _ stamped ⟨rfl, hstamped⟩
  refine follows_perform trivial fun _ => ?_
  refine follows_perform rfl fun entries => ?_
  refine follows_bind ((follows_publishDuties_each hstamped entries).mono ?_)
  rintro _ _ rfl
  exact ⟨trivial, fun _ => rfl⟩

theorem follows_otherDuties_of_plain {α : Type} {program : Program α}
    {post : α → Prop}
    (hperforms : program.Performs (fun _ _ => True) Op.Plain post)
    (duty : Duty) : Follows otherDuties (fun _ _ => True) duty program := by
  refine Follows.mono (hperforms.follows ?_ ?_) fun _ _ _ => trivial
  · intro op hplain
    cases op with
    | insert | trySend => exact hplain.elim
    | _ => trivial
  · intro op answer hplain
    cases op with
    | newSubscription => exact hplain.elim
    | _ => rfl

theorem follows_otherDuties_subscribe (pattern : GoString) :
    Follows otherDuties (fun _ _ => True) .before (subscribe pattern) := by
  refine follows_perform trivial fun id => ?_
  refine follows_perform trivial fun s => ?_
  refine follows_perform trivial fun _ => ?_
  refine follows_perform rfl fun _ => ?_
  exact follows_perform trivial fun _ => trivial

/-- What holds of the duty of a party at its end. -/
def Party.Finished : Party → Duty → Prop
  | .publish _, duty => duty = .visiting false []
  | _, _ => True

theorem Party.follows_duties (party : Party) :
    Follows (duties party) (fun duty _ => party.Finished duty) .before
      party.program := by
  cases party with
  | publish event => exact follows_publishDuties event
  | close s => exact follows_otherDuties_of_plain (performs_close s) _
  | subscribe pattern =>
    exact follows_map (follows_otherDuties_subscribe pattern)
  | unsubscribe id =>
    exact follows_otherDuties_of_plain (performs_unsubscribe id) _
  | shutdown => exact follows_otherDuties_of_plain performs_shutdown _
  | serve pattern rounds =>
    refine follows_bind ((follows_otherDuties_subscribe _).mono ?_)
    intro duty s _
    exact follows_otherDuties_of_plain
      ((performs_receiveEvents s rounds).bind fun _ _ => performs_close s) _

end Programs

section Visits

variable {ι : Type} {party : Party} {event stamped : Event}
  {log : List (LogEntry ι)} {i j : ι} {s : ℕ} {duty : Duty} {op : Op}
  {answer : op.Answer}

/-- What a Publish of thread `i` has done about subscription `s`. -/
def Answered (event : Event) (log : List (LogEntry ι)) (i : ι) (s : ℕ) :
    Prop :=
  (⟨i, .readClosed s, true⟩ : LogEntry ι) ∈ log ∨
    (⟨i, .matchKey s event.key, false⟩ : LogEntry ι) ∈ log ∨
    ∃ stamped, Stamped event stamped ∧ (i, stamped) ∈ sentTo s log

/-- How far the log has brought the party of thread `i`. -/
inductive Visits (log : List (LogEntry ι)) (i : ι) : Party → Duty → Prop
  | before {party : Party}
      (hsent : ∀ s stamped, (i, stamped) ∉ sentTo s log) :
      Visits log i party .before
  | made {party : Party} {id : UInt64} {s : ℕ} {pattern : GoString}
      (hmade : (⟨i, .newSubscription id pattern, s⟩ : LogEntry ι) ∈ log) :
      Visits log i party (.made id s)
  | visiting {event : Event} {found : Bool}
      {visited rest : List ((_ : UInt64) × ℕ)}
      (hread : (⟨i, .subscriptions, visited ++ rest⟩ : LogEntry ι) ∈ log)
      (hfound : found = true → ∀ entry ∈ rest.head?,
        (⟨i, .matchKey entry.2 event.key, true⟩ : LogEntry ι) ∈ log)
      (hsent : ∀ s stamped, (i, stamped) ∈ sentTo s log →
        s ∈ visited.map Sigma.snd)
      (hanswered : ∀ entry ∈ visited, Answered event log i entry.2) :
      Visits log i (.publish event) (.visiting found rest)

theorem Answered.append (hanswered : Answered event log i s)
    (more : List (LogEntry ι)) : Answered event (log ++ more) i s := by
  rcases hanswered with hclosed | hmatch | ⟨stamped, hstamped, hsent⟩
  · exact Or.inl (List.mem_append_left _ hclosed)
  · exact Or.inr (Or.inl (List.mem_append_left _ hmatch))
  · refine Or.inr (Or.inr ⟨stamped, hstamped, ?_⟩)
    exact mem_sentTo.mpr (List.mem_append_left _ (mem_sentTo.mp hsent))

theorem Visits.append (hvisits : Visits log i party duty)
    (hquiet : j = i → ∀ s, op.offered s = none) :
    Visits (log ++ [⟨j, op, answer⟩]) i party duty := by
  cases hvisits with
  | before hsent =>
    exact .before fun s stamped hmem =>
      hsent s stamped (mem_sentTo_of_append hmem (hquiet · s))
  | made hmade => exact .made (List.mem_append_left _ hmade)
  | visiting hread hfound hsent hanswered =>
    exact .visiting (List.mem_append_left _ hread)
      (fun htrue entry hentry =>
        List.mem_append_left _ (hfound htrue entry hentry))
      (fun s stamped hmem =>
        hsent s stamped (mem_sentTo_of_append hmem (hquiet · s)))
      fun entry hentry => (hanswered entry hentry).append _

theorem Visits.matchKey_mem (hvisits : Visits log i (.publish event) duty)
    (hcurrent : duty.current = some s) (hmatched : duty.matched = true) :
    (⟨i, .matchKey s event.key, true⟩ : LogEntry ι) ∈ log := by
  obtain ⟨found, id, rest, rfl⟩ := Duty.eq_of_current hcurrent
  cases hvisits with
  | visiting _ hfound _ _ => exact hfound hmatched ⟨id, s⟩ rfl

theorem Visits.find
    (hvisits : Visits (log ++ [⟨i, .matchKey s event.key, true⟩]) i
      (.publish event) duty)
    (hcurrent : duty.current = some s) :
    Visits (log ++ [⟨i, .matchKey s event.key, true⟩]) i (.publish event)
      duty.find := by
  obtain ⟨found, id, rest, rfl⟩ := Duty.eq_of_current hcurrent
  cases hvisits with
  | visiting hread hfound hsent hanswered =>
    refine .visiting hread (fun _ entry hentry => ?_) hsent hanswered
    rw [← Option.some.inj hentry]
    simp

theorem Visits.serve (hvisits : Visits log i (.publish event) duty)
    (hcurrent : duty.current = some s)
    (honly : ∀ t, t ≠ s → op.offered t = none)
    (hanswered : Answered event (log ++ [⟨i, op, answer⟩]) i s) :
    Visits (log ++ [⟨i, op, answer⟩]) i (.publish event) duty.served := by
  obtain ⟨found, id, rest, rfl⟩ := Duty.eq_of_current hcurrent
  cases hvisits with
  | @visiting _ _ visited _ hread _ hsent hbefore =>
    have hsplit : visited ++ ⟨id, s⟩ :: rest =
        (visited ++ [⟨id, s⟩]) ++ rest := by simp
    rw [hsplit] at hread
    refine .visiting (List.mem_append_left _ hread)
      (fun hfalse => absurd hfalse Bool.false_ne_true) ?_ ?_
    · intro t stamped hmem
      rw [List.map_append, List.mem_append]
      by_cases hts : t = s
      · exact Or.inr (by simp [hts])
      · exact Or.inl (hsent t stamped
          (mem_sentTo_of_append hmem fun _ => honly t hts))
    · intro entry hentry
      rcases List.mem_append.mp hentry with hold | hlast
      · exact (hbefore entry hold).append _
      · rw [List.mem_singleton] at hlast
        rw [hlast]
        exact hanswered

theorem Visits.publish (hvisits : Visits log i (.publish event) duty)
    (hguard : (publishDuties event).guard duty op) :
    Visits (log ++ [⟨i, op, answer⟩]) i (.publish event)
      ((publishDuties event).update duty op answer) := by
  cases op with
  | subscriptions =>
    obtain rfl : duty = .before := hguard
    cases hvisits with
    | before hsent =>
      have hread : (⟨i, .subscriptions, [] ++ answer⟩ : LogEntry ι) ∈
          log ++ [⟨i, .subscriptions, answer⟩] := by simp
      refine .visiting hread (fun hfalse => absurd hfalse
        Bool.false_ne_true) ?_ fun _ hentry => ?_
      · intro s stamped hmem
        exact absurd (mem_sentTo_of_append hmem fun _ => rfl)
          (hsent s stamped)
      · contradiction
  | readClosed s =>
    change Visits _ i _ (if answer then duty.served else duty)
    split
    · next hclosed =>
        refine hvisits.serve hguard (fun _ _ => rfl) (Or.inl ?_)
        obtain rfl : answer = true := hclosed
        simp
    · exact hvisits.append fun _ _ => rfl
  | matchKey s key =>
    obtain ⟨hcurrent, rfl⟩ := hguard
    change Visits _ i _ (if answer then duty.find else duty.served)
    split
    · next hmatch =>
        obtain rfl : answer = true := hmatch
        exact (hvisits.append fun _ _ => rfl).find hcurrent
    · next hmatch =>
        refine hvisits.serve hcurrent (fun _ _ => rfl) (Or.inr (Or.inl ?_))
        obtain rfl : answer = false := by simpa using hmatch
        simp
  | trySend s stamped =>
    obtain ⟨hcurrent, _, hstamped⟩ := hguard
    refine hvisits.serve hcurrent (fun t hts => if_neg (Ne.symm hts)) ?_
    refine Or.inr (Or.inr ⟨stamped, hstamped, ?_⟩)
    exact mem_sentTo_append.mpr (Or.inr ⟨rfl, if_pos rfl⟩)
  | _ => exact hvisits.append fun _ _ => rfl

theorem Visits.other (hvisits : Visits log i party duty)
    (hguard : otherDuties.guard duty op) :
    Visits (log ++ [⟨i, op, answer⟩]) i party
      (otherDuties.update duty op answer) := by
  cases op with
  | newSubscription id pattern =>
    have hmade : (⟨i, .newSubscription id pattern, answer⟩ : LogEntry ι) ∈
        log ++ [⟨i, .newSubscription id pattern, answer⟩] := by simp
    exact .made hmade
  | trySend s stamped => exact hguard.elim
  | _ => exact hvisits.append fun _ _ => rfl

theorem Visits.step (hvisits : Visits log i party duty)
    (hguard : (duties party).guard duty op) :
    Visits (log ++ [⟨i, op, answer⟩]) i party
      ((duties party).update duty op answer) := by
  cases party with
  | publish event => exact hvisits.publish hguard
  | _ => exact hvisits.other hguard

/-- A Publish does not offer its event to a subscription again. -/
theorem Visits.not_sent (hvisits : Visits log i party duty)
    (hnodup : ∀ entries : List ((_ : UInt64) × ℕ),
      (⟨i, .subscriptions, entries⟩ : LogEntry ι) ∈ log →
        (entries.map Sigma.snd).Nodup)
    (hcurrent : duty.current = some s) :
    i ∉ (sentTo s log).map Prod.fst := by
  intro hmem
  obtain ⟨⟨_, stamped⟩, hsend, rfl⟩ := List.mem_map.mp hmem
  obtain ⟨found, id, rest, rfl⟩ := Duty.eq_of_current hcurrent
  cases hvisits with
  | visiting hread _ hsent _ =>
    have hdistinct := hnodup _ hread
    rw [List.map_append, List.nodup_append] at hdistinct
    exact hdistinct.2.2 _ (hsent s stamped hsend) s (by simp) rfl

end Visits

/-! ## Over a run -/

section Runs

variable {ι : Type} [DecidableEq ι] {pathMatch : GoString → GoString → Bool}
  {parties : ι → Party} {config next : Config ι signature Broker Unit}

def dutyOf (parties : ι → Party) (log : List (LogEntry ι)) : ι → Duty :=
  ghostOf (fun i => duties (parties i)) (fun _ => .before) log

structure Rounds (pathMatch : GoString → GoString → Bool)
    (parties : ι → Party) (config : Config ι signature Broker Unit) :
    Prop where
  disciplined : config.Disciplined (fun i => duties (parties i))
    (fun _ => .before) fun i duty _ => (parties i).Finished duty
  filed : Filed config.shared
  tells : ∀ e ∈ config.log, Tells pathMatch config.shared.heap e.op e.answer
  visits : ∀ i, Visits config.log i (parties i) (dutyOf parties config.log i)
  publishers : ∀ s i stamped, (i, stamped) ∈ sentTo s config.log →
    ∃ event, parties i = .publish event ∧ Stamped event stamped ∧
      (⟨i, .matchKey s event.key, true⟩ : LogEntry ι) ∈ config.log
  once : ∀ s, ((sentTo s config.log).map Prod.fst).Nodup

theorem rounds_start :
    Rounds pathMatch parties
      (Config.start Broker.new fun i => (parties i).program) where
  disciplined := fun i => (parties i).follows_duties
  filed := fun _ hentry => absurd hentry List.not_mem_nil
  tells := fun _ he => absurd he List.not_mem_nil
  visits := fun _ => .before fun _ _ => List.not_mem_nil
  publishers := fun _ _ _ hmem => absurd hmem List.not_mem_nil
  once := fun _ => List.nodup_nil

section Step

variable {j : ι} {op : Op}
  (hrounds : Rounds pathMatch parties config)
  (hguard : (duties (parties j)).guard (dutyOf parties config.log j) op)

include hrounds hguard

theorem Rounds.made {id : UInt64} {s : ℕ} (hop : op = .insert id s) :
    ∃ sub, config.shared.heap[s]? = some sub ∧ sub.id = id := by
  subst hop
  have hduty : dutyOf parties config.log j = .made id s := by
    cases hparty : parties j with
    | publish event =>
      rw [hparty] at hguard
      exact hguard.elim
    | _ =>
      rw [hparty] at hguard
      exact hguard
  have hvisits := hrounds.visits j
  rw [hduty] at hvisits
  generalize parties j = party at hvisits
  cases hvisits with
  | made hmade => exact hrounds.tells _ hmade

theorem Rounds.offers {s : ℕ} {stamped : Event}
    (hoffered : op.offered s = some stamped) :
    ∃ event, parties j = .publish event ∧ Stamped event stamped ∧
      (⟨j, .matchKey s event.key, true⟩ : LogEntry ι) ∈ config.log ∧
      j ∉ (sentTo s config.log).map Prod.fst := by
  obtain rfl := offered_eq_some hoffered
  have hvisits := hrounds.visits j
  cases hparty : parties j with
  | publish event =>
    rw [hparty] at hguard hvisits
    obtain ⟨hcurrent, hmatched, hstamped⟩ := hguard
    exact ⟨event, rfl, hstamped, hvisits.matchKey_mem hcurrent hmatched,
      hvisits.not_sent (fun _ hread => hrounds.tells _ hread) hcurrent⟩
  | close | subscribe | unsubscribe | shutdown | serve =>
    rw [hparty] at hguard
    exact hguard.elim

end Step

theorem Rounds.step {label : Label ι Choice Empty}
    (hrounds : Rounds pathMatch parties config)
    (hstep : config.step (machine pathMatch) label = some next) :
    Rounds pathMatch parties next := by
  cases label with
  | env event => exact nomatch event
  | thread j choice =>
    obtain ⟨op, _, answer, hthread, hexec, _, hlog⟩ :=
      Config.step_thread_cases hstep
    have hguard : (duties (parties j)).guard
        (dutyOf parties config.log j) op := by
      have hfollow := hrounds.disciplined j
      rw [hthread] at hfollow
      exact hfollow.1
    refine ⟨hrounds.disciplined.step hstep,
      hrounds.filed.exec (fun _ _ => hrounds.made hguard) hexec,
      ?_, ?_, ?_, ?_⟩
    · intro e he
      rw [hlog, List.mem_append, List.mem_singleton] at he
      rcases he with hold | rfl
      · exact (exec_step hexec).1.tells (hrounds.tells e hold)
      · exact tells_of_exec hrounds.filed hexec
    · rw [hlog, dutyOf, ghostOf_append,
        Function.forall_update_iff _ fun i => Visits _ i (parties i)]
      exact ⟨(hrounds.visits j).step hguard, fun i hij =>
        (hrounds.visits i).append fun hji => absurd hji.symm hij⟩
    · intro s i stamped hmem
      rw [hlog] at hmem ⊢
      rcases mem_sentTo_append.mp hmem with hmem | ⟨rfl, hoffered⟩
      · obtain ⟨event, hparty, hstamped, hmatch⟩ :=
          hrounds.publishers s i stamped hmem
        exact ⟨event, hparty, hstamped, List.mem_append_left _ hmatch⟩
      · obtain ⟨event, hparty, hstamped, hmatch, _⟩ :=
          hrounds.offers hguard hoffered
        exact ⟨event, hparty, hstamped, List.mem_append_left _ hmatch⟩
    · intro s
      rw [hlog, sentTo_append]
      cases hoffered : op.offered s with
      | none => simpa using hrounds.once s
      | some stamped =>
        obtain ⟨_, _, _, _, hnew⟩ := hrounds.offers hguard hoffered
        rw [Option.map_some, Option.toList_some, List.map_append,
          List.map_singleton, ← List.concat_eq_append,
          List.nodup_concat]
        exact ⟨hnew, hrounds.once s⟩

theorem rounds_of_reaches
    (hreach : Config.Reaches (machine pathMatch) anyStep
      (Config.start Broker.new fun i => (parties i).program) config) :
    Rounds pathMatch parties config :=
  hreach.invariant (Rounds pathMatch parties) rounds_start
    fun _ _ _ hrounds _ hstep => hrounds.step hstep

/-- In every run, a subscriber receives its events in the order in which they
were offered to it, each at most once; every Publish offers its event to a
subscription at most once, and only if the pattern matches; and no event is
lost as long as the subscriber keeps up. -/
theorem events_delivered
    (hreach : Config.Reaches (machine pathMatch) anyStep
      (Config.start Broker.new fun i => (parties i).program) config)
    {s : ℕ} {sub : Subscription} (hsub : config.shared.heap[s]? = some sub) :
    (receivedFrom s config.log ++ sub.ch.buffered).Sublist
        ((sentTo s config.log).map Prod.snd) ∧
      sub.ch.buffered.length ≤ defaultBufSize ∧
      ((sentTo s config.log).map Prod.fst).Nodup ∧
      (∀ i stamped, (i, stamped) ∈ sentTo s config.log →
        ∃ event, parties i = .publish event ∧ Stamped event stamped ∧
          pathMatch sub.pattern event.key = true) ∧
      (KeepsUp s config.log → config.shared.panicked = none →
        receivedFrom s config.log ++ sub.ch.buffered =
          (sentTo s config.log).map Prod.snd) := by
  have hqueued := (recorded_of_reaches hreach s).queued sub hsub
  have hrounds := rounds_of_reaches hreach
  refine ⟨hqueued.queue.in_order, hqueued.queue.bounded, hrounds.once s, ?_,
    fun hkeeps hcalm => hqueued.whole hkeeps (not_not_intro hcalm)⟩
  intro i stamped hmem
  obtain ⟨event, hparty, hstamped, hmatch⟩ :=
    hrounds.publishers s i stamped hmem
  obtain ⟨sub', hsub', htrue⟩ := hrounds.tells _ hmatch
  rw [hsub, Option.some.injEq] at hsub'
  rw [hsub']
  exact ⟨event, hparty, hstamped, htrue⟩

/-! ## Nobody is left out -/

/-- Takes subscription `s` out of the map, puts another one in its place, or
closes it. -/
def Op.withdraws (id : UInt64) (s : ℕ) : Op → Bool
  | .delete id' => id' == id
  | .insert id' t => id' == id && t != s
  | .setClosed t => t == s
  | _ => false

/-- The answer does not miss subscription `s`. -/
def Finds (id : UInt64) (s : ℕ) : (op : Op) → op.Answer → Prop
  | .subscriptions, entries => ⟨id, s⟩ ∈ entries
  | .readClosed t, closed => t = s → closed = false
  | _, _ => True

/-- Subscription `s` is in the map and open, and thread `i` has not missed
it. -/
structure Held (i : ι) (id : UInt64) (s : ℕ) (pattern : GoString)
    (config : Config ι signature Broker Unit) : Prop where
  filed : config.shared.subscriptions.lookup id = some s
  opened : ∃ sub, config.shared.heap[s]? = some sub ∧
    sub.closed = false ∧ sub.pattern = pattern
  finds : ∀ e ∈ config.log, e.thread = i → Finds id s e.op e.answer

section Held

variable {i : ι} {id : UInt64} {s : ℕ} {pattern : GoString} {op : Op}

theorem lookup_onMap {subscriptions : AList fun _ : UInt64 => ℕ}
    (hkept : op.withdraws id s = false)
    (hfiled : subscriptions.lookup id = some s) :
    (op.onMap subscriptions).lookup id = some s := by
  cases op with
  | insert id' t =>
    by_cases hid : id' = id
    · subst hid
      have hts : t = s := by simpa [Op.withdraws] using hkept
      rw [Op.onMap, AList.lookup_insert, hts]
    · rw [Op.onMap, AList.lookup_insert_ne (Ne.symm hid)]
      exact hfiled
  | delete id' =>
    have hid : id' ≠ id := by simpa [Op.withdraws] using hkept
    rw [Op.onMap, AList.lookup_erase_ne (Ne.symm hid)]
    exact hfiled
  | _ => exact hfiled

theorem finds_of_exec {b b' : Broker} {answer : op.Answer} {choice : Choice}
    {sub : Subscription} (hfiled : b.subscriptions.lookup id = some s)
    (hsub : b.heap[s]? = some sub) (hopen : sub.closed = false)
    (hexec : exec pathMatch b op choice = some (answer, b')) :
    Finds id s op answer := by
  have hcalm := execCalm_of_exec hexec
  cases op with
  | subscriptions =>
    simp only [execCalm, Option.ite_none_right_eq_some, Option.some.injEq,
      Prod.mk.injEq] at hcalm
    rw [← hcalm.2.1]
    exact hcalm.1.mem_iff.mpr (AList.mem_lookup_iff.mp hfiled)
  | readClosed t =>
    rintro rfl
    obtain ⟨found, hfound, heq⟩ := Option.map_eq_some_iff.mp hcalm
    rw [hsub, Option.some.injEq] at hfound
    rw [Prod.mk.injEq] at heq
    rw [← heq.1, ← hfound]
    exact hopen
  | _ => trivial

theorem Held.step {label : Label ι Choice Empty}
    (hheld : Held i id s pattern config)
    (hstep : config.step (machine pathMatch) label = some next)
    (hkept : ∀ e ∈ next.log.drop config.log.length,
      e.op.withdraws id s = false) : Held i id s pattern next := by
  cases label with
  | env event => exact nomatch event
  | thread j choice =>
    obtain ⟨op, _, answer, _, hexec, _, hlog⟩ :=
      Config.step_thread_cases hstep
    have hop : op.withdraws id s = false :=
      hkept ⟨j, op, answer⟩ (by simp [hlog])
    obtain ⟨hheap, hmap⟩ := exec_step hexec
    obtain ⟨sub, hsub, hopen, hpattern⟩ := hheld.opened
    obtain ⟨sub', hsub', hserved⟩ := hheap.served hsub
    refine ⟨hmap ▸ lookup_onMap hop hheld.filed,
      ⟨sub', hsub', ?_, hserved.pattern.trans hpattern⟩, ?_⟩
    · by_contra hclosed
      rcases hserved.closed (by simpa using hclosed) with hbefore | rfl
      · exact absurd hbefore (by simp [hopen])
      · simp [Op.withdraws] at hop
    · intro e he hthread
      rw [hlog, List.mem_append, List.mem_singleton] at he
      rcases he with hold | rfl
      · exact hheld.finds e hold hthread
      · exact finds_of_exec hheld.filed hsub hopen hexec

theorem Held.run {before : Config ι signature Broker Unit}
    (hheld : Held i id s pattern before)
    (hrun : Config.Reaches (machine pathMatch) anyStep before config)
    (hkept : ∀ e ∈ config.log.drop before.log.length,
      e.op.withdraws id s = false) : Held i id s pattern config := by
  refine (hrun.invariant (fun config =>
    before.log.length ≤ config.log.length ∧
      ((∀ e ∈ config.log.drop before.log.length,
        e.op.withdraws id s = false) → Held i id s pattern config))
    ⟨le_rfl, fun _ => hheld⟩ ?_).2 hkept
  rintro config next label ⟨hle, hinv⟩ _ hstep
  obtain ⟨more, hlog⟩ := Config.step_log hstep
  refine ⟨?_, fun hkept => ?_⟩
  · rw [hlog, List.length_append]
    exact Nat.le_add_right_of_le hle
  · rw [hlog, List.drop_append_of_le_length hle] at hkept
    refine (hinv fun e he => hkept e (List.mem_append_left _ he)).step hstep ?_
    rw [hlog, List.drop_left]
    exact fun e he => hkept e (List.mem_append_right _ he)

end Held

/-- A Publish that has ended has offered its event to every subscription that
was in the map and open when it began and whose pattern matches, unless
somebody has closed it since, taken it out of the map or replaced it there. -/
theorem publish_reaches_subscribers
    {before : Config ι signature Broker Unit}
    (hreach : Config.Reaches (machine pathMatch) anyStep
      (Config.start Broker.new fun i => (parties i).program) before)
    (hrun : Config.Reaches (machine pathMatch) anyStep before config)
    {i : ι} {event : Event} (hparty : parties i = .publish event)
    (hidle : ∀ e ∈ before.log, e.thread ≠ i)
    (hdone : config.threads i = .ret ()) {id : UInt64} {s : ℕ}
    {sub : Subscription}
    (hfiled : before.shared.subscriptions.lookup id = some s)
    (hsub : before.shared.heap[s]? = some sub) (hopen : sub.closed = false)
    (hmatch : pathMatch sub.pattern event.key = true)
    (hkept : ∀ e ∈ config.log.drop before.log.length,
      e.op.withdraws id s = false) :
    ∃ stamped, Stamped event stamped ∧ (i, stamped) ∈ sentTo s config.log := by
  have hrounds := rounds_of_reaches (hreach.trans hrun)
  have hheld : Held i id s sub.pattern config :=
    Held.run ⟨hfiled, ⟨sub, hsub, hopen, rfl⟩, fun e he hthread =>
      absurd hthread (hidle e he)⟩ hrun hkept
  have hfinished : dutyOf parties config.log i = .visiting false [] := by
    have hfollow := hrounds.disciplined i
    rw [hdone, follows_ret, hparty] at hfollow
    exact hfollow
  have hvisits := hrounds.visits i
  rw [hfinished, hparty] at hvisits
  cases hvisits with
  | @visiting _ _ visited _ hread _ _ hanswered =>
    have hentry := hheld.finds _ hread rfl
    rw [List.append_nil] at hentry
    rcases hanswered _ hentry with hclosed | hother | hsent
    · exact absurd (hheld.finds _ hclosed rfl rfl) (by simp)
    · obtain ⟨sub', hsub', hfalse⟩ := hrounds.tells _ hother
      obtain ⟨sub'', hsub'', _, hpattern⟩ := hheld.opened
      rw [hsub', Option.some.injEq] at hsub''
      rw [hsub'', hpattern, hmatch] at hfalse
      contradiction
    · exact hsent

end Runs

/-! ## A subscriber and two publishers -/

def readerAndPublishers : Fin 3 → Party
  | 0 => .serve (ascii "k") 2
  | 1 => .publish keyEvent
  | 2 => .publish keyEvent

/-- The subscriber has received the first event when the second one is
published. -/
theorem events_delivered_in_turn :
    ∃ config sub, Config.Reaches (machine literalMatch) anyStep
        (Config.start Broker.new fun i => (readerAndPublishers i).program)
        config ∧
      config.shared.heap[0]? = some sub ∧
      (receivedFrom 0 config.log).length = 1 ∧ sub.ch.buffered.length = 1 ∧
      KeepsUp 0 config.log ∧ config.shared.panicked = none ∧
      receivedFrom 0 config.log ++ sub.ch.buffered =
        (sentTo 0 config.log).map Prod.snd := by
  have hrun : ((Config.start Broker.new
      fun i => (readerAndPublishers i).program).runWith
      (machine literalMatch) anyStep
      (turns 0 5 ++ turns 1 7 ++ turns 0 1 ++ turns 2 7)).any
      (fun config => decide (
        (config.shared.heap[0]?.map fun sub => sub.ch.buffered.length) =
            some 1 ∧
          (receivedFrom 0 config.log).length = 1 ∧
          (sentTo 0 config.log).length ≤ defaultBufSize ∧
          config.shared.panicked = none)) = true := by
    decide +kernel
  obtain ⟨config, hreach, htest⟩ := Config.exists_reaches hrun
  obtain ⟨hbuffered, hreceived, hsent, hcalm⟩ := of_decide_eq_true htest
  obtain ⟨sub, hsub, hlength⟩ := Option.map_eq_some_iff.mp hbuffered
  have hkeeps : KeepsUp 0 config.log := by
    intro seen hseen
    have hle : (sentTo 0 seen).length ≤ (sentTo 0 config.log).length :=
      (hseen.sublist.filterMap _).length_le
    omega
  exact ⟨config, sub, hreach, hsub, hreceived, hlength, hkeeps, hcalm,
    (events_delivered hreach hsub).2.2.2.2 hkeeps hcalm⟩

theorem publish_reaches_subscribers_in_turn :
    ∃ config, Config.Reaches (machine literalMatch) anyStep
        (startOf (.publish keyEvent) (.publish keyEvent)) config ∧
      ∃ stamped, Stamped keyEvent stamped ∧
        (1, stamped) ∈ sentTo 0 config.log := by
  have hrun : ((startOf (.publish keyEvent) (.publish keyEvent)).runWith
      (machine literalMatch) anyStep (turns 0 5)).any
      (fun before => decide (
        (∀ e ∈ before.log, e.thread ≠ 1) ∧
        before.shared.subscriptions.lookup 1 = some 0 ∧
        (before.shared.heap[0]?.map fun sub => (sub.closed, sub.pattern)) =
          some (false, ascii "k")) &&
        (before.runWith (machine literalMatch) anyStep
          (turns 1 7 ++ turns 2 7)).any fun config => decide (
            (config.threads 1).value? = some () ∧
            ∀ e ∈ config.log, e.op.withdraws 1 0 = false)) = true := by
    decide +kernel
  obtain ⟨before, hreach, htest⟩ := Config.exists_reaches hrun
  rw [Bool.and_eq_true] at htest
  obtain ⟨hidle, hfiled, hopen⟩ := of_decide_eq_true htest.1
  obtain ⟨config, hrest, hends⟩ := Config.exists_reaches htest.2
  obtain ⟨hdone, hkept⟩ := of_decide_eq_true hends
  obtain ⟨sub, hsub, heq⟩ := Option.map_eq_some_iff.mp hopen
  rw [Prod.mk.injEq] at heq
  have hparty : subscriberAnd (.publish keyEvent) (.publish keyEvent) 1 =
      .publish keyEvent := rfl
  have hmatch : literalMatch sub.pattern keyEvent.key = true := by
    rw [heq.2]
    decide
  exact ⟨config, hreach.trans hrest, publish_reaches_subscribers hreach hrest
    hparty hidle (Prog.eq_ret_of_value? hdone) hfiled hsub heq.1 hmatch
    fun e he => hkept e (List.mem_of_mem_drop he)⟩

end Pubsub

end CacheGrid
