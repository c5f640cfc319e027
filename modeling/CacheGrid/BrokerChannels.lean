import CacheGrid.Broker

/-!
# The channels of the broker

Close and Publish first read the flag of a subscription and then use its
channels.  Between the two, a Publish is about to send, and a Close is about
to close; both rely on the flag as they have read it.  The flag alone does not
exclude anybody, and a subscriber that closes is not excluded by the lock
either.  If no one reads the flag while another relies on it in a way that
conflicts, every channel is closed at most once and nothing is sent on it
later.
-/

namespace CacheGrid

open InterleavedPrograms ReadWriteLock

namespace Pubsub

/-! ## Where a thread is -/

/-- How far a Close has come that has found the flag unset. -/
inductive Phase where
  | tested
  | flagged
  | doneClosed
  deriving DecidableEq

inductive Stage where
  | idle
  /-- In Publish, under the read lock. -/
  | reading
  /-- In Publish, after the flag of `s` was found unset. -/
  | sending (s : ℕ)
  /-- Under the write lock. -/
  | writing
  /-- In Close, under the write lock or not. -/
  | closing (locked : Bool) (s : ℕ) (phase : Phase)
  deriving DecidableEq

variable {locked : Bool}

namespace Stage

def hold : Stage → Hold
  | idle => .nothing
  | reading => .read
  | sending _ => .read
  | writing => .write
  | closing locked _ _ => if locked then .write else .nothing

/-- Where a Close begins and ends. -/
def outside (locked : Bool) : Stage := if locked then writing else idle

def sends (s : ℕ) : Stage → Prop
  | sending t => t = s
  | _ => False

def closes (s : ℕ) : Stage → Prop
  | closing _ t _ => t = s
  | _ => False

def tests (s : ℕ) : Stage → Prop
  | closing _ t .tested => t = s
  | _ => False

instance decidableSends (s : ℕ) (stage : Stage) : Decidable (stage.sends s) :=
  match stage with
  | sending t => inferInstanceAs (Decidable (t = s))
  | idle | reading | writing | closing _ _ _ => isFalse nofun

instance decidableTests (s : ℕ) (stage : Stage) : Decidable (stage.tests s) :=
  match stage with
  | closing _ t .tested => inferInstanceAs (Decidable (t = s))
  | idle | reading | writing | sending _ | closing _ _ .flagged
  | closing _ _ .doneClosed => isFalse nofun

/-- The flag of `s` was read, and what was found is relied on. -/
def relies (s : ℕ) (stage : Stage) : Prop := stage.sends s ∨ stage.closes s

@[simp] theorem not_relies_idle (s : ℕ) : ¬ idle.relies s := by
  simp [relies, sends, closes]

@[simp] theorem not_relies_writing (s : ℕ) : ¬ writing.relies s := by
  simp [relies, sends, closes]

@[simp] theorem not_relies_outside (locked : Bool) (s : ℕ) :
    ¬ (outside locked).relies s := by
  cases locked <;> simp [outside]

@[simp] theorem not_relies_reading (s : ℕ) : ¬ reading.relies s := by
  simp [relies, sends, closes]

@[simp] theorem relies_sending {s t : ℕ} :
    (sending t).relies s ↔ t = s := by
  simp [relies, sends, closes]

@[simp] theorem relies_closing {s t : ℕ} {phase : Phase} :
    (closing locked t phase).relies s ↔ t = s := by
  simp [relies, sends, closes]

def afterRead (s : ℕ) : Stage → Stage
  | reading => sending s
  | writing => closing true s .tested
  | idle => closing false s .tested
  | stage => stage

def afterClose : Stage → Stage
  | closing locked _ _ => outside locked
  | stage => stage

def advance (phase : Phase) : Stage → Stage
  | closing locked s _ => closing locked s phase
  | stage => stage

end Stage

def discipline : Discipline signature Stage where
  guard stage op :=
    match op with
    | .rLock => stage = .idle
    | .lock => stage = .idle
    | .rUnlock => stage = .reading
    | .unlock => stage = .writing
    | .readClosed _ => stage = .reading ∨ ∃ locked, stage = .outside locked
    | .matchKey s _ => stage = .sending s
    | .trySend s _ => stage = .sending s
    | .setClosed s => ∃ locked, stage = .closing locked s .tested
    | .closeDone s => ∃ locked, stage = .closing locked s .flagged
    | .closeCh s => ∃ locked, stage = .closing locked s .doneClosed
    | _ => True
  update stage op answer :=
    match op, answer with
    | .rLock, _ => .reading
    | .rUnlock, _ => .idle
    | .lock, _ => .writing
    | .unlock, _ => .idle
    | .readClosed s, closed => if closed then stage else stage.afterRead s
    | .matchKey _ _, found => if found then stage else .reading
    | .trySend _ _, _ => .reading
    | .setClosed _, _ => stage.advance .flagged
    | .closeDone _, _ => stage.advance .doneClosed
    | .closeCh _, _ => stage.afterClose
    | _, _ => stage

/-! ## Every party keeps to the discipline -/

theorem follows_close (locked : Bool) (s : ℕ) :
    Follows discipline (fun stage _ => stage = .outside locked)
      (.outside locked) (close s) := by
  refine follows_perform (Or.inr ⟨locked, rfl⟩) fun answer => ?_
  cases answer with
  | true => exact rfl
  | false =>
    have hafter : (Stage.outside locked).afterRead s =
        .closing locked s .tested := by
      cases locked <;> rfl
    change Follows _ _ ((Stage.outside locked).afterRead s) _
    rw [hafter]
    refine follows_perform ⟨locked, rfl⟩ fun _ => ?_
    refine follows_perform ⟨locked, rfl⟩ fun _ => ?_
    exact ⟨⟨locked, rfl⟩, fun _ => rfl⟩

theorem follows_subscribe (pattern : GoString) :
    Follows discipline (fun stage _ => stage = .idle) .idle
      (subscribe pattern) := by
  refine follows_perform trivial fun id => ?_
  refine follows_perform trivial fun s => ?_
  refine follows_perform rfl fun _ => ?_
  refine follows_perform trivial fun _ => ?_
  exact follows_perform rfl fun _ => rfl

theorem follows_unsubscribe (id : UInt64) :
    Follows discipline (fun stage _ => stage = .idle) .idle
      (unsubscribe id) := by
  refine follows_perform rfl fun _ => ?_
  refine follows_perform trivial fun found => ?_
  cases found with
  | none => exact ⟨rfl, fun _ => rfl⟩
  | some s =>
    refine follows_bind ((follows_close true s).mono ?_)
    rintro _ _ rfl
    refine follows_perform trivial fun _ => ?_
    exact ⟨rfl, fun _ => rfl⟩

theorem follows_publishTo (event : Event) (s : ℕ) :
    Follows discipline (fun stage _ => stage = .reading) .reading
      (publishTo event s) := by
  refine follows_perform (Or.inl rfl) fun closed => ?_
  cases closed with
  | true => exact rfl
  | false =>
    refine follows_perform rfl fun found => ?_
    cases found with
    | true => exact ⟨rfl, fun _ => rfl⟩
    | false => exact rfl

theorem follows_publishEach (event : Event)
    (entries : List ((_ : UInt64) × ℕ)) :
    Follows discipline (fun stage _ => stage = .reading) .reading
      (publishEach event entries) := by
  induction entries with
  | nil => exact rfl
  | cons entry rest ih =>
    refine follows_bind ((follows_publishTo event entry.2).mono ?_)
    rintro _ _ rfl
    exact ih

theorem follows_stamp (event : Event) :
    Follows discipline (fun stage _ => stage = .idle) .idle
      (stamp event) := by
  unfold stamp
  split
  · exact rfl
  · exact follows_perform trivial fun _ => rfl

theorem follows_publish (event : Event) :
    Follows discipline (fun stage _ => stage = .idle) .idle
      (publish event) := by
  refine follows_bind ((follows_stamp event).mono ?_)
  rintro _ stamped rfl
  refine follows_perform rfl fun _ => ?_
  refine follows_perform trivial fun entries => ?_
  refine follows_bind ((follows_publishEach stamped entries).mono ?_)
  rintro _ _ rfl
  exact ⟨rfl, fun _ => rfl⟩

theorem follows_closeEach (entries : List ((_ : UInt64) × ℕ)) :
    Follows discipline (fun stage _ => stage = .writing) .writing
      (closeEach entries) := by
  induction entries with
  | nil => exact rfl
  | cons entry rest ih =>
    refine follows_bind ((follows_close true entry.2).mono ?_)
    rintro _ _ rfl
    exact follows_perform trivial fun _ => ih

theorem follows_shutdown :
    Follows discipline (fun stage _ => stage = .idle) .idle shutdown := by
  refine follows_perform rfl fun _ => ?_
  refine follows_perform trivial fun entries => ?_
  refine follows_bind ((follows_closeEach entries).mono ?_)
  rintro _ _ rfl
  exact ⟨rfl, fun _ => rfl⟩

theorem follows_receiveEvents (s rounds : ℕ) :
    Follows discipline (fun stage _ => stage = .idle) .idle
      (receiveEvents s rounds) := by
  induction rounds with
  | zero => exact rfl
  | succ rounds ih =>
    refine follows_perform trivial fun received => ?_
    cases received with
    | none => exact rfl
    | some event => exact ih

theorem follows_handleSubscribeSSE (pattern : GoString) (rounds : ℕ) :
    Follows discipline (fun stage _ => stage = .idle) .idle
      (handleSubscribeSSE pattern rounds) := by
  refine follows_bind ((follows_subscribe _).mono ?_)
  rintro _ s rfl
  refine follows_bind ((follows_receiveEvents s rounds).mono ?_)
  rintro _ _ rfl
  exact follows_close false s

theorem Party.follows_program (party : Party) :
    Follows discipline (fun stage _ => stage = .idle) .idle
      party.program := by
  cases party with
  | publish event => exact follows_publish event
  | close s => exact follows_close false s
  | subscribe pattern => exact follows_map (follows_subscribe pattern)
  | unsubscribe id => exact follows_unsubscribe id
  | shutdown => exact follows_shutdown
  | serve pattern rounds => exact follows_handleSubscribeSSE pattern rounds

/-! ## The flags of a subscription -/

structure Flags where
  closed : Bool
  done : Bool
  ch : Bool
  deriving DecidableEq

def Subscription.flags (sub : Subscription) : Flags :=
  ⟨sub.closed, sub.done.closed, sub.ch.closed⟩

def Broker.flags (b : Broker) (s : ℕ) : Option Flags :=
  b.heap[s]?.map Subscription.flags

def Phase.flags : Phase → Flags
  | tested => ⟨false, false, false⟩
  | flagged => ⟨true, false, false⟩
  | doneClosed => ⟨true, true, false⟩

variable {ι : Type} {stage : ι → Stage} {i : ι} {s : ℕ}

/-- Who relies on the flags of a subscription, and what they are. -/
inductive Sound (stage : ι → Stage) (s : ℕ) : Option Flags → Prop
  | absent (hnone : ∀ j, ¬ (stage j).relies s) : Sound stage s none
  | opened (hnone : ∀ j, ¬ (stage j).closes s) :
      Sound stage s (some ⟨false, false, false⟩)
  | closing (i : ι) (locked : Bool) (phase : Phase)
      (hi : stage i = .closing locked s phase)
      (hothers : ∀ j, j ≠ i → ¬ (stage j).relies s) :
      Sound stage s (some phase.flags)
  | closed (hnone : ∀ j, ¬ (stage j).relies s) :
      Sound stage s (some ⟨true, true, true⟩)

variable {flags : Option Flags}

theorem Sound.of_sending (hsound : Sound stage s flags)
    (hi : stage i = .sending s) :
    flags = some ⟨false, false, false⟩ ∧ ∀ j, ¬ (stage j).closes s := by
  have hrelies : (stage i).relies s := Or.inl (hi ▸ rfl)
  cases hsound with
  | absent hnone => exact absurd hrelies (hnone i)
  | opened hnone => exact ⟨rfl, hnone⟩
  | closing j locked phase hj hothers =>
    have hne : i ≠ j := by
      rintro rfl
      rw [hi] at hj
      contradiction
    exact absurd hrelies (hothers i hne)
  | closed hnone => exact absurd hrelies (hnone i)

theorem Sound.of_closing {phase : Phase} (hsound : Sound stage s flags)
    (hi : stage i = .closing locked s phase) :
    flags = some phase.flags ∧ ∀ j, j ≠ i → ¬ (stage j).relies s := by
  have hcloses : (stage i).closes s := hi ▸ rfl
  cases hsound with
  | absent hnone => exact absurd (Or.inr hcloses) (hnone i)
  | opened hnone => exact absurd hcloses (hnone i)
  | closing j locked' phase' hj hothers =>
    have heq : i = j := by
      by_contra hne
      exact hothers i hne (Or.inr hcloses)
    subst heq
    rw [hi, Stage.closing.injEq] at hj
    obtain ⟨_, _, rfl⟩ := hj
    exact ⟨rfl, hothers⟩
  | closed hnone => exact absurd (Or.inr hcloses) (hnone i)

theorem Sound.of_unset {flags : Flags} (hsound : Sound stage s (some flags))
    (hunset : flags.closed = false) (htests : ∀ j, ¬ (stage j).tests s) :
    flags = ⟨false, false, false⟩ ∧ ∀ j, ¬ (stage j).closes s := by
  cases hsound with
  | opened hnone => exact ⟨rfl, hnone⟩
  | closing j locked phase hj hothers =>
    cases phase with
    | tested => exact absurd (hj ▸ rfl) (htests j)
    | flagged => contradiction
    | doneClosed => contradiction
  | closed hnone => contradiction

section Updates

variable [DecidableEq ι] {new : Stage}

theorem Sound.update_of_not_relies (hsound : Sound stage s flags)
    (hbefore : ¬ (stage i).relies s) (hafter : ¬ new.relies s) :
    Sound (Function.update stage i new) s flags := by
  have hrest : ∀ j, ¬ (stage j).relies s →
      ¬ (Function.update stage i new j).relies s := by
    intro j hj
    by_cases hji : j = i
    · rwa [hji, Function.update_self]
    · rwa [Function.update_of_ne hji]
  cases hsound with
  | absent hnone => exact .absent fun j => hrest j (hnone j)
  | opened hnone =>
    refine .opened fun j => ?_
    by_cases hji : j = i
    · rw [hji, Function.update_self]
      exact fun hcloses => hafter (Or.inr hcloses)
    · rw [Function.update_of_ne hji]
      exact hnone j
  | closing j locked phase hj hothers =>
    have hne : j ≠ i := by
      rintro rfl
      exact hbefore (Or.inr (hj ▸ rfl))
    refine .closing j locked phase ?_ fun k hk => hrest k (hothers k hk)
    rw [Function.update_of_ne hne]
    exact hj
  | closed hnone => exact .closed fun j => hrest j (hnone j)

theorem Sound.opened_update (hnone : ∀ j, ¬ (stage j).closes s)
    (hnew : ¬ new.closes s) :
    Sound (Function.update stage i new) s (some ⟨false, false, false⟩) := by
  refine .opened fun j => ?_
  by_cases hji : j = i
  · rwa [hji, Function.update_self]
  · rw [Function.update_of_ne hji]
    exact hnone j

theorem not_relies_update
    (hothers : ∀ j, j ≠ i → ¬ (stage j).relies s) {j : ι} (hji : j ≠ i) :
    ¬ (Function.update stage i new j).relies s := by
  rw [Function.update_of_ne hji]
  exact hothers j hji

theorem Sound.closing_update {phase : Phase}
    (hothers : ∀ j, j ≠ i → ¬ (stage j).relies s) :
    Sound (Function.update stage i (.closing locked s phase)) s
      (some phase.flags) :=
  .closing i locked phase (Function.update_self ..)
    fun _ hji => not_relies_update hothers hji

theorem Sound.closed_update (hothers : ∀ j, j ≠ i → ¬ (stage j).relies s)
    (hnew : ¬ new.relies s) :
    Sound (Function.update stage i new) s (some ⟨true, true, true⟩) := by
  refine .closed fun j => ?_
  by_cases hji : j = i
  · rwa [hji, Function.update_self]
  · exact not_relies_update hothers hji

end Updates

/-! ## Operations on the flags -/

/-- Where the flags are `before`, `f` does not panic and makes them `after`. -/
def Advances (f : Subscription → Except ChanPanic Subscription)
    (before after : Flags) : Prop :=
  ∀ sub, sub.flags = before → ∃ sub', f sub = .ok sub' ∧ sub'.flags = after

theorem setClosed_advances :
    Advances Subscription.setClosed Phase.tested.flags
      Phase.flagged.flags := by
  intro sub hflags
  simp only [Subscription.flags, Phase.flags, Flags.mk.injEq] at hflags
  exact ⟨_, rfl, by simp [Subscription.flags, Phase.flags, hflags]⟩

theorem closeDone_advances :
    Advances Subscription.closeDone Phase.flagged.flags
      Phase.doneClosed.flags := by
  intro sub hflags
  simp only [Subscription.flags, Phase.flags, Flags.mk.injEq] at hflags
  refine ⟨{ sub with done := { sub.done with closed := true } }, ?_, ?_⟩
  · simp [Subscription.closeDone, Chan.close, hflags, Except.map]
  · simp [Subscription.flags, Phase.flags, hflags]

theorem closeCh_advances :
    Advances Subscription.closeCh Phase.doneClosed.flags
      ⟨true, true, true⟩ := by
  intro sub hflags
  simp only [Subscription.flags, Phase.flags, Flags.mk.injEq] at hflags
  refine ⟨{ sub with ch := { sub.ch with closed := true } }, ?_, ?_⟩
  · simp [Subscription.closeCh, Chan.close, hflags, Except.map]
  · simp [Subscription.flags, hflags]

theorem send_advances (event : Event) :
    Advances (fun sub => sub.send event) ⟨false, false, false⟩
      ⟨false, false, false⟩ := by
  intro sub hflags
  simp only [Subscription.flags, Flags.mk.injEq] at hflags
  simp only [Subscription.send, Chan.trySend, hflags]
  split
  · contradiction
  · split
    · exact ⟨_, rfl, by simp [Subscription.flags, hflags]⟩
    · exact ⟨_, rfl, by simp [Subscription.flags, hflags]⟩

theorem Broker.flags_put {b : Broker} {sub sub' : Subscription}
    (hsub : b.heap[s]? = some sub) :
    (b.put s sub').flags = Function.update b.flags s (some sub'.flags) := by
  obtain ⟨hlt, _⟩ := List.getElem?_eq_some_iff.mp hsub
  funext t
  by_cases hts : t = s
  · subst hts
    rw [Function.update_self]
    simp [flags, put, hlt]
  · rw [Function.update_of_ne hts]
    simp [flags, put, List.getElem?_set_ne (Ne.symm hts)]

theorem Broker.flags_put_of_eq {b : Broker} {sub sub' : Subscription}
    (hsub : b.heap[s]? = some sub) (hflags : sub'.flags = sub.flags) :
    (b.put s sub').flags = b.flags := by
  have hbefore : b.flags s = some sub.flags := by
    rw [flags, hsub, Option.map_some]
  rw [flags_put hsub, hflags, ← hbefore, Function.update_eq_self]

theorem Chan.closed_of_receive {α : Type} {c c' : Chan α} {value : Option α}
    (hreceive : c.receive = some (value, c')) : c'.closed = c.closed := by
  unfold receive at hreceive
  split at hreceive
  · rw [Option.some.injEq, Prod.mk.injEq] at hreceive
    rw [← hreceive.2]
  · split at hreceive
    · rw [Option.some.injEq, Prod.mk.injEq] at hreceive
      rw [← hreceive.2]
    · contradiction

theorem Broker.modify_of_advances {b b' : Broker} {answer : Unit}
    {before after : Flags} {f : Subscription → Except ChanPanic Subscription}
    (hf : Advances f before after) (hbefore : b.flags s = some before)
    (hmodify : b.modify s f = some (answer, b')) :
    b'.mu = b.mu ∧ b'.panicked = b.panicked ∧
      b'.flags = Function.update b.flags s (some after) := by
  obtain ⟨sub, hsub, hflags⟩ := Option.map_eq_some_iff.mp hbefore
  obtain ⟨sub', hok, hafter⟩ := hf sub hflags
  simp only [modify, hsub, hok, Option.some.injEq, Prod.mk.injEq] at hmodify
  rw [← hmodify.2, ← hafter]
  exact ⟨rfl, rfl, flags_put hsub⟩

/-! ## Nobody panics -/

structure Safe (stage : ι → Stage) (b : Broker) : Prop where
  holds : Holds (fun j => (stage j).hold) b.mu
  sound : ∀ s, Sound stage s (b.flags s)
  calm : b.panicked = none

/-- Reading the flag of `s` does not come in between: nobody else is about to
set it, and if thread `i` is to close without the lock, nobody is about to
send. -/
def Quiet (stage : ι → Stage) (i : ι) (s : ℕ) : Prop :=
  (∀ j, j ≠ i → ¬ (stage j).tests s) ∧
    (stage i = .idle → ∀ j, ¬ (stage j).sends s)

theorem safe_new : Safe (fun _ : ι => .idle) Broker.new where
  holds := holds_free
  sound := fun _ => .absent fun _ hrelies => by
    cases hrelies <;> contradiction
  calm := rfl

theorem Safe.congr {b b' : Broker} (hsafe : Safe stage b)
    (hmu : b'.mu = b.mu) (hflags : b'.flags = b.flags)
    (hcalm : b'.panicked = b.panicked) : Safe stage b' where
  holds := hmu ▸ hsafe.holds
  sound := hflags ▸ hsafe.sound
  calm := hcalm.trans hsafe.calm

theorem Safe.newSubscription {b : Broker} (hsafe : Safe stage b)
    (id : UInt64) (pattern : GoString) (bufSize : ℕ) :
    Safe stage { b with
      heap := b.heap ++ [Pubsub.newSubscription id pattern bufSize] } := by
  refine ⟨hsafe.holds, fun s => ?_, hsafe.calm⟩
  have hsound := hsafe.sound s
  rcases lt_trichotomy s b.heap.length with hlt | rfl | hgt
  · simpa [Broker.flags, List.getElem?_append_left hlt] using hsound
  · have hnone : b.flags b.heap.length = none := by simp [Broker.flags]
    rw [hnone] at hsound
    cases hsound with
    | absent hnone =>
      have hopened : Sound stage b.heap.length
          (some ⟨false, false, false⟩) :=
        .opened fun j hcloses => hnone j (Or.inr hcloses)
      simpa [Broker.flags, Pubsub.newSubscription, Subscription.flags,
        Chan.make] using hopened
  · have hnone : b.flags s = none := by
      simp [Broker.flags, hgt.le]
    rw [hnone] at hsound
    have hnone' : (b.heap ++
        [Pubsub.newSubscription id pattern bufSize])[s]? = none := by
      rw [List.getElem?_eq_none_iff, List.length_append]
      exact hgt
    simpa [Broker.flags, hnone'] using hsound

section Steps

variable [DecidableEq ι] {b b' : Broker} {new : Stage}

theorem hold_update :
    (fun j => (Function.update stage i new j).hold) =
      Function.update (fun j => (stage j).hold) i new.hold := by
  funext j
  by_cases hji : j = i
  · rw [hji, Function.update_self, Function.update_self]
  · rw [Function.update_of_ne hji, Function.update_of_ne hji]

theorem Safe.relock (hsafe : Safe stage b)
    (hholds : Holds (Function.update (fun j => (stage j).hold) i new.hold)
      b'.mu)
    (hflags : b'.flags = b.flags) (hcalm : b'.panicked = b.panicked)
    (hbefore : ∀ s, ¬ (stage i).relies s) (hafter : ∀ s, ¬ new.relies s) :
    Safe (Function.update stage i new) b' where
  holds := by
    rw [hold_update]
    exact hholds
  sound := fun s => hflags ▸
    (hsafe.sound s).update_of_not_relies (hbefore s) (hafter s)
  calm := hcalm.trans hsafe.calm

theorem Safe.move (hsafe : Safe stage b) (hhold : new.hold = (stage i).hold)
    (hmu : b'.mu = b.mu) (hcalm : b'.panicked = b.panicked)
    (hflags : b'.flags = Function.update b.flags s flags)
    (hbefore : ∀ t, t ≠ s → ¬ (stage i).relies t)
    (hafter : ∀ t, t ≠ s → ¬ new.relies t)
    (hsound : Sound (Function.update stage i new) s flags) :
    Safe (Function.update stage i new) b' := by
  refine ⟨?_, fun t => ?_, hcalm.trans hsafe.calm⟩
  · rw [hold_update, hhold, Function.update_eq_self, hmu]
    exact hsafe.holds
  · rw [hflags]
    by_cases hts : t = s
    · rw [hts, Function.update_self]
      exact hsound
    · rw [Function.update_of_ne hts]
      exact (hsafe.sound t).update_of_not_relies (hbefore t hts)
        (hafter t hts)

theorem Safe.readClosed_unset (hsafe : Safe stage b) {sub : Subscription}
    (hstage : stage i = .reading ∨ ∃ locked, stage i = .outside locked)
    (hquiet : Quiet stage i s) (hsub : b.heap[s]? = some sub)
    (hunset : sub.closed = false) :
    Safe (Function.update stage i ((stage i).afterRead s)) b := by
  have hrelies : ∀ t, ¬ (stage i).relies t := by
    intro t
    rcases hstage with hi | ⟨locked, hi⟩ <;> simp [hi]
  have htests : ∀ j, ¬ (stage j).tests s := by
    intro j
    by_cases hji : j = i
    · subst hji
      rcases hstage with hi | ⟨locked, hi⟩
      · simp [hi, Stage.tests]
      · cases locked <;> simp [hi, Stage.outside, Stage.tests]
    · exact hquiet.1 j hji
  have hflags : b.flags s = some sub.flags := by
    rw [Broker.flags, hsub, Option.map_some]
  obtain ⟨hopen, hnone⟩ :=
    (hflags ▸ hsafe.sound s).of_unset (by exact hunset) htests
  have hsame : b.flags =
      Function.update b.flags s (some ⟨false, false, false⟩) := by
    rw [← hopen, ← hflags, Function.update_eq_self]
  rcases hstage with hi | ⟨locked, hi⟩
  · rw [hi]
    refine hsafe.move (by rw [hi]; rfl) rfl rfl hsame (fun t _ => hrelies t)
      ?_ (Sound.opened_update hnone (by simp [Stage.afterRead, Stage.closes]))
    intro t hts
    simpa [Stage.afterRead] using Ne.symm hts
  · -- Nobody is about to send: under the write lock there are no readers,
    -- and without it the flag is read in a quiet moment.
    have hafter : (stage i).afterRead s = .closing locked s .tested := by
      rw [hi]
      cases locked <;> rfl
    have hsends : ∀ j, ¬ (stage j).sends s := by
      cases locked with
      | false => exact hquiet.2 hi
      | true =>
        intro j hsends
        refine hsafe.holds.not_read (i := i) (by rw [hi]; rfl) j ?_
        cases hj : stage j with
        | sending t => rfl
        | idle | reading | writing | closing =>
          simp [hj, Stage.sends] at hsends
    rw [hafter]
    refine hsafe.move (by rw [hi]; cases locked <;> rfl) rfl rfl hsame
      (fun t _ => hrelies t) ?_ (Sound.closing_update fun j _ hj =>
        hj.elim (hsends j) (hnone j))
    intro t hts
    simpa using Ne.symm hts

theorem Safe.leave_sending (hsafe : Safe stage b)
    (hi : stage i = .sending s) (hmu : b'.mu = b.mu)
    (hcalm : b'.panicked = b.panicked) (hflags : b'.flags = b.flags) :
    Safe (Function.update stage i .reading) b' := by
  obtain ⟨hopen, hnone⟩ := (hsafe.sound s).of_sending hi
  have hsame : b'.flags =
      Function.update b.flags s (some ⟨false, false, false⟩) := by
    rw [← hopen, Function.update_eq_self, hflags]
  refine hsafe.move (by rw [hi]; rfl) hmu hcalm hsame ?_ (fun t _ => by simp)
    (Sound.opened_update hnone (by simp [Stage.closes]))
  intro t hts
  simpa [hi] using Ne.symm hts

theorem Safe.advance (hsafe : Safe stage b) {phase next : Phase}
    {f : Subscription → Except ChanPanic Subscription} {answer : Unit}
    (hi : stage i = .closing locked s phase)
    (hf : Advances f phase.flags next.flags)
    (hmodify : b.modify s f = some (answer, b')) :
    Safe (Function.update stage i ((stage i).advance next)) b' := by
  obtain ⟨hphase, hothers⟩ := (hsafe.sound s).of_closing hi
  obtain ⟨hmu, hcalm, hflags⟩ := Broker.modify_of_advances hf hphase hmodify
  rw [hi]
  refine hsafe.move (by rw [hi]; rfl) hmu hcalm hflags ?_ ?_
    (Sound.closing_update hothers)
  · intro t hts
    simpa [hi] using Ne.symm hts
  · intro t hts
    simpa [Stage.advance] using Ne.symm hts

theorem Safe.closeCh (hsafe : Safe stage b) {answer : Unit}
    (hi : stage i = .closing locked s .doneClosed)
    (hmodify : b.modify s Subscription.closeCh = some (answer, b')) :
    Safe (Function.update stage i ((stage i).afterClose)) b' := by
  obtain ⟨hphase, hothers⟩ := (hsafe.sound s).of_closing hi
  obtain ⟨hmu, hcalm, hflags⟩ :=
    Broker.modify_of_advances closeCh_advances hphase hmodify
  rw [hi]
  refine hsafe.move ?_ hmu hcalm hflags ?_
    (fun t _ => by simp [Stage.afterClose])
    (Sound.closed_update hothers (by simp [Stage.afterClose]))
  · rw [hi]
    cases locked <;> rfl
  · intro t hts
    simpa [hi] using Ne.symm hts

theorem Safe.stay (hsafe : Safe stage b) :
    Safe (Function.update stage i (stage i)) b := by
  rw [Function.update_eq_self]
  exact hsafe

/-- One operation of thread `i`. -/
theorem Safe.step {pathMatch : GoString → GoString → Bool} {op : Op}
    {choice : Choice} {answer : op.Answer} (hsafe : Safe stage b)
    (hguard : discipline.guard (stage i) op)
    (hquiet : ∀ s, op = .readClosed s → Quiet stage i s)
    (hexec : exec pathMatch b op choice = some (answer, b')) :
    Safe (Function.update stage i (discipline.update (stage i) op answer))
      b' := by
  have hcalm : execCalm pathMatch b op choice = some (answer, b') := by
    rwa [exec, if_pos hsafe.calm] at hexec
  cases op with
  | now | nextID | lookup | insert | delete =>
    simp only [execCalm, Option.some.injEq, Prod.mk.injEq] at hcalm
    obtain ⟨_, rfl⟩ := hcalm
    refine Safe.stay ?_
    exact hsafe.congr rfl rfl rfl
  | subscriptions =>
    simp only [execCalm] at hcalm
    split at hcalm
    · rw [Option.some.injEq, Prod.mk.injEq] at hcalm
      obtain ⟨_, rfl⟩ := hcalm
      exact hsafe.stay
    · contradiction
  | newSubscription id pattern =>
    simp only [execCalm, Option.some.injEq, Prod.mk.injEq] at hcalm
    obtain ⟨_, rfl⟩ := hcalm
    exact (hsafe.newSubscription id pattern defaultBufSize).stay
  | receive s =>
    simp only [execCalm] at hcalm
    split at hcalm
    · rw [Option.some.injEq, Prod.mk.injEq] at hcalm
      obtain ⟨_, rfl⟩ := hcalm
      exact hsafe.stay
    · obtain ⟨sub, hsub, hreceive⟩ := Option.bind_eq_some_iff.mp hcalm
      obtain ⟨r, hr, heq⟩ := Option.map_eq_some_iff.mp hreceive
      rw [Prod.mk.injEq] at heq
      rw [← heq.2]
      refine Safe.stay ?_
      refine hsafe.congr rfl (Broker.flags_put_of_eq hsub ?_) rfl
      simp only [Subscription.flags, Chan.closed_of_receive hr]
  | rLock =>
    obtain ⟨mu, hmu, heq⟩ := Option.map_eq_some_iff.mp hcalm
    rw [Prod.mk.injEq] at heq
    obtain ⟨_, rfl⟩ := heq
    have hi : stage i = .idle := hguard
    exact hsafe.relock (hsafe.holds.rLock (by rw [hi]; rfl) hmu) rfl rfl
      (by simp [hi]) Stage.not_relies_reading
  | rUnlock =>
    simp only [execCalm, Option.some.injEq, Prod.mk.injEq] at hcalm
    obtain ⟨_, rfl⟩ := hcalm
    have hi : stage i = .reading := hguard
    exact hsafe.relock (hsafe.holds.rUnlock (by rw [hi]; rfl)) rfl rfl
      (by simp [hi]) Stage.not_relies_idle
  | lock =>
    obtain ⟨mu, hmu, heq⟩ := Option.map_eq_some_iff.mp hcalm
    rw [Prod.mk.injEq] at heq
    obtain ⟨_, rfl⟩ := heq
    have hi : stage i = .idle := hguard
    exact hsafe.relock (hsafe.holds.lock hmu) rfl rfl (by simp [hi])
      Stage.not_relies_writing
  | unlock =>
    simp only [execCalm, Option.some.injEq, Prod.mk.injEq] at hcalm
    obtain ⟨_, rfl⟩ := hcalm
    have hi : stage i = .writing := hguard
    exact hsafe.relock (hsafe.holds.unlock (by rw [hi]; rfl)) rfl rfl
      (by simp [hi]) Stage.not_relies_idle
  | readClosed s =>
    obtain ⟨sub, hsub, heq⟩ := Option.map_eq_some_iff.mp hcalm
    rw [Prod.mk.injEq] at heq
    obtain ⟨rfl, rfl⟩ := heq
    change Safe (Function.update stage i
      (if sub.closed then stage i else (stage i).afterRead s)) b
    split
    · exact hsafe.stay
    · next hset =>
        exact hsafe.readClosed_unset hguard (hquiet s rfl) hsub
          (by simpa using hset)
  | matchKey s key =>
    obtain ⟨sub, hsub, heq⟩ := Option.map_eq_some_iff.mp hcalm
    rw [Prod.mk.injEq] at heq
    obtain ⟨rfl, rfl⟩ := heq
    change Safe (Function.update stage i
      (if pathMatch sub.pattern key then stage i else .reading)) b
    split
    · exact hsafe.stay
    · exact hsafe.leave_sending hguard rfl rfl rfl
  | trySend s event =>
    have hopen := (hsafe.sound s).of_sending hguard
    obtain ⟨hmu, hpanic, hflags⟩ :=
      Broker.modify_of_advances (send_advances event) hopen.1 hcalm
    rw [← hopen.1, Function.update_eq_self] at hflags
    exact hsafe.leave_sending hguard hmu hpanic hflags
  | setClosed s =>
    obtain ⟨locked, hi⟩ := hguard
    exact hsafe.advance hi setClosed_advances hcalm
  | closeDone s =>
    obtain ⟨locked, hi⟩ := hguard
    exact hsafe.advance hi closeDone_advances hcalm
  | closeCh s =>
    obtain ⟨locked, hi⟩ := hguard
    exact hsafe.closeCh hi hcalm

end Steps

/-! ## Runs -/

section Runs

variable [DecidableEq ι] {pathMatch : GoString → GoString → Bool}

def stageOf (config : Config ι signature Broker Unit) : ι → Stage :=
  ghostOf (fun _ => discipline) (fun _ => .idle) config.log

def ReadsQuietly (stage : ι → Stage) (i : ι) : Option Op → Prop
  | some (.readClosed s) => Quiet stage i s
  | _ => True

/-- The condition on a step: the next operation of the thread. -/
def Undisturbed (config : Config ι signature Broker Unit) :
    Label ι Choice Empty → Prop
  | .thread i _ => ReadsQuietly (stageOf config) i (config.threads i).next?
  | .env _ => True

instance decidableQuiet [Fintype ι] (stage : ι → Stage) (i : ι) (s : ℕ) :
    Decidable (Quiet stage i s) :=
  inferInstanceAs (Decidable (_ ∧ _))

instance decidableReadsQuietly [Fintype ι] (stage : ι → Stage) (i : ι)
    (next : Option Op) : Decidable (ReadsQuietly stage i next) := by
  unfold ReadsQuietly
  split
  · exact decidableQuiet stage i _
  · exact isTrue trivial

instance decidableUndisturbed [Fintype ι]
    (config : Config ι signature Broker Unit) (label : Label ι Choice Empty) :
    Decidable (Undisturbed config label) :=
  match label with
  | .thread i _ => decidableReadsQuietly (stageOf config) i _
  | .env _ => isTrue trivial

theorem safe_of_reaches {parties : ι → Party}
    {config : Config ι signature Broker Unit}
    (hreach : Config.Reaches (machine pathMatch) Undisturbed
      (Config.start Broker.new fun i => (parties i).program) config) :
    Safe (stageOf config) config.shared := by
  have hinv := hreach.invariant
    (fun config => config.Disciplined (fun _ => discipline) (fun _ => .idle)
      (fun _ stage _ => stage = .idle) ∧ Safe (stageOf config) config.shared)
    ⟨fun i => (parties i).follows_program, safe_new⟩ ?_
  · exact hinv.2
  · rintro config next label ⟨hdisc, hsafe⟩ hundisturbed hstep
    refine ⟨hdisc.step hstep, ?_⟩
    cases label with
    | env event => exact nomatch event
    | thread i choice =>
      obtain ⟨op, continuation, answer, hthread, hexec, _, hlog⟩ :=
        Config.step_thread_cases hstep
      have hfollow := hdisc i
      rw [hthread] at hfollow
      unfold stageOf
      rw [hlog, ghostOf_append]
      refine hsafe.step hfollow.1 ?_ hexec
      rintro s rfl
      have hquiet : ReadsQuietly (stageOf config) i
          (config.threads i).next? := hundisturbed
      rwa [hthread] at hquiet

/-- In every run of any number of parties in which the flags are read in
quiet moments, nothing is sent on a closed channel and no channel is closed
twice. -/
theorem channels_never_panic {parties : ι → Party}
    {config : Config ι signature Broker Unit}
    (hreach : Config.Reaches (machine pathMatch) Undisturbed
      (Config.start Broker.new fun i => (parties i).program) config) :
    config.shared.panicked = none :=
  (safe_of_reaches hreach).calm

end Runs

/-! ## A subscriber, a publisher and somebody who closes -/

/-- `path.Match` on names without special characters. -/
def literalMatch (pattern key : GoString) : Bool := decide (pattern = key)

def keyEvent : Event := { type := .set, key := ascii "k", value := [] }

def subscriberAnd (second third : Party) : Fin 3 → Party
  | 0 => .subscribe (ascii "k")
  | 1 => second
  | 2 => third

def turns (i : Fin 3) (count : ℕ) : List (Label (Fin 3) Choice Empty) :=
  List.replicate count (.thread i ⟨0, [⟨1, 0⟩], false⟩)

def startOf (second third : Party) : Config (Fin 3) signature Broker Unit :=
  Config.start Broker.new fun i => (subscriberAnd second third i).program

/-- The event is sent before the channel is closed. -/
theorem channels_never_panic_in_turn :
    ∃ config, Config.Reaches (machine literalMatch) Undisturbed
        (startOf (.publish keyEvent) (.close 0)) config ∧
      (config.shared.heap.map fun sub =>
        (sub.ch.buffered.length, sub.ch.closed)) = [(1, true)] ∧
      config.shared.panicked = none := by
  have hrun : ((startOf (.publish keyEvent) (.close 0)).runWith
      (machine literalMatch) Undisturbed
      (turns 0 5 ++ turns 1 7 ++ turns 2 4)).any
      (fun config => decide ((config.shared.heap.map fun sub =>
        (sub.ch.buffered.length, sub.ch.closed)) = [(1, true)])) = true := by
    decide +kernel
  obtain ⟨config, hreach, htest⟩ := Config.exists_reaches hrun
  exact ⟨config, hreach, of_decide_eq_true htest,
    channels_never_panic hreach⟩

/-- A Publish that has read the flag sends after a subscriber has closed its
subscription; and a Close that has read the flag closes what Unsubscribe has
closed meanwhile, though that was under the lock. -/
theorem channels_panic :
    (∃ config, Config.Reaches (machine literalMatch) anyStep
        (startOf (.publish keyEvent) (.close 0)) config ∧
      config.shared.panicked = some (0, .sendOnClosed)) ∧
    ∃ config, Config.Reaches (machine literalMatch) anyStep
        (startOf (.close 0) (.unsubscribe 1)) config ∧
      config.shared.panicked = some (0, .closeOfClosed) := by
  have hsend : ((startOf (.publish keyEvent) (.close 0)).runWith
      (machine literalMatch) anyStep
      (turns 0 5 ++ turns 1 4 ++ turns 2 4 ++ turns 1 2)).any
      (fun config => decide (config.shared.panicked =
        some (0, .sendOnClosed))) = true := by
    decide +kernel
  have hclose : ((startOf (.close 0) (.unsubscribe 1)).runWith
      (machine literalMatch) anyStep
      (turns 0 5 ++ turns 1 1 ++ turns 2 7 ++ turns 1 2)).any
      (fun config => decide (config.shared.panicked =
        some (0, .closeOfClosed))) = true := by
    decide +kernel
  obtain ⟨sent, hsent, hpanic⟩ := Config.exists_reaches hsend
  obtain ⟨twice, htwice, hpanic'⟩ := Config.exists_reaches hclose
  exact ⟨⟨sent, hsent, of_decide_eq_true hpanic⟩,
    ⟨twice, htwice, of_decide_eq_true hpanic'⟩⟩

end Pubsub

end CacheGrid
