import CacheGrid.BrokerChannels
import CacheGrid.SequentialRuns

/-!
# Open subscriptions

The map of the broker and the flags of the subscriptions, over sequences of
calls that follow each other.  Unsubscribe and Shutdown close a subscription
and take it from the map.  `Subscription.Close` closes it only: the broker does
not learn of it, and the subscription stays in the map until its number is
unsubscribed or the broker is shut down.

So the map holds exactly the open subscriptions as long as nobody closes one
that is still open, and no number is given out while it is still in the map.
The numbers are of 64 bits and start again after the last one.
-/

namespace CacheGrid

open InterleavedPrograms ReadWriteLock SequentialRuns

namespace Pubsub

inductive Call where
  | subscribe (pattern : GoString)
  | close (s : ℕ)
  | unsubscribe (id : UInt64)
  | publish (event : Event)
  | shutdown

def Call.program : Call → Program Unit
  | .subscribe pattern => (fun _ => ()) <$> Pubsub.subscribe pattern
  | .close s => Pubsub.close s
  | .unsubscribe id => Pubsub.unsubscribe id
  | .publish event => Pubsub.publish event
  | .shutdown => Pubsub.shutdown

namespace Broker

def status (b : Broker) (s : ℕ) : Option (UInt64 × Bool) :=
  b.heap[s]?.map fun sub => (sub.id, sub.closed)

/-- The map holds exactly the subscriptions that are not closed. -/
def HoldsOpen (b : Broker) : Prop :=
  ∀ id s, b.subscriptions.lookup id = some s ↔ b.status s = some (id, false)

def opened (b : Broker) : List ℕ :=
  (List.range b.heap.length).filter fun s =>
    (b.status s).any fun entry => !entry.2

/-- A call that does not part the map from the flags. -/
def KeepsOpen (b : Broker) : Call → Prop
  | .subscribe _ => b.subscriptions.lookup (b.nextID + 1) = none
  | .close s => ∀ id, b.status s ≠ some (id, false)
  | _ => True

/-! ## What the calls do -/

/-- Nobody has panicked, and the channels of a subscription are closed when
its flag says so. -/
structure Settled (b : Broker) : Prop where
  calm : b.panicked = none
  agree : ∀ (s : ℕ) (sub : Subscription), b.heap[s]? = some sub →
    sub.flags = ⟨sub.closed, sub.closed, sub.closed⟩

structure Idle (b : Broker) : Prop extends Settled b where
  free : b.mu = .free
  known : ∀ id s, b.subscriptions.lookup id = some s →
    ∃ closed, b.status s = some (id, closed)

end Broker

def Subscription.shut (sub : Subscription) : Subscription :=
  { sub with
    closed := true
    done := { sub.done with closed := true }
    ch := { sub.ch with closed := true } }

theorem Subscription.shut_of_closed {sub : Subscription}
    (hflags : sub.flags = ⟨true, true, true⟩) : sub.shut = sub := by
  obtain ⟨id, pattern, ch, done, closed⟩ := sub
  simp only [Subscription.flags, Flags.mk.injEq] at hflags
  simp only [Subscription.shut, Subscription.mk.injEq, true_and]
  refine ⟨?_, ?_, hflags.1.symm⟩
  · rw [← hflags.2.2]
  · rw [← hflags.2.1]

variable {id : UInt64}

namespace Broker

def shut (b : Broker) (s : ℕ) : Broker :=
  match b.heap[s]? with
  | none => b
  | some sub => b.put s sub.shut

def forget (b : Broker) (id : UInt64) : Broker :=
  { b with subscriptions := b.subscriptions.erase id }

def subscribed (b : Broker) (pattern : GoString) : Broker :=
  { b with
    nextID := b.nextID + 1
    heap := b.heap ++ [newSubscription (b.nextID + 1) pattern defaultBufSize]
    subscriptions := b.subscriptions.insert (b.nextID + 1) b.heap.length }

theorem lookup_forget (b : Broker) (id other : UInt64) :
    (b.forget id).subscriptions.lookup other =
      if other = id then none else b.subscriptions.lookup other := by
  unfold forget
  split
  · rename_i heq
    rw [heq, AList.lookup_erase]
  · rename_i hne
    rw [AList.lookup_erase_ne hne]

section Shut

variable (b : Broker) (s : ℕ)

@[simp] theorem mu_shut : (b.shut s).mu = b.mu := by
  unfold shut
  split <;> rfl

@[simp] theorem subscriptions_shut :
    (b.shut s).subscriptions = b.subscriptions := by
  unfold shut
  split <;> rfl

theorem getElem?_shut (t : ℕ) :
    (b.shut s).heap[t]? =
      if t = s then b.heap[t]?.map Subscription.shut else b.heap[t]? := by
  unfold shut
  split
  · rename_i hnone
    split
    · rename_i heq
      rw [heq, hnone, Option.map_none]
    · rfl
  · rename_i sub hsub
    obtain ⟨hlt, _⟩ := List.getElem?_eq_some_iff.mp hsub
    simp only [put]
    split
    · rename_i heq
      rw [heq, hsub, List.getElem?_set_self hlt, Option.map_some]
    · rename_i hne
      rw [List.getElem?_set_ne (Ne.symm hne)]

theorem status_shut (t : ℕ) :
    (b.shut s).status t =
      if t = s then (b.status t).map fun entry => (entry.1, true)
      else b.status t := by
  unfold status
  rw [getElem?_shut]
  split
  · rw [Option.map_map, Option.map_map]
    rfl
  · rfl

variable {b}

theorem Settled.shut (hsettled : b.Settled) : (b.shut s).Settled where
  calm := by
    rw [← hsettled.calm]
    unfold Broker.shut
    split <;> rfl
  agree t sub hsub := by
    rw [getElem?_shut] at hsub
    split at hsub
    · obtain ⟨old, _, rfl⟩ := Option.map_eq_some_iff.mp hsub
      rfl
    · exact hsettled.agree t sub hsub

end Shut

theorem status_eq_some {b : Broker} {s : ℕ} {closed : Bool}
    (hstatus : b.status s = some (id, closed)) :
    ∃ sub, b.heap[s]? = some sub ∧ sub.id = id ∧ sub.closed = closed := by
  obtain ⟨sub, hsub, heq⟩ := Option.map_eq_some_iff.mp hstatus
  simp only [Prod.mk.injEq] at heq
  exact ⟨sub, hsub, heq.1, heq.2⟩

end Broker

section Calls

variable {pathMatch : GoString → GoString → Bool} {choice : Choice}
  {b : Broker}

theorem exec_of_calm (hcalm : b.panicked = none) (op : Op) :
    (machine pathMatch).exec b op choice = execCalm pathMatch b op choice :=
  if_pos hcalm

theorem exec_readClosed (hcalm : b.panicked = none) {s : ℕ}
    {sub : Subscription} (hsub : b.heap[s]? = some sub) :
    (machine pathMatch).exec b (.readClosed s) choice =
      some (sub.closed, b) := by
  rw [exec_of_calm hcalm]
  simp only [execCalm, hsub, Option.map_some]

theorem modify_ok {s : ℕ} {sub sub' : Subscription}
    {f : Subscription → Except ChanPanic Subscription}
    (hsub : b.heap[s]? = some sub) (hok : f sub = .ok sub') :
    b.modify s f = some ((), b.put s sub') := by
  simp only [Broker.modify, hsub, hok]

theorem getElem?_put_self {s : ℕ} {sub : Subscription}
    (hsub : b.heap[s]? = some sub) (sub' : Subscription) :
    (b.put s sub').heap[s]? = some sub' := by
  obtain ⟨hlt, _⟩ := List.getElem?_eq_some_iff.mp hsub
  exact List.getElem?_set_self hlt

theorem put_put (s : ℕ) (sub sub' : Subscription) :
    (b.put s sub).put s sub' = b.put s sub' := by
  simp [Broker.put]

theorem ends_close {s : ℕ} (hsettled : b.Settled)
    {entry : UInt64 × Bool} (hstatus : b.status s = some entry) :
    (close s).Ends (machine pathMatch) choice b
      fun _ b' => b' = b.shut s := by
  obtain ⟨sub, hsub, _⟩ := Option.map_eq_some_iff.mp hstatus
  have hflags := hsettled.agree s sub hsub
  have hread : (machine pathMatch).exec b (.readClosed s) choice =
      some (sub.closed, b) := exec_readClosed hsettled.calm hsub
  have hshut : b.shut s = b.put s sub.shut := by
    simp only [Broker.shut, hsub]
  refine Prog.ends_perform hread ?_
  cases hclosed : sub.closed with
  | true =>
    refine Prog.ends_ret ?_
    have hsame : sub.shut = sub :=
      Subscription.shut_of_closed (by rw [hflags, hclosed])
    obtain ⟨hlt, hat⟩ := List.getElem?_eq_some_iff.mp hsub
    rw [hshut, hsame, Broker.put, ← hat, List.set_getElem_self hlt]
  | false =>
    simp only [Subscription.flags, hclosed, Flags.mk.injEq,
      true_and] at hflags
    let flagged : Subscription := { sub with closed := true }
    let finished : Subscription :=
      { flagged with done := { sub.done with closed := true } }
    have hfinish : flagged.closeDone = .ok finished := by
      simp [flagged, finished, Subscription.closeDone, Chan.close, hflags,
        Except.map]
    have hend : finished.closeCh = .ok sub.shut := by
      simp [flagged, finished, Subscription.closeCh, Chan.close, hflags,
        Except.map, Subscription.shut]
    have hset : (machine pathMatch).exec b (.setClosed s) choice =
        some ((), b.put s flagged) := by
      rw [exec_of_calm hsettled.calm]
      exact modify_ok (f := Subscription.setClosed) hsub rfl
    have hdone : (machine pathMatch).exec (b.put s flagged) (.closeDone s)
        choice = some ((), b.put s finished) := by
      have hcalm : (b.put s flagged).panicked = none := hsettled.calm
      rw [exec_of_calm hcalm, ← put_put s flagged finished]
      exact modify_ok (getElem?_put_self hsub _) hfinish
    have hch : (machine pathMatch).exec (b.put s finished) (.closeCh s)
        choice = some ((), b.shut s) := by
      have hcalm : (b.put s finished).panicked = none := hsettled.calm
      rw [exec_of_calm hcalm, hshut, ← put_put s finished sub.shut]
      exact modify_ok (getElem?_put_self hsub _) hend
    refine Prog.ends_perform hset (Prog.ends_perform hdone ?_)
    exact Prog.ends_act hch (Prog.ends_ret rfl)

/-- The subscriptions of these entries are closed and taken from the map. -/
def shutEach (b : Broker) (entries : List ((_ : UInt64) × ℕ)) : Broker :=
  entries.foldl (fun b entry => (b.shut entry.2).forget entry.1) b

theorem Broker.Settled.forget (hsettled : b.Settled) (id : UInt64) :
    (b.forget id).Settled :=
  ⟨hsettled.calm, hsettled.agree⟩

theorem shutEach_spec (hsettled : b.Settled)
    (entries : List ((_ : UInt64) × ℕ)) :
    (shutEach b entries).Settled ∧ (shutEach b entries).mu = b.mu ∧
      (∀ id, (shutEach b entries).subscriptions.lookup id =
        if id ∈ entries.map Sigma.fst then none
        else b.subscriptions.lookup id) ∧
      ∀ t, (shutEach b entries).status t =
        if t ∈ entries.map Sigma.snd then
          (b.status t).map fun entry => (entry.1, true)
        else b.status t := by
  induction entries generalizing b with
  | nil => exact ⟨hsettled, rfl, by simp [shutEach], by simp [shutEach]⟩
  | cons entry rest ih =>
    obtain ⟨hsettled', hmu, hlookup, hstatus⟩ :=
      ih ((hsettled.shut entry.2).forget entry.1)
    refine ⟨hsettled', ?_, ?_, ?_⟩
    · exact hmu.trans (b.mu_shut entry.2)
    · intro id
      have herased : ((b.shut entry.2).forget entry.1).subscriptions.lookup
          id = if id = entry.1 then none else b.subscriptions.lookup id := by
        rw [Broker.lookup_forget, Broker.subscriptions_shut]
      have hrest := hlookup id
      rw [herased] at hrest
      rw [shutEach, List.foldl_cons, ← shutEach, hrest, List.map_cons]
      by_cases heq : id = entry.1
      · simp only [heq, if_true, ite_self, List.mem_cons, true_or]
      · simp only [heq, if_false, List.mem_cons, false_or]
    · intro t
      have hrest := hstatus t
      have hshut : ((b.shut entry.2).forget entry.1).status t =
          (b.shut entry.2).status t := rfl
      rw [hshut, Broker.status_shut] at hrest
      rw [shutEach, List.foldl_cons, ← shutEach, hrest, List.map_cons]
      by_cases heq : t = entry.2
      · simp only [heq, if_true, List.mem_cons, true_or, Option.map_map]
        split <;> rfl
      · simp only [heq, if_false, List.mem_cons, false_or]

theorem isSome_status_shut (s t : ℕ) :
    ((b.shut s).status t).isSome = (b.status t).isSome := by
  rw [Broker.status_shut]
  split
  · exact Option.isSome_map
  · rfl

variable {entries : List ((_ : UInt64) × ℕ)}

theorem ends_closeEach (hsettled : b.Settled)
    (hknown : ∀ entry ∈ entries, (b.status entry.2).isSome) :
    (closeEach entries).Ends (machine pathMatch) choice b
      fun _ b' => b' = shutEach b entries := by
  induction entries generalizing b with
  | nil => exact Prog.ends_ret rfl
  | cons entry rest ih =>
    obtain ⟨id, s⟩ := entry
    rw [List.forall_mem_cons] at hknown
    obtain ⟨_, hstatus⟩ := Option.isSome_iff_exists.mp hknown.1
    obtain ⟨_, _, hsolo, rfl⟩ : (close s).Ends (machine pathMatch) choice b
        fun _ b' => b' = b.shut s :=
      ends_close hsettled hstatus
    refine Prog.ends_bind ⟨_, _, hsolo, ?_⟩
    have hdelete : (machine pathMatch).exec (b.shut s) (.delete id) choice =
        some ((), (b.shut s).forget id) := by
      rw [exec_of_calm (hsettled.shut s).calm]
      rfl
    refine Prog.ends_perform hdelete ?_
    refine ih ((hsettled.shut s).forget id) ?_
    intro entry hentry
    have hsome := hknown.2 entry hentry
    rwa [← isSome_status_shut s] at hsome

section Publish

/-- Nothing changes but the buffers of channels. -/
structure Broker.Buffers (b b' : Broker) : Prop where
  mu_eq : b'.mu = b.mu
  subscriptions_eq : b'.subscriptions = b.subscriptions
  nextID_eq : b'.nextID = b.nextID
  status_eq : b'.status = b.status
  settled : b'.Settled

theorem Broker.Buffers.refl (hsettled : b.Settled) : b.Buffers b :=
  ⟨rfl, rfl, rfl, rfl, hsettled⟩

theorem Broker.Buffers.trans {b' b'' : Broker} (hfirst : b.Buffers b')
    (hnext : b'.Buffers b'') : b.Buffers b'' where
  mu_eq := hnext.mu_eq.trans hfirst.mu_eq
  subscriptions_eq := hnext.subscriptions_eq.trans hfirst.subscriptions_eq
  nextID_eq := hnext.nextID_eq.trans hfirst.nextID_eq
  status_eq := hnext.status_eq.trans hfirst.status_eq
  settled := hnext.settled

theorem buffers_put {s : ℕ} {sub sub' : Subscription} (hsettled : b.Settled)
    (hsub : b.heap[s]? = some sub) (hid : sub'.id = sub.id)
    (hflags : sub'.flags = sub.flags) : b.Buffers (b.put s sub') := by
  have hclosed : sub'.closed = sub.closed := congrArg Flags.closed hflags
  refine ⟨rfl, rfl, rfl, ?_, hsettled.calm, ?_⟩
  · funext t
    by_cases hts : t = s
    · rw [hts, Broker.status, Broker.status, getElem?_put_self hsub, hsub,
        Option.map_some, Option.map_some, hid, hclosed]
    · simp only [Broker.status, Broker.put,
        List.getElem?_set_ne (Ne.symm hts)]
  · intro t other hother
    by_cases hts : t = s
    · rw [hts, getElem?_put_self hsub, Option.some_inj] at hother
      rw [← hother, hflags, hsettled.agree s sub hsub, hclosed]
    · rw [Broker.put, List.getElem?_set_ne (Ne.symm hts)] at hother
      exact hsettled.agree t other hother

theorem send_id {sub sub' : Subscription} {event : Event}
    (hok : sub.send event = .ok sub') : sub'.id = sub.id := by
  unfold Subscription.send at hok
  cases hsend : sub.ch.trySend event with
  | error panic => simp [hsend, Except.map] at hok
  | ok ch =>
    simp only [hsend, Except.map, Except.ok.injEq] at hok
    rw [← hok]

theorem ends_publishTo {s : ℕ} (hsettled : b.Settled)
    (hknown : (b.status s).isSome) (event : Event) :
    (publishTo event s).Ends (machine pathMatch) choice b
      fun _ b' => b.Buffers b' := by
  obtain ⟨_, hstatus⟩ := Option.isSome_iff_exists.mp hknown
  obtain ⟨sub, hsub, _⟩ := Option.map_eq_some_iff.mp hstatus
  have hflags := hsettled.agree s sub hsub
  have hread : (machine pathMatch).exec b (.readClosed s) choice =
      some (sub.closed, b) := exec_readClosed hsettled.calm hsub
  have hmatch : (machine pathMatch).exec b (.matchKey s event.key) choice =
      some (pathMatch sub.pattern event.key, b) := by
    rw [exec_of_calm hsettled.calm]
    simp only [execCalm, hsub, Option.map_some]
  refine Prog.ends_perform hread ?_
  cases hclosed : sub.closed with
  | true => exact Prog.ends_ret (Broker.Buffers.refl hsettled)
  | false =>
    refine Prog.ends_perform hmatch ?_
    cases pathMatch sub.pattern event.key with
    | false => exact Prog.ends_ret (Broker.Buffers.refl hsettled)
    | true =>
      rw [hclosed] at hflags
      obtain ⟨sub', hok, hflags'⟩ := send_advances event sub hflags
      have hid := send_id hok
      have hsend : (machine pathMatch).exec b (.trySend s event) choice =
          some ((), b.put s sub') := by
        rw [exec_of_calm hsettled.calm]
        exact modify_ok (f := fun sub => sub.send event) hsub hok
      exact Prog.ends_act hsend (Prog.ends_ret
        (buffers_put hsettled hsub hid (hflags'.trans hflags.symm)))

theorem ends_publishEach (hsettled : b.Settled)
    (hknown : ∀ entry ∈ entries, (b.status entry.2).isSome) (event : Event) :
    (publishEach event entries).Ends (machine pathMatch) choice b
      fun _ b' => b.Buffers b' := by
  induction entries generalizing b with
  | nil => exact Prog.ends_ret (Broker.Buffers.refl hsettled)
  | cons entry rest ih =>
    obtain ⟨id, s⟩ := entry
    rw [List.forall_mem_cons] at hknown
    obtain ⟨_, b', hsolo, hbuffers⟩ : (publishTo event s).Ends
        (machine pathMatch) choice b fun _ b' => b.Buffers b' :=
      ends_publishTo hsettled hknown.1 event
    refine Prog.ends_bind ⟨_, _, hsolo, ?_⟩
    obtain ⟨_, b'', hsolo', hbuffers'⟩ := ih hbuffers.settled
      (by rw [hbuffers.status_eq]; exact hknown.2)
    exact ⟨_, _, hsolo', hbuffers.trans hbuffers'⟩

end Publish

theorem Broker.Idle.known_entries (hidle : b.Idle)
    (horder : entries.Perm b.subscriptions.entries) :
    ∀ entry ∈ entries, (b.status entry.2).isSome := by
  rintro ⟨id, s⟩ hentry
  have hlookup : b.subscriptions.lookup id = some s :=
    AList.mem_lookup_iff.mpr (horder.mem_iff.mp hentry)
  obtain ⟨closed, hstatus⟩ := hidle.known id s hlookup
  rw [hstatus]
  rfl

theorem solo_publish (hidle : b.Idle) (event : Event) :
    ∃ stamped, (publish event).solo (machine pathMatch) choice b =
      (perform .subscriptions >>= fun entries => do
        publishEach stamped entries
        perform .rUnlock).solo (machine pathMatch) choice
          { b with mu := ⟨1, false⟩ } := by
  have hstamp : ∃ stamped, (stamp event).solo (machine pathMatch) choice b =
      some (stamped, b) := by
    unfold stamp
    cases event.timestamp with
    | some time => exact ⟨_, rfl⟩
    | none =>
      have hnow : (machine pathMatch).exec b .now choice =
          some (choice.now, b) := exec_of_calm hidle.calm .now
      rw [Prog.solo_perform_bind hnow]
      exact ⟨_, rfl⟩
  obtain ⟨stamped, hsolo⟩ := hstamp
  have hlock : (machine pathMatch).exec b .rLock choice =
      some ((), { b with mu := ⟨1, false⟩ }) := by
    rw [exec_of_calm hidle.calm]
    simp [execCalm, hidle.free, RWMutex.rLock, RWMutex.free]
  refine ⟨stamped, ?_⟩
  unfold publish
  rw [Prog.solo_bind_of_eq hsolo, Prog.solo_perform_bind hlock]

theorem ends_publish (hidle : b.Idle)
    (horder : choice.order.Perm b.subscriptions.entries) (event : Event) :
    (publish event).Ends (machine pathMatch) choice b
      fun _ b' => b.Buffers b' := by
  obtain ⟨stamped, hsolo⟩ : ∃ stamped,
      (publish event).solo (machine pathMatch) choice b = _ :=
    solo_publish hidle event
  have hsettled : ({ b with mu := ⟨1, false⟩ } : Broker).Settled :=
    ⟨hidle.calm, hidle.agree⟩
  have hrange : (machine pathMatch).exec { b with mu := ⟨1, false⟩ }
      .subscriptions choice =
        some (choice.order, { b with mu := ⟨1, false⟩ }) := by
    rw [exec_of_calm hsettled.calm]
    exact if_pos horder
  obtain ⟨_, b', heach, hbuffers⟩ : (publishEach stamped choice.order).Ends
      (machine pathMatch) choice { b with mu := ⟨1, false⟩ }
      fun _ b' => Broker.Buffers { b with mu := ⟨1, false⟩ } b' :=
    ends_publishEach hsettled (hidle.known_entries horder) stamped
  have hunlock : (machine pathMatch).exec b' .rUnlock choice =
      some ((), { b' with mu := b'.mu.rUnlock }) :=
    exec_of_calm hbuffers.settled.calm .rUnlock
  refine ⟨(), { b' with mu := b'.mu.rUnlock }, ?_, ?_⟩
  · rw [hsolo, Prog.solo_perform_bind hrange, Prog.solo_bind_of_eq heach]
    simp only [perform, Prog.perform, Prog.solo, hunlock]
  · refine ⟨?_, hbuffers.subscriptions_eq, hbuffers.nextID_eq,
      hbuffers.status_eq, hbuffers.settled.calm, hbuffers.settled.agree⟩
    simp only [hbuffers.mu_eq, hidle.free]
    rfl

section Locked

def Broker.locked (b : Broker) : Broker := { b with mu := ⟨0, true⟩ }

theorem Broker.Settled.locked (hsettled : b.Settled) : b.locked.Settled :=
  ⟨hsettled.calm, hsettled.agree⟩

theorem exec_lock (hcalm : b.panicked = none) (hfree : b.mu = .free) :
    (machine pathMatch).exec b .lock choice = some ((), b.locked) := by
  rw [exec_of_calm hcalm]
  simp [execCalm, hfree, RWMutex.lock, RWMutex.free, Broker.locked]

theorem exec_unlock (hcalm : b.panicked = none) (hfree : b.mu = .free) :
    (machine pathMatch).exec b.locked .unlock choice = some ((), b) := by
  have hcalm' : b.locked.panicked = none := hcalm
  rw [exec_of_calm hcalm']
  obtain ⟨mu, subscriptions, nextID, heap, panicked⟩ := b
  simp only at hfree
  rw [hfree]
  rfl

theorem shut_locked (s : ℕ) : b.locked.shut s = (b.shut s).locked := by
  simp only [Broker.shut, Broker.locked]
  split <;> rfl

theorem shutEach_locked (entries : List ((_ : UInt64) × ℕ)) :
    shutEach b.locked entries = (shutEach b entries).locked := by
  induction entries generalizing b with
  | nil => rfl
  | cons entry rest ih =>
    have hfirst : (b.locked.shut entry.2).forget entry.1 =
        ((b.shut entry.2).forget entry.1).locked := by
      rw [shut_locked]
      rfl
    simp only [shutEach, List.foldl_cons, hfirst]
    exact ih

theorem ends_subscribe (hidle : b.Idle) (pattern : GoString) :
    (subscribe pattern).Ends (machine pathMatch) choice b fun s b' =>
      s = b.heap.length ∧ b' = b.subscribed pattern := by
  have hnext : (machine pathMatch).exec b .nextID choice =
      some (b.nextID + 1, { b with nextID := b.nextID + 1 }) :=
    exec_of_calm hidle.calm .nextID
  refine Prog.ends_perform hnext ?_
  let created : Broker := { b with
    nextID := b.nextID + 1
    heap := b.heap ++ [newSubscription (b.nextID + 1) pattern defaultBufSize] }
  have hcreate : (machine pathMatch).exec { b with nextID := b.nextID + 1 }
      (.newSubscription (b.nextID + 1) pattern) choice =
        some (b.heap.length, created) := by
    rw [exec_of_calm (by exact hidle.calm)]
    rfl
  refine Prog.ends_perform hcreate ?_
  have hcalm : created.panicked = none := hidle.calm
  have hfree : created.mu = .free := hidle.free
  refine Prog.ends_perform (exec_lock hcalm hfree) ?_
  have hinsert : (machine pathMatch).exec created.locked
      (.insert (b.nextID + 1) b.heap.length) choice =
        some ((), (b.subscribed pattern).locked) := by
    rw [exec_of_calm (by exact hidle.calm)]
    rfl
  refine Prog.ends_perform hinsert ?_
  have hunlock : (machine pathMatch).exec (b.subscribed pattern).locked
      .unlock choice = some ((), b.subscribed pattern) :=
    exec_unlock hcalm hfree
  exact Prog.ends_perform hunlock (Prog.ends_ret ⟨rfl, rfl⟩)

theorem ends_unsubscribe_unknown (hidle : b.Idle)
    (hlookup : b.subscriptions.lookup id = none) :
    (unsubscribe id).Ends (machine pathMatch) choice b
      fun _ b' => b' = b := by
  have hfind : (machine pathMatch).exec b.locked (.lookup id) choice =
      some (none, b.locked) := by
    rw [exec_of_calm hidle.locked.calm, ← hlookup]
    rfl
  refine Prog.ends_perform (exec_lock hidle.calm hidle.free) (Prog.ends_perform hfind ?_)
  exact Prog.ends_act (exec_unlock hidle.calm hidle.free) (Prog.ends_ret rfl)

theorem ends_unsubscribe_known {s : ℕ} (hidle : b.Idle)
    (hlookup : b.subscriptions.lookup id = some s) :
    (unsubscribe id).Ends (machine pathMatch) choice b
      fun _ b' => b' = (b.shut s).forget id := by
  obtain ⟨closed, hstatus⟩ := hidle.known id s hlookup
  have hfind : (machine pathMatch).exec b.locked (.lookup id) choice =
      some (some s, b.locked) := by
    rw [exec_of_calm hidle.locked.calm, ← hlookup]
    rfl
  refine Prog.ends_perform (exec_lock hidle.calm hidle.free) (Prog.ends_perform hfind ?_)
  obtain ⟨_, _, hsolo, hclosed⟩ : (close s).Ends (machine pathMatch) choice
      b.locked fun _ b' => b' = b.locked.shut s :=
    ends_close hidle.locked hstatus
  rw [hclosed, shut_locked] at hsolo
  refine Prog.ends_bind ⟨_, _, hsolo, ?_⟩
  have hsettled := (hidle.toSettled.shut s).forget id
  have hdelete : (machine pathMatch).exec (b.shut s).locked (.delete id)
      choice = some ((), ((b.shut s).forget id).locked) := by
    rw [exec_of_calm (hidle.toSettled.shut s).locked.calm]
    rfl
  refine Prog.ends_perform hdelete ?_
  have hfree : ((b.shut s).forget id).mu = .free := by
    rw [← hidle.free, ← Broker.mu_shut b s]
    rfl
  exact Prog.ends_act (exec_unlock hsettled.calm hfree) (Prog.ends_ret rfl)

theorem ends_shutdown (hidle : b.Idle)
    (horder : choice.order.Perm b.subscriptions.entries) :
    shutdown.Ends (machine pathMatch) choice b
      fun _ b' => b' = shutEach b choice.order := by
  have hrange : (machine pathMatch).exec b.locked .subscriptions choice =
      some (choice.order, b.locked) := by
    rw [exec_of_calm hidle.locked.calm]
    exact if_pos horder
  refine Prog.ends_perform (exec_lock hidle.calm hidle.free) (Prog.ends_perform hrange ?_)
  obtain ⟨_, _, hsolo, hclosed⟩ : (closeEach choice.order).Ends
      (machine pathMatch) choice b.locked
      fun _ b' => b' = shutEach b.locked choice.order :=
    ends_closeEach hidle.locked (hidle.known_entries horder)
  rw [hclosed, shutEach_locked] at hsolo
  refine Prog.ends_bind ⟨_, _, hsolo, ?_⟩
  obtain ⟨hsettled, hmu, _⟩ := shutEach_spec hidle.toSettled choice.order
  exact Prog.ends_act (exec_unlock hsettled.calm (hmu.trans hidle.free))
    (Prog.ends_ret rfl)

end Locked

/-! ## Calls one after the other -/

/-- A call that cannot be made (of a subscription there is not, or with an
order of the map that is none) changes nothing. -/
def step (pathMatch : GoString → GoString → Bool) (b : Broker)
    (call : Call × Choice) : Option Unit × Broker :=
  match call.1.program.solo (machine pathMatch) call.2 b with
  | some result => (some (), result.2)
  | none => (none, b)

theorem step_of_ends (call : Call) {post : Broker → Prop}
    (hends : call.program.Ends (machine pathMatch) choice b
      fun _ b' => post b') : post (step pathMatch b (call, choice)).2 := by
  obtain ⟨_, b', hsolo, hpost⟩ := hends
  simp only [step, hsolo]
  exact hpost

theorem step_of_none (call : Call)
    (hsolo : call.program.solo (machine pathMatch) choice b = none) :
    (step pathMatch b (call, choice)).2 = b := by
  simp only [step, hsolo]

theorem step_subscribe (hidle : b.Idle) (pattern : GoString) :
    (step pathMatch b (.subscribe pattern, choice)).2 =
      b.subscribed pattern := by
  obtain ⟨_, b', hsolo, _, hstate⟩ : (subscribe pattern).Ends
      (machine pathMatch) choice b _ := ends_subscribe hidle pattern
  have hends : (Call.subscribe pattern).program.Ends (machine pathMatch)
      choice b fun _ final => final = b' :=
    Prog.ends_map ⟨_, _, hsolo, rfl⟩
  rw [step_of_ends _ hends, hstate]

theorem step_close (hidle : b.Idle) (s : ℕ) :
    (step pathMatch b (.close s, choice)).2 = b.shut s := by
  cases hsub : b.heap[s]? with
  | none =>
    have hread : (machine pathMatch).exec b (.readClosed s) choice =
        none := by
      rw [exec_of_calm hidle.calm]
      simp only [execCalm, hsub, Option.map_none]
    have hshut : b.shut s = b := by simp only [Broker.shut, hsub]
    rw [hshut]
    exact step_of_none (.close s) (Prog.solo_perform_bind_none hread)
  | some sub =>
    have hstatus : b.status s = some (sub.id, sub.closed) := by
      rw [Broker.status, hsub, Option.map_some]
    exact step_of_ends (.close s) (ends_close hidle.toSettled hstatus)

theorem step_unsubscribe_unknown (hidle : b.Idle)
    (hlookup : b.subscriptions.lookup id = none) :
    (step pathMatch b (.unsubscribe id, choice)).2 = b :=
  step_of_ends (.unsubscribe id) (ends_unsubscribe_unknown hidle hlookup)

theorem step_unsubscribe_known {s : ℕ} (hidle : b.Idle)
    (hlookup : b.subscriptions.lookup id = some s) :
    (step pathMatch b (.unsubscribe id, choice)).2 = (b.shut s).forget id :=
  step_of_ends (.unsubscribe id) (ends_unsubscribe_known hidle hlookup)

theorem step_publish (hidle : b.Idle) (event : Event) :
    b.Buffers (step pathMatch b (.publish event, choice)).2 := by
  by_cases horder : choice.order.Perm b.subscriptions.entries
  · exact step_of_ends (.publish event)
      (ends_publish hidle horder event)
  · have hrange : (machine pathMatch).exec { b with mu := ⟨1, false⟩ }
        .subscriptions choice = none := by
      rw [exec_of_calm (by exact hidle.calm)]
      exact if_neg horder
    obtain ⟨stamped, hsolo⟩ : ∃ stamped,
        (publish event).solo (machine pathMatch) choice b = _ :=
      solo_publish hidle event
    rw [Prog.solo_perform_bind_none hrange] at hsolo
    rw [step_of_none (.publish event) hsolo]
    exact Broker.Buffers.refl hidle.toSettled

theorem step_shutdown (hidle : b.Idle) :
    (step pathMatch b (.shutdown, choice)).2 =
      if choice.order.Perm b.subscriptions.entries then
        shutEach b choice.order
      else b := by
  by_cases horder : choice.order.Perm b.subscriptions.entries
  · rw [if_pos horder]
    exact step_of_ends .shutdown (ends_shutdown hidle horder)
  · have hrange : (machine pathMatch).exec b.locked .subscriptions choice =
        none := by
      rw [exec_of_calm hidle.locked.calm]
      exact if_neg horder
    rw [if_neg horder]
    refine step_of_none .shutdown ?_
    have hlock : (machine pathMatch).exec b .lock choice = _ :=
      exec_lock hidle.calm hidle.free
    exact (Prog.solo_perform_bind hlock).trans
      (Prog.solo_perform_bind_none hrange)

/-! ## Between the calls -/

theorem idle_new : Broker.new.Idle where
  calm := rfl
  agree _ _ hsub := by simp [Broker.new] at hsub
  free := rfl
  known _ _ hlookup := by simp [Broker.new] at hlookup

theorem Broker.Idle.shut (hidle : b.Idle) (s : ℕ) : (b.shut s).Idle where
  toSettled := hidle.toSettled.shut s
  free := by rw [Broker.mu_shut, hidle.free]
  known id t hlookup := by
    rw [Broker.subscriptions_shut] at hlookup
    obtain ⟨closed, hstatus⟩ := hidle.known id t hlookup
    rw [Broker.status_shut, hstatus]
    split
    · exact ⟨true, rfl⟩
    · exact ⟨closed, rfl⟩

theorem Broker.Idle.forget (hidle : b.Idle) (id : UInt64) :
    (b.forget id).Idle where
  toSettled := hidle.toSettled.forget id
  free := hidle.free
  known other t hlookup := by
    rw [Broker.lookup_forget] at hlookup
    split at hlookup
    · cases hlookup
    · exact hidle.known other t hlookup

theorem Broker.Idle.shutEach (hidle : b.Idle)
    (entries : List ((_ : UInt64) × ℕ)) : (shutEach b entries).Idle := by
  induction entries generalizing b with
  | nil => exact hidle
  | cons entry rest ih => exact ih ((hidle.shut entry.2).forget entry.1)

theorem Broker.Idle.of_buffers {b' : Broker} (hidle : b.Idle)
    (hbuffers : b.Buffers b') : b'.Idle where
  toSettled := hbuffers.settled
  free := hbuffers.mu_eq.trans hidle.free
  known := by
    rw [hbuffers.subscriptions_eq, hbuffers.status_eq]
    exact hidle.known

section Subscribed

variable (pattern : GoString)

theorem Broker.lookup_subscribed (id : UInt64) :
    (b.subscribed pattern).subscriptions.lookup id =
      if id = b.nextID + 1 then some b.heap.length
      else b.subscriptions.lookup id := by
  unfold Broker.subscribed
  split
  · rename_i heq
    rw [heq, AList.lookup_insert]
  · rename_i hne
    rw [AList.lookup_insert_ne hne]

theorem Broker.getElem?_subscribed (t : ℕ) :
    (b.subscribed pattern).heap[t]? =
      if t = b.heap.length then
        some (newSubscription (b.nextID + 1) pattern defaultBufSize)
      else b.heap[t]? := by
  simp only [Broker.subscribed]
  split
  · rename_i heq
    rw [heq, List.getElem?_concat_length]
  · rename_i hne
    rcases Nat.lt_or_gt_of_ne hne with hlt | hgt
    · rw [List.getElem?_append_left hlt]
    · rw [List.getElem?_eq_none (by simp; omega),
        List.getElem?_eq_none (by omega)]

theorem Broker.status_subscribed (t : ℕ) :
    (b.subscribed pattern).status t =
      if t = b.heap.length then some (b.nextID + 1, false)
      else b.status t := by
  unfold Broker.status
  rw [Broker.getElem?_subscribed]
  split <;> rfl

theorem Broker.status_heap_length (b : Broker) :
    b.status b.heap.length = none := by
  rw [Broker.status, List.getElem?_eq_none le_rfl, Option.map_none]

theorem Broker.Idle.subscribed (hidle : b.Idle) :
    (b.subscribed pattern).Idle where
  calm := hidle.calm
  agree t sub hsub := by
    rw [Broker.getElem?_subscribed] at hsub
    split at hsub
    · rw [← Option.some.inj hsub]
      rfl
    · exact hidle.agree t sub hsub
  free := hidle.free
  known id t hlookup := by
    rw [Broker.lookup_subscribed] at hlookup
    rw [Broker.status_subscribed]
    split at hlookup
    · rename_i hid
      rw [if_pos (Option.some.inj hlookup).symm, hid]
      exact ⟨false, rfl⟩
    · obtain ⟨closed, hstatus⟩ := hidle.known id t hlookup
      have hne : t ≠ b.heap.length := by
        rintro rfl
        rw [b.status_heap_length] at hstatus
        cases hstatus
      rw [if_neg hne]
      exact ⟨closed, hstatus⟩

end Subscribed

theorem Broker.Idle.step (hidle : b.Idle) (call : Call × Choice) :
    (step pathMatch b call).2.Idle := by
  obtain ⟨call, choice⟩ := call
  cases call with
  | subscribe pattern =>
    rw [step_subscribe hidle]
    exact hidle.subscribed pattern
  | close s =>
    rw [step_close hidle]
    exact hidle.shut s
  | unsubscribe id =>
    cases hlookup : b.subscriptions.lookup id with
    | none =>
      rw [step_unsubscribe_unknown hidle hlookup]
      exact hidle
    | some s =>
      rw [step_unsubscribe_known hidle hlookup]
      exact (hidle.shut s).forget id
  | publish event => exact hidle.of_buffers (step_publish hidle event)
  | shutdown =>
    rw [step_shutdown hidle]
    split
    · exact hidle.shutEach choice.order
    · exact hidle

/-! ## The map and the flags -/

theorem Broker.HoldsOpen.subscribed (hholds : b.HoldsOpen)
    (hfresh : b.subscriptions.lookup (b.nextID + 1) = none)
    (pattern : GoString) : (b.subscribed pattern).HoldsOpen := by
  intro id t
  rw [Broker.lookup_subscribed, Broker.status_subscribed]
  by_cases hid : id = b.nextID + 1
  · rw [if_pos hid]
    by_cases ht : t = b.heap.length
    · simp [ht, hid]
    · have hnot : b.status t ≠ some (id, false) := by
        intro hopen
        rw [← hholds, hid, hfresh] at hopen
        cases hopen
      simp [ht, hnot, Ne.symm ht]
  · rw [if_neg hid, hholds id t]
    by_cases ht : t = b.heap.length
    · rw [if_pos ht, ht, b.status_heap_length]
      simp [Ne.symm hid]
    · rw [if_neg ht]

theorem Broker.HoldsOpen.unsubscribed (hholds : b.HoldsOpen) {s : ℕ}
    (hlookup : b.subscriptions.lookup id = some s) :
    ((b.shut s).forget id).HoldsOpen := by
  have hopen := (hholds id s).mp hlookup
  intro other t
  have hstatus : ((b.shut s).forget id).status t = (b.shut s).status t := rfl
  rw [Broker.lookup_forget, Broker.subscriptions_shut, hstatus,
    Broker.status_shut]
  by_cases ht : t = s
  · rw [if_pos ht, ht, hopen]
    by_cases hid : other = id
    · simp [hid]
    · have hnot : b.subscriptions.lookup other ≠ some s := by
        intro hother
        rw [hholds, hopen, Option.some_inj, Prod.mk.injEq] at hother
        exact hid hother.1.symm
      simp [hid, hnot]
  · rw [if_neg ht, ← hholds other t]
    by_cases hid : other = id
    · rw [if_pos hid, hid, hlookup, Option.some_inj]
      simp [Ne.symm ht]
    · rw [if_neg hid]

theorem Broker.HoldsOpen.shutEach (hholds : b.HoldsOpen) (hidle : b.Idle)
    (horder : entries.Perm b.subscriptions.entries) :
    (shutEach b entries).HoldsOpen := by
  obtain ⟨_, _, hlookup, hstatus⟩ := shutEach_spec hidle.toSettled entries
  have hmem : ∀ {id : UInt64} {t : ℕ},
      b.subscriptions.lookup id = some t → ⟨id, t⟩ ∈ entries := by
    intro id t hfound
    exact horder.mem_iff.mpr (AList.mem_lookup_iff.mp hfound)
  intro id t
  have hgone : (Pubsub.shutEach b entries).subscriptions.lookup id = none := by
    rw [hlookup]
    split
    · rfl
    · rename_i hout
      cases hfound : b.subscriptions.lookup id with
      | none => rfl
      | some s =>
        exact absurd (List.mem_map.mpr ⟨_, hmem hfound, rfl⟩) hout
  have hclosed : (Pubsub.shutEach b entries).status t ≠ some (id, false) := by
    rw [hstatus]
    split
    · intro hopen
      obtain ⟨_, _, hentry⟩ := Option.map_eq_some_iff.mp hopen
      simp at hentry
    · rename_i hout
      intro hopen
      rw [← hholds] at hopen
      exact hout (List.mem_map.mpr ⟨_, hmem hopen, rfl⟩)
  rw [hgone]
  simp [hclosed]

theorem Broker.HoldsOpen.step (hholds : b.HoldsOpen) (hidle : b.Idle)
    {call : Call × Choice} (hkeeps : b.KeepsOpen call.1) :
    (step pathMatch b call).2.HoldsOpen := by
  obtain ⟨call, choice⟩ := call
  cases call with
  | subscribe pattern =>
    rw [step_subscribe hidle]
    exact hholds.subscribed hkeeps pattern
  | close s =>
    rw [step_close hidle]
    intro id t
    rw [Broker.subscriptions_shut, hholds, Broker.status_shut]
    split
    · rename_i ht
      have hnot := hkeeps id
      rw [ht]
      cases hstatus : b.status s with
      | none => simp
      | some entry =>
        rw [hstatus] at hnot
        simp [hnot]
    · rfl
  | unsubscribe id =>
    cases hlookup : b.subscriptions.lookup id with
    | none =>
      rw [step_unsubscribe_unknown hidle hlookup]
      exact hholds
    | some s =>
      rw [step_unsubscribe_known hidle hlookup]
      exact hholds.unsubscribed hlookup
  | publish event =>
    have hbuffers : b.Buffers
        (Pubsub.step pathMatch b (.publish event, choice)).2 :=
      step_publish hidle event
    intro id t
    rw [hbuffers.subscriptions_eq, hbuffers.status_eq]
    exact hholds id t
  | shutdown =>
    rw [step_shutdown hidle]
    split
    · rename_i horder
      exact hholds.shutEach hidle horder
    · exact hholds

/-- The other calls leave a closed subscription in the map, or an open one
outside it. -/
theorem Broker.HoldsOpen.not_step (hholds : b.HoldsOpen) (hidle : b.Idle)
    {call : Call × Choice} (hparts : ¬ b.KeepsOpen call.1) :
    ¬ (Pubsub.step pathMatch b call).2.HoldsOpen := by
  obtain ⟨call, choice⟩ := call
  intro hafter
  cases call with
  | subscribe pattern =>
    obtain ⟨s, hlookup⟩ := Option.ne_none_iff_exists'.mp hparts
    have hopen := (hholds _ s).mp hlookup
    have hne : s ≠ b.heap.length := by
      rintro rfl
      rw [b.status_heap_length] at hopen
      cases hopen
    rw [step_subscribe hidle] at hafter
    have hlost := (hafter (b.nextID + 1) s).mpr
      (by rw [Broker.status_subscribed, if_neg hne, hopen])
    rw [Broker.lookup_subscribed, if_pos rfl, Option.some_inj] at hlost
    exact hne hlost.symm
  | close s =>
    simp only [Broker.KeepsOpen, not_forall, not_not] at hparts
    obtain ⟨id, hopen⟩ := hparts
    rw [step_close hidle] at hafter
    have hkept := (hafter id s).mp
      (by rw [Broker.subscriptions_shut, hholds, hopen])
    rw [Broker.status_shut, if_pos rfl, hopen] at hkept
    simp at hkept
  | unsubscribe id => exact hparts trivial
  | publish event => exact hparts trivial
  | shutdown => exact hparts trivial

theorem Broker.HoldsOpen.length_le (hholds : b.HoldsOpen) :
    b.subscriptions.entries.length ≤ b.opened.length := by
  have hinjective : (b.subscriptions.entries.map Sigma.snd).Nodup := by
    refine List.Nodup.map_on ?_ (List.NodupKeys.nodup b.subscriptions.nodupKeys)
    rintro ⟨id, s⟩ hentry ⟨other, t⟩ hother hst
    simp only at hst
    subst hst
    have hopen := (hholds id s).mp (AList.mem_lookup_iff.mpr hentry)
    have hopen' := (hholds other s).mp (AList.mem_lookup_iff.mpr hother)
    rw [hopen, Option.some_inj, Prod.mk.injEq] at hopen'
    rw [hopen'.1]
  have hsubset : b.subscriptions.entries.map Sigma.snd ⊆ b.opened := by
    intro s hs
    obtain ⟨⟨id, t⟩, hentry, rfl⟩ := List.mem_map.mp hs
    have hopen := (hholds id t).mp (AList.mem_lookup_iff.mpr hentry)
    obtain ⟨sub, hsub, _⟩ := Broker.status_eq_some hopen
    obtain ⟨hlt, _⟩ := List.getElem?_eq_some_iff.mp hsub
    rw [Broker.opened, List.mem_filter, List.mem_range]
    exact ⟨hlt, by simp [hopen]⟩
  rw [← List.length_map Sigma.snd]
  exact (List.Nodup.subperm hinjective hsubset).length_le

end Calls

/-! ## Runs -/

theorem holdsOpen_new : Broker.new.HoldsOpen := by
  intro id s
  simp [Broker.new, Broker.status]

theorem holdsOpen_run_iff {pathMatch : GoString → GoString → Bool}
    {b : Broker} (hholds : b.HoldsOpen) (hidle : b.Idle)
    (calls : List (Call × Choice)) :
    (∀ earlier, earlier <+: calls →
        (run (step pathMatch) b earlier).2.HoldsOpen) ↔
      Meets (step pathMatch) (fun b call => b.KeepsOpen call.1) b calls := by
  induction calls generalizing b with
  | nil =>
    refine iff_of_true ?_ trivial
    intro earlier hearlier
    rw [List.prefix_nil.mp hearlier]
    exact hholds
  | cons call calls ih =>
    constructor
    · intro hall
      have hkeeps : b.KeepsOpen call.1 := by
        by_contra hparts
        exact hholds.not_step hidle hparts (hall [call]
          (List.prefix_append [call] calls))
      refine ⟨hkeeps, (ih (hholds.step hidle hkeeps) (hidle.step call)).mp ?_⟩
      intro earlier hearlier
      exact hall (call :: earlier)
        (List.cons_prefix_cons.mpr ⟨rfl, hearlier⟩)
    · rintro ⟨hkeeps, hmeets⟩ earlier hearlier
      rcases earlier with _ | ⟨first, earlier⟩
      · exact hholds
      · rw [List.cons_prefix_cons] at hearlier
        rw [hearlier.1]
        exact (ih (hholds.step hidle hkeeps) (hidle.step call)).mpr hmeets
          earlier hearlier.2

/-- The map holds exactly the open subscriptions after every call if and only
if no call closes an open subscription behind the broker's back, and none gets
a number that is still in the map.  The map is then no larger than the number
of open subscriptions. -/
theorem holdsOpen_iff (pathMatch : GoString → GoString → Bool)
    (calls : List (Call × Choice)) :
    (∀ earlier, earlier <+: calls →
        (run (step pathMatch) .new earlier).2.HoldsOpen ∧
          (run (step pathMatch) .new earlier).2.subscriptions.entries.length ≤
            (run (step pathMatch) .new earlier).2.opened.length) ↔
      Meets (step pathMatch) (fun b call => b.KeepsOpen call.1) .new
        calls := by
  rw [← holdsOpen_run_iff holdsOpen_new idle_new calls]
  constructor
  · intro hall earlier hearlier
    exact (hall earlier hearlier).1
  · intro hall earlier hearlier
    exact ⟨hall earlier hearlier, (hall earlier hearlier).length_le⟩

/-- A subscriber leaves with Close, and the broker keeps the subscription. -/
theorem closed_subscription_stays :
    let calls : List (Call × Choice) :=
      [(.subscribe (ascii "*"), ⟨0, [], false⟩), (.close 0, ⟨0, [], false⟩)]
    let b := (run (step fun _ _ => true) .new calls).2
    b.subscriptions.entries = [⟨1, 0⟩] ∧ b.status 0 = some (1, true) ∧
      b.opened = [] := by
  decide

end Pubsub

end CacheGrid
