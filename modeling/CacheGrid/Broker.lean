import CacheGrid.CacheNode
import CacheGrid.InterleavedPrograms
import CacheGrid.ReadWriteLock

/-!
# The broker

`internal/pubsub`: subscriptions with a buffered channel each, in a map under
a lock for many readers or one writer.  Publish sends under the read lock,
Unsubscribe and Shutdown close under the write lock, and a subscriber closes
its own subscription under no lock at all.

A subscription is a pointer in the source, so it lives in a heap and is
referred to by its position there.  The run is followed up to the first panic
of a channel.  What an operation does not determine is a choice: the reading
of the clock, the order in which the map is visited, and whether the context
of a request is done.
-/

namespace CacheGrid

open InterleavedPrograms ReadWriteLock

namespace Pubsub

def defaultBufSize : ℕ := 256

/-- An event with its time stamp; the zero time is `none`. -/
structure Event extends CacheEvent where
  timestamp : Option ℤ := none

/-! ## Channels -/

structure Chan (α : Type) where
  capacity : ℕ
  buffered : List α
  closed : Bool

inductive ChanPanic where
  | sendOnClosed
  | closeOfClosed
  deriving DecidableEq

namespace Chan

variable {α : Type}

def make (capacity : ℕ) : Chan α := ⟨capacity, [], false⟩

/-- A send in a select with a default: a value that finds the buffer full is
dropped. -/
def trySend (c : Chan α) (value : α) : Except ChanPanic (Chan α) :=
  if c.closed then .error .sendOnClosed
  else if c.buffered.length < c.capacity then
    .ok { c with buffered := c.buffered ++ [value] }
  else .ok c

def close (c : Chan α) : Except ChanPanic (Chan α) :=
  if c.closed then .error .closeOfClosed else .ok { c with closed := true }

/-- A receive, which blocks on an empty channel that is open. -/
def receive (c : Chan α) : Option (Option α × Chan α) :=
  match c.buffered with
  | value :: rest => some (some value, { c with buffered := rest })
  | [] => if c.closed then some (none, c) else none

end Chan

/-! ## Subscriptions -/

structure Subscription where
  id : UInt64
  pattern : GoString
  ch : Chan Event
  done : Chan Unit
  closed : Bool

def newSubscription (id : UInt64) (pattern : GoString) (bufSize : ℕ) :
    Subscription where
  id := id
  pattern := pattern
  ch := .make bufSize
  done := .make 0
  closed := false

namespace Subscription

def send (sub : Subscription) (event : Event) :
    Except ChanPanic Subscription :=
  (sub.ch.trySend event).map fun ch => { sub with ch := ch }

def setClosed (sub : Subscription) : Except ChanPanic Subscription :=
  .ok { sub with closed := true }

def closeDone (sub : Subscription) : Except ChanPanic Subscription :=
  sub.done.close.map fun done => { sub with done := done }

def closeCh (sub : Subscription) : Except ChanPanic Subscription :=
  sub.ch.close.map fun ch => { sub with ch := ch }

end Subscription

structure Broker where
  mu : RWMutex
  subscriptions : AList fun _ : UInt64 => ℕ
  nextID : UInt64
  heap : List Subscription
  /-- The first panic, with the subscription whose channel it is about. -/
  panicked : Option (ℕ × ChanPanic)

namespace Broker

def new : Broker := ⟨.free, ∅, 0, [], none⟩

def put (b : Broker) (s : ℕ) (sub : Subscription) : Broker :=
  { b with heap := b.heap.set s sub }

/-- Change a subscription in place, or panic. -/
def modify (b : Broker) (s : ℕ)
    (f : Subscription → Except ChanPanic Subscription) :
    Option (Unit × Broker) :=
  match b.heap[s]? with
  | none => none
  | some sub =>
    match f sub with
    | .ok sub' => some ((), b.put s sub')
    | .error panic => some ((), { b with panicked := some (s, panic) })

end Broker

/-! ## Programs -/

inductive Op where
  | now
  | rLock
  | rUnlock
  | lock
  | unlock
  | nextID
  | newSubscription (id : UInt64) (pattern : GoString)
  /-- The entries of the map, in the order of a range. -/
  | subscriptions
  | lookup (id : UInt64)
  | insert (id : UInt64) (s : ℕ)
  | delete (id : UInt64)
  | readClosed (s : ℕ)
  | setClosed (s : ℕ)
  | closeDone (s : ℕ)
  | closeCh (s : ℕ)
  | matchKey (s : ℕ) (key : GoString)
  | trySend (s : ℕ) (event : Event)
  /-- The select of a subscriber: an event, or the end. -/
  | receive (s : ℕ)

abbrev Op.Answer : Op → Type
  | .now => ℤ
  | .nextID => UInt64
  | .newSubscription _ _ => ℕ
  | .subscriptions => List ((_ : UInt64) × ℕ)
  | .lookup _ => Option ℕ
  | .readClosed _ => Bool
  | .matchKey _ _ => Bool
  | .receive _ => Option Event
  | _ => Unit

abbrev signature : Signature := ⟨Op, Op.Answer⟩

abbrev Program (α : Type) := Prog signature α

abbrev perform (op : Op) : Program op.Answer :=
  Prog.perform (S := signature) op

/-- `Subscription.Close` -/
def close (s : ℕ) : Program Unit := do
  if ← perform (.readClosed s) then pure ()
  else
    perform (.setClosed s)
    perform (.closeDone s)
    perform (.closeCh s)

def subscribe (pattern : GoString) : Program ℕ := do
  let id ← perform .nextID
  let s ← perform (.newSubscription id pattern)
  perform .lock
  perform (.insert id s)
  perform .unlock
  pure s

def unsubscribe (id : UInt64) : Program Unit := do
  perform .lock
  match ← perform (.lookup id) with
  | none => perform .unlock
  | some s =>
    close s
    perform (.delete id)
    perform .unlock

def stamp (event : Event) : Program Event := do
  match event.timestamp with
  | some _ => pure event
  | none =>
    let now ← perform .now
    pure { event with timestamp := some now }

def publishTo (event : Event) (s : ℕ) : Program Unit := do
  if ← perform (.readClosed s) then pure ()
  else if ← perform (.matchKey s event.key) then perform (.trySend s event)
  else pure ()

def publishEach (event : Event) :
    List ((_ : UInt64) × ℕ) → Program Unit
  | [] => pure ()
  | ⟨_, s⟩ :: rest => do
    publishTo event s
    publishEach event rest

def publish (event : Event) : Program Unit := do
  let event ← stamp event
  perform .rLock
  let entries ← perform .subscriptions
  publishEach event entries
  perform .rUnlock

def closeEach : List ((_ : UInt64) × ℕ) → Program Unit
  | [] => pure ()
  | ⟨id, s⟩ :: rest => do
    close s
    perform (.delete id)
    closeEach rest

def shutdown : Program Unit := do
  perform .lock
  let entries ← perform .subscriptions
  closeEach entries
  perform .unlock

/-- The loop of a subscriber, cut off after any number of events. -/
def receiveEvents (s : ℕ) : ℕ → Program Unit
  | 0 => pure ()
  | rounds + 1 => do
    match ← perform (.receive s) with
    | none => pure ()
    | some _ => receiveEvents s rounds

def handleSubscribeSSE (pattern : GoString) (rounds : ℕ) : Program Unit := do
  let s ← subscribe (if pattern = [] then ascii "*" else pattern)
  receiveEvents s rounds
  close s

inductive Party where
  | publish (event : Event)
  | close (s : ℕ)
  | subscribe (pattern : GoString)
  | unsubscribe (id : UInt64)
  | shutdown
  | serve (pattern : GoString) (rounds : ℕ)

def Party.program : Party → Program Unit
  | .publish event => Pubsub.publish event
  | .close s => Pubsub.close s
  | .subscribe pattern => (fun _ => ()) <$> Pubsub.subscribe pattern
  | .unsubscribe id => Pubsub.unsubscribe id
  | .shutdown => Pubsub.shutdown
  | .serve pattern rounds => handleSubscribeSSE pattern rounds

/-! ## One step -/

structure Choice where
  now : ℤ
  order : List ((_ : UInt64) × ℕ)
  /-- The context of the request is done. -/
  done : Bool

section Semantics

-- `path.Match`, where a malformed pattern matches nothing.
variable (pathMatch : GoString → GoString → Bool)

def execCalm (b : Broker) : (op : Op) → Choice → Option (op.Answer × Broker)
  | .now, choice => some (choice.now, b)
  | .rLock, _ => b.mu.rLock.map fun mu => ((), { b with mu := mu })
  | .rUnlock, _ => some ((), { b with mu := b.mu.rUnlock })
  | .lock, _ => b.mu.lock.map fun mu => ((), { b with mu := mu })
  | .unlock, _ => some ((), { b with mu := b.mu.unlock })
  | .nextID, _ => some (b.nextID + 1, { b with nextID := b.nextID + 1 })
  | .newSubscription id pattern, _ =>
    some (b.heap.length, { b with
      heap := b.heap ++ [Pubsub.newSubscription id pattern defaultBufSize] })
  | .subscriptions, choice =>
    if choice.order.Perm b.subscriptions.entries then some (choice.order, b)
    else none
  | .lookup id, _ => some (b.subscriptions.lookup id, b)
  | .insert id s, _ =>
    some ((), { b with subscriptions := b.subscriptions.insert id s })
  | .delete id, _ =>
    some ((), { b with subscriptions := b.subscriptions.erase id })
  | .readClosed s, _ => b.heap[s]?.map fun sub => (sub.closed, b)
  | .setClosed s, _ => b.modify s Subscription.setClosed
  | .closeDone s, _ => b.modify s Subscription.closeDone
  | .closeCh s, _ => b.modify s Subscription.closeCh
  | .matchKey s key, _ =>
    b.heap[s]?.map fun sub => (pathMatch sub.pattern key, b)
  | .trySend s event, _ => b.modify s fun sub => sub.send event
  | .receive s, choice =>
    if choice.done then some (none, b)
    else
      b.heap[s]?.bind fun sub => sub.ch.receive.map fun r =>
        (r.1, b.put s { sub with ch := r.2 })

def exec (b : Broker) (op : Op) (choice : Choice) :
    Option (op.Answer × Broker) :=
  if b.panicked = none then execCalm pathMatch b op choice else none

def machine : Semantics signature Broker Choice Empty where
  exec := exec pathMatch
  env := fun _ event => nomatch event

end Semantics

end Pubsub

end CacheGrid
