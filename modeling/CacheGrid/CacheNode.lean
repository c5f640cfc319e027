import CacheGrid.ClusterLocks
import CacheGrid.Store
import CacheGrid.TagIndex
import CacheGrid.Transport

/-!
# A cache and its store

The part of a `Cache` that holds data: the configuration its routing depends
on, the store behind the `Store` interface, the tag index and the broker.  The
code is written against the interface, so the store is any type with a step
function.  A callback of the store runs some time after the call that fired
it; until then it is pending.

The methods of `LocalHandler` are what a cache does for its peers.
-/

namespace CacheGrid

open InterleavedPrograms

inductive Mode where
  | partitioned
  | replicated
  | nearCache
  deriving DecidableEq

structure CacheConfig where
  mode : Mode
  defaultTTL : Duration

/-! ## Serialization -/

/-- What `Set` accepts: `[]byte`, `int64`, or any other Go value. -/
inductive GoValue (V : Type) where
  | bytes (data : Bytes)
  | int64 (n : Int64)
  | other (value : V)
  deriving DecidableEq

/-- The kinds of destination of `Get`. -/
inductive Dest (D : Type) where
  | bytes
  | int64
  | other (dest : D)
  deriving DecidableEq

/-- The msgpack package, for the values other than `[]byte`. -/
structure Serializer (V D : Type) extends Msgpack where
  marshalOther : V → Except GoString Bytes
  unmarshalOther : D → Bytes → Except GoString V

namespace Serializer

variable {V D : Type}

def serialize (z : Serializer V D) : GoValue V → Except GoString Bytes
  | .bytes data => .ok data
  | .int64 n => z.marshal n
  | .other value => z.marshalOther value

def deserialize (z : Serializer V D) (data : Bytes) :
    Dest D → Except GoString (GoValue V)
  | .bytes => .ok (.bytes data)
  | .int64 => GoValue.int64 <$> z.unmarshal data
  | .other dest => GoValue.other <$> z.unmarshalOther dest data

/-- The serializer of a program that stores only `[]byte` and `int64`. -/
def basic : Serializer Empty Empty where
  toMsgpack := .int64
  marshalOther := (fun value => nomatch value)
  unmarshalOther := (fun dest => nomatch dest)

end Serializer

/-! ## Stores and brokers -/

/-- An implementation of the `Store` interface, with the callbacks each call
fires. -/
structure StoreImpl (σ : Type) where
  call : σ → Readings × StoreOp → (StoreResult × List Callback) × σ

namespace StoreResult

def found : StoreResult → Option Bytes
  | .value found => found
  | _ => none

def ok : StoreResult → Bool
  | .flag ok => ok
  | _ => false

def ttl : StoreResult → Duration
  | .remaining ttl => ttl
  | _ => 0

def count : StoreResult → Except GoString Int64
  | .counter result => result
  | _ => .ok 0

end StoreResult

inductive EventType where
  | set
  | delete
  | expire
  | evict
  deriving DecidableEq

/-- A `pubsub.Event`, without its time stamp. -/
structure CacheEvent where
  type : EventType
  key : GoString
  value : Bytes
  deriving DecidableEq

inductive BrokerCall where
  | publish (event : CacheEvent)
  | fireHit (key : GoString)
  | fireMiss (key : GoString)
  | fireEvict (key : GoString) (value : Bytes)
  | fireSet (key : GoString) (value : Bytes)
  | fireDelete (key : GoString)
  deriving DecidableEq

structure CacheNode (σ : Type) extends Cache where
  config : CacheConfig
  store : σ
  tags : TagIndex
  /-- The calls on the broker so far. -/
  broker : List BrokerCall
  /-- The callbacks of the store that have been fired and have not run. -/
  pending : List Callback

namespace CacheNode

variable {σ : Type}

def runStore (impl : StoreImpl σ) (clock : Readings) (op : StoreOp)
    (n : CacheNode σ) : StoreResult × CacheNode σ :=
  let r := impl.call n.store (clock, op)
  (r.1.1, { n with store := r.2, pending := n.pending ++ r.1.2 })

/-- The callbacks that `New` installs on the store. -/
def runCallback (n : CacheNode σ) : Callback → CacheNode σ
  | .evict key value => { n with
      broker := n.broker ++
        [.publish ⟨.evict, key, value⟩, .fireEvict key value]
      tags := n.tags.remove key }
  | .expire key value => { n with
      broker := n.broker ++ [.publish ⟨.expire, key, value⟩]
      tags := n.tags.remove key }

/-! ## The methods of `LocalHandler` -/

section Handlers

variable (impl : StoreImpl σ) (clock : Readings)

def handleGet (key : GoString) (n : CacheNode σ) :
    (Bytes × Bool) × CacheNode σ :=
  let r := n.runStore impl clock (.get key)
  ((r.1.found.getD [], r.1.found.isSome), r.2)

def handleSet (key : GoString) (value : Bytes) (ttl : Duration)
    (tags : List GoString) (n : CacheNode σ) : CacheNode σ :=
  let r := n.runStore impl clock (.set key value ttl)
  if 0 < tags.length then { r.2 with tags := r.2.tags.add key tags }
  else r.2

def handleDelete (key : GoString) (n : CacheNode σ) : Bool × CacheNode σ :=
  let r := { n with tags := n.tags.remove key }.runStore impl clock
    (.delete key)
  (r.1.ok, r.2)

def handleExists (key : GoString) (n : CacheNode σ) : Bool × CacheNode σ :=
  let r := n.runStore impl clock (.exists key)
  (r.1.ok, r.2)

/-- The loop of `HandleMGet`; the results are a map. -/
def handleMGet : List GoString → CacheNode σ →
    List (GoString × Bytes) × CacheNode σ
  | [], n => ([], n)
  | key :: keys, n =>
    let r := n.runStore impl clock (.get key)
    let rest := handleMGet keys r.2
    match r.1.found with
    | none => rest
    | some data =>
      if rest.1.any (·.1 = key) then rest
      else ((key, data) :: rest.1, rest.2)

def handleIncr (key : GoString) (delta : Int64) (n : CacheNode σ) :
    (Int64 × Option GoString) × CacheNode σ :=
  let r := n.runStore impl clock (.incr key delta n.config.defaultTTL)
  match r.1.count with
  | .ok value => ((value, none), r.2)
  | .error err => ((0, some err), r.2)

def handleLockAcquire (random : Fin 16 → UInt8) (key : GoString)
    (ttl : Duration) (n : CacheNode σ) :
    (GoString × UInt64 × Bool) × CacheNode σ :=
  let r := n.lockEngine.acquire clock key ttl n.selfName random
  match r.1 with
  | none => (([], 0, false), { n with lockEngine := r.2 })
  | some granted =>
    ((granted.1, granted.2, true), { n with lockEngine := r.2 })

def handleLockRelease (key token : GoString) (n : CacheNode σ) :
    Bool × CacheNode σ :=
  let r := n.toCache.handleLockRelease key token
  (r.1, { n with toCache := r.2 })

def handleLockExtend (key token : GoString) (ttl : Duration)
    (n : CacheNode σ) : Bool × CacheNode σ :=
  let r := n.toCache.handleLockExtend clock key token ttl
  (r.1, { n with toCache := r.2 })

def handler (random : Fin 16 → UInt8) :
    Transport.LocalHandler (CacheNode σ) where
  handleGet := handleGet impl clock
  handleSet := handleSet impl clock
  handleDelete := handleDelete impl clock
  handleExists := handleExists impl clock
  handleMGet := handleMGet impl clock
  handleIncr := handleIncr impl clock
  handleLockAcquire := handleLockAcquire clock random
  handleLockRelease := handleLockRelease
  handleLockExtend := handleLockExtend clock

end Handlers

end CacheNode

end CacheGrid
