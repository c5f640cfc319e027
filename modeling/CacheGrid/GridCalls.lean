import CacheGrid.Grid

/-!
# The calls of a cache

`distributed.go` routes a Set, a Get or a Delete by the mode of the cache;
`cache.go` checks the key and the shutdown flag, serializes, and tells the
broker.  Exists, Incr and Decr go to the owner of the key in every mode, TTL
to the cache's own store.

Calls that are issued one after the other run alone, along a timeline that
says when each access to a store takes place and what becomes of each RPC.
-/

namespace CacheGrid

open InterleavedPrograms SequentialRuns

inductive CacheError where
  | keyEmpty
  | shutdown
  | serializationFailed (cause : GoString)
  /-- An error of the store or the transport, as it is. -/
  | plain (text : GoString)
  deriving DecidableEq

def CacheError.text : CacheError → GoString
  | .keyEmpty => ascii "cachegrid: key must not be empty"
  | .shutdown => ascii "cachegrid: cache is shut down"
  | .serializationFailed cause =>
    ascii "cachegrid: serialization failed: " ++ cause
  | .plain text => text

namespace Grid

/-! ## `distributed.go` -/

def ownerAddr (c key : GoString) : Program GoString :=
  ownerAddrOver (perform (.ringGetNode c key)) (perform (.selfName c))
    fun name => perform (.stateGetNode c name)

/-- The loop over the live nodes, with a goroutine for each but the cache's
own. -/
def fanOut (c : GoString) (req : Transport.Request) :
    List NodeInfo → Program Unit
  | [] => pure ()
  | node :: rest => do
    let self ← perform (.selfName c)
    if node.name = self then fanOut c req rest
    else do
      perform (.goCall node.rpcAddr req)
      fanOut c req rest

def replicate (c : GoString) (req : Transport.Request) : Program Unit := do
  match ← perform (.liveNodes c) with
  | none => pure ()
  | some nodes => fanOut c req nodes

def distributedSet (c key : GoString) (data : Bytes) (ttl : Duration)
    (tags : List GoString) : Program (Option GoString) := do
  let config ← perform (.loadConfig c)
  match config.mode with
  | .replicated => do
    let _ ← perform (.store c (.set key data ttl))
    replicate c (setRequest key data ttl tags)
    pure none
  | .nearCache => do
    let _ ← perform (.store c (.set key data ttl))
    let addr ← ownerAddr c key
    if addr ≠ [] then remoteSet addr key data ttl tags
    else pure none
  | .partitioned => do
    let addr ← ownerAddr c key
    if addr ≠ [] then remoteSet addr key data ttl tags
    else do
      let _ ← perform (.store c (.set key data ttl))
      pure none

def distributedGet (c key : GoString) : Program (Option Bytes) := do
  let config ← perform (.loadConfig c)
  match config.mode with
  | .replicated => do
    let result ← perform (.store c (.get key))
    pure result.found
  | .nearCache => do
    let result ← perform (.store c (.get key))
    match result.found with
    | some data => pure (some data)
    | none => do
      let addr ← ownerAddr c key
      if addr ≠ [] then do
        match ← remoteGet addr key with
        | .ok (data, true) => do
          let config ← perform (.loadConfig c)
          let _ ← perform (.store c (.set key data config.defaultTTL))
          pure (some data)
        | _ => pure none
      else pure none
  | .partitioned => do
    let addr ← ownerAddr c key
    if addr ≠ [] then do
      match ← remoteGet addr key with
      | .ok (data, true) => pure (some data)
      | _ => pure none
    else do
      let result ← perform (.store c (.get key))
      pure result.found

def distributedDelete (c key : GoString) : Program Unit := do
  let config ← perform (.loadConfig c)
  match config.mode with
  | .replicated => do
    let _ ← perform (.store c (.delete key))
    replicate c (deleteRequest key)
  | .nearCache => do
    let _ ← perform (.store c (.delete key))
    let addr ← ownerAddr c key
    if addr ≠ [] then do
      let _ ← remoteDelete addr key
      pure ()
    else pure ()
  | .partitioned => do
    let addr ← ownerAddr c key
    if addr ≠ [] then do
      let _ ← remoteDelete addr key
      pure ()
    else do
      let _ ← perform (.store c (.delete key))
      pure ()

/-! ## `cache.go` -/

section Calls

variable {V D : Type} (z : Serializer V D)

def set (c key : GoString) (value : GoValue V) (ttl : Duration) :
    Program (Option CacheError) := do
  if key = [] then pure (some .keyEmpty)
  else if ← perform (.loadClosed c) then pure (some .shutdown)
  else
    match z.serialize value with
    | .error cause => pure (some (.serializationFailed cause))
    | .ok data => do
      let config ← perform (.loadConfig c)
      let ttl := if ttl = 0 then config.defaultTTL else ttl
      match ← distributedSet c key data ttl [] with
      | some error => pure (some (.plain error))
      | none => do
        perform (.broker c (.publish ⟨.set, key, data⟩))
        perform (.broker c (.fireSet key data))
        pure none

def get (c key : GoString) (dest : Dest D) :
    Program (Option (GoValue V)) := do
  if key = [] then pure none
  else if ← perform (.loadClosed c) then pure none
  else
    match ← distributedGet c key with
    | none => do
      perform (.broker c (.fireMiss key))
      pure none
    | some data =>
      match z.deserialize data dest with
      | .error _ => pure none
      | .ok value => do
        perform (.broker c (.fireHit key))
        pure (some value)

end Calls

def delete (c key : GoString) : Program Unit := do
  if key = [] then pure ()
  else if ← perform (.loadClosed c) then pure ()
  else do
    distributedDelete c key
    perform (.broker c (.publish ⟨.delete, key, []⟩))
    perform (.broker c (.fireDelete key))
    perform (.tagsRemove c key)

def «exists» (c key : GoString) : Program Bool := do
  if key = [] then pure false
  else if ← perform (.loadClosed c) then pure false
  else do
    let addr ← ownerAddr c key
    if addr ≠ [] then do
      match ← remoteExists addr key with
      | .ok ok => pure ok
      | .error _ => pure false
    else do
      let result ← perform (.store c (.exists key))
      pure result.ok

def ttl (c key : GoString) : Program Duration := do
  if key = [] then pure 0
  else if ← perform (.loadClosed c) then pure 0
  else do
    let result ← perform (.store c (.ttl key))
    pure result.ttl

def putValue (results : List (GoString × Bytes)) (key : GoString)
    (data : Bytes) : List (GoString × Bytes) :=
  results.filter (fun entry => entry.1 ≠ key) ++ [(key, data)]

def mgetLoop (c : GoString) (results : List (GoString × Bytes)) :
    List GoString → Program (List (GoString × Bytes))
  | [] => pure results
  | key :: keys => do
    if key = [] then mgetLoop c results keys
    else
      match ← distributedGet c key with
      | none => mgetLoop c results keys
      | some data => mgetLoop c (putValue results key data) keys

def mget (c : GoString) (keys : List GoString) :
    Program (List (GoString × Bytes)) := do
  if ← perform (.loadClosed c) then pure []
  else mgetLoop c [] keys

/-- The body that `Incr` and `Decr` share, `delta` being what is added. -/
def incrBy (c key : GoString) (delta : Int64) :
    Program (Except CacheError Int64) := do
  if key = [] then pure (.error .keyEmpty)
  else if ← perform (.loadClosed c) then pure (.error .shutdown)
  else do
    let addr ← ownerAddr c key
    if addr ≠ [] then do
      let result ← remoteIncr addr key delta
      pure (result.mapError .plain)
    else do
      let config ← perform (.loadConfig c)
      let result ← perform (.store c (.incr key delta config.defaultTTL))
      pure (result.count.mapError .plain)

def incr (c key : GoString) (delta : Int64) :
    Program (Except CacheError Int64) :=
  incrBy c key delta

def decr (c key : GoString) (delta : Int64) :
    Program (Except CacheError Int64) :=
  incrBy c key (-delta)

end Grid

/-! ## Calls issued one after the other -/

inductive CacheCall (V D : Type) where
  | set (key : GoString) (value : GoValue V) (ttl : Duration)
  | get (key : GoString) (dest : Dest D)
  | delete (key : GoString)
  | exists (key : GoString)
  | ttl (key : GoString)
  | mget (keys : List GoString)
  | incr (key : GoString) (delta : Int64)
  | decr (key : GoString) (delta : Int64)

inductive CacheReply (V : Type) where
  /-- `Set`: an error or nil. -/
  | stored (error : Option CacheError)
  /-- `Get`: the value in the destination on a hit. -/
  | got (value : Option (GoValue V))
  /-- `Delete` returns nothing. -/
  | done
  | present (ok : Bool)
  | remaining (ttl : Duration)
  | values (results : List (GoString × Bytes))
  | counter (result : Except CacheError Int64)
  deriving DecidableEq

def CacheCall.program {V D : Type} (z : Serializer V D) (c : GoString) :
    CacheCall V D → Grid.Program (CacheReply V)
  | .set key value lifetime =>
    CacheReply.stored <$> Grid.set z c key value lifetime
  | .get key dest => CacheReply.got <$> Grid.get z c key dest
  | .delete key => (fun _ => CacheReply.done) <$> Grid.delete c key
  | .exists key => CacheReply.present <$> Grid.exists c key
  | .ttl key => CacheReply.remaining <$> Grid.ttl c key
  | .mget keys => CacheReply.values <$> Grid.mget c keys
  | .incr key delta => CacheReply.counter <$> Grid.incr c key delta
  | .decr key delta => CacheReply.counter <$> Grid.decr c key delta

namespace Grid

/-- The accesses to stores take time; everything else only reads what does not
change during a call. -/
def Op.timed : Op → Bool
  | .store _ _ => true
  | .call _ _ => true
  | _ => false

/-- When the accesses of one call take place, one after the other. -/
structure Timeline where
  start : ℤ
  finish : ℤ
  choice : ℕ → Choice
  ordered : ∀ i, (choice i).clock.finish ≤ (choice (i + 1)).clock.start
  start_le : ∀ i, start ≤ (choice i).clock.start
  le_finish : ∀ i, (choice i).clock.finish ≤ finish

theorem instant_ordered (t : ℤ) (_ : ℕ) :
    (Readings.instant t).finish ≤ (Readings.instant t).start := le_rfl

/-- Everything happens at `t`, and every RPC is answered. -/
def Timeline.instant (t : ℤ) : Timeline where
  start := t
  finish := t
  choice := fun _ => ⟨.instant t, .answered, fun _ => 0⟩
  ordered := instant_ordered t
  start_le := instant_ordered t
  le_finish := instant_ordered t

def Timeline.Reliable (timeline : Timeline) : Prop :=
  ∀ i, (timeline.choice i).rpc = .answered

inductive Step (σ V D : Type) where
  | call (c : GoString) (call : CacheCall V D) (timeline : Timeline)
  | env (event : Env σ)

/-- A call runs from its beginning to its end; the environment does not
reply. -/
def step {σ V D : Type} (impl : StoreImpl σ) (z : Serializer V D)
    (g : Grid σ) : Step σ V D → Option (CacheReply V) × Grid σ
  | .call c call timeline =>
    match (call.program z c).alone (machine impl) Op.timed timeline.choice
        g with
    | none => (none, g)
    | some (reply, _, after) => (some reply, after)
  | .env event => (none, (envStep impl g event).getD g)

end Grid

end CacheGrid
