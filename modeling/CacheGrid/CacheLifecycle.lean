import CacheGrid.TagCalls
import CacheGrid.BulkWrites

/-!
# Shutdown

`Shutdown` and the parties that use the store of a cache on their own
schedule: the calls of clients, the sweeper, and the handlers of the
connections that the transport has accepted.  A client looks at the flag
first and uses the store later; the sweeper may take a tick when the cache is
already done; the handlers are not stopped at all.  Nobody waits for any of
them before the store is closed.

The other caches are outside: an RPC gets any answer, and a connection brings
any requests.  The loops of the sweeper and of a handler are cut off after any
number of rounds.
-/

namespace CacheGrid

open InterleavedPrograms

namespace Lifecycle

inductive Op where
  /-- A step of a call or of a handler, on the parts of the cache. -/
  | data (op : Grid.Op)
  /-- `store.Len` -/
  | len
  /-- The select of the sweeper: a tick, or done. -/
  | await
  | accept
  | decode
  | encode (resp : Transport.Response)
  /-- The methods of the handler that use the lock engine. -/
  | lock (req : Transport.Request)
  | casClosed
  | closeDone
  | hasMembership
  | leave
  | membershipShutdown
  | hasTransport
  | transportStop
  | lockEngineShutdown
  | brokerShutdown
  | storeClose

abbrev Op.Answer : Op → Type
  | .data op => op.Answer
  | .await => Bool
  | .decode => Option Transport.Request
  | .encode _ => Bool
  | .lock _ => Transport.Response
  | .casClosed => Bool
  | .hasMembership => Bool
  | .hasTransport => Bool
  | _ => Unit

abbrev signature : Signature := ⟨Op, Op.Answer⟩

abbrev Program (α : Type) := Prog signature α

abbrev perform (op : Op) : Program op.Answer :=
  Prog.perform (S := signature) op

/-! ## The parties -/

def startSweeper (c : GoString) : ℕ → Program Unit
  | 0 => pure ()
  | rounds + 1 => do
    if ← perform .await then
      let _ ← perform (.data (.store c .deleteExpired))
      startSweeper c rounds
    else pure ()

/-- The loop of HandleMGet. -/
def handleMGet (c : GoString) :
    List GoString → Program (List (GoString × Bytes))
  | [] => pure []
  | key :: keys => do
    let r ← perform (.data (.store c (.get key)))
    let rest ← handleMGet c keys
    match StoreResult.found r with
    | none => pure rest
    | some data =>
      if rest.any (·.1 = key) then pure rest
      else pure ((key, data) :: rest)

def handleIncr (c key : GoString) (delta : Int64) :
    Program Transport.Response := do
  let config ← perform (.data (.loadConfig c))
  let r ← perform (.data (.store c (.incr key delta config.defaultTTL)))
  match StoreResult.count r with
  | .ok value => pure { intVal := value, error := [] }
  | .error err => pure { intVal := 0, error := err }

def handleSet (c key : GoString) (value : Bytes) (ttl : Duration)
    (tags : List GoString) : Program Transport.Response := do
  let _ ← perform (.data (.store c (.set key value ttl)))
  if 0 < tags.length then
    perform (.data (.tagsAdd c key tags))
    pure { ok := true }
  else pure { ok := true }

def processRequest (c : GoString) (req : Transport.Request) :
    Program Transport.Response :=
  if req.op = Transport.opGet then do
    let r ← perform (.data (.store c (.get req.key)))
    pure { value := (StoreResult.found r).getD [],
           found := (StoreResult.found r).isSome }
  else if req.op = Transport.opSet then
    handleSet c req.key req.value req.ttl req.tags
  else if req.op = Transport.opDelete then do
    perform (.data (.tagsRemove c req.key))
    let r ← perform (.data (.store c (.delete req.key)))
    pure { ok := StoreResult.ok r }
  else if req.op = Transport.opExists then do
    let r ← perform (.data (.store c (.exists req.key)))
    pure { ok := StoreResult.ok r }
  else if req.op = Transport.opMGet then do
    let values ← handleMGet c req.keys
    pure { values := values }
  else if req.op = Transport.opIncr then handleIncr c req.key req.delta
  else if req.op = Transport.opLockAcquire ∨
      req.op = Transport.opLockRelease ∨ req.op = Transport.opLockExtend then
    perform (.lock req)
  else pure { error := ascii "unknown operation" }

def handleConn (c : GoString) : ℕ → Program Unit
  | 0 => pure ()
  | rounds + 1 => do
    match ← perform .decode with
    | none => pure ()
    | some req =>
      let resp ← processRequest c req
      if ← perform (.encode resp) then handleConn c rounds
      else pure ()

def connection (c : GoString) (rounds : ℕ) : Program Unit := do
  perform .accept
  handleConn c rounds

def shutdown : Program Unit := do
  if ← perform .casClosed then
    perform .closeDone
    if ← perform .hasMembership then
      perform .leave
      perform .membershipShutdown
    if ← perform .hasTransport then
      perform .transportStop
    perform .lockEngineShutdown
    perform .brokerShutdown
    perform .storeClose
  else pure ()

def ofGrid {α : Type} (program : Grid.Program α) : Program α :=
  program.embed Op.data fun _ answer => answer

theorem ofGrid_performs {α : Type} {program : Grid.Program α}
    {possible : (op : Op) → op.Answer → Prop} {allowed : Op → Prop}
    {post : α → Prop}
    (hperforms : program.Performs
      (fun op answer => possible (.data op) answer)
      (fun op => allowed (.data op)) post) :
    (ofGrid program).Performs possible allowed post := by
  unfold ofGrid
  refine Prog.Performs.embed hperforms (fun _ hop => hop) ?_
  exact fun _ _ hanswer => hanswer

inductive Party (V D : Type) where
  | client (call : CompoundCall V D)
  | mset (items : List (GoString × Item V))
  /-- `Len`, which does not look at the flag. -/
  | len
  | sweeper (rounds : ℕ)
  | connection (rounds : ℕ)
  | shutdown

def Party.program {V D : Type} (z : Serializer V D) (c : GoString) :
    Party V D → Program Unit
  | .client call => (fun _ => ()) <$> ofGrid (call.program z c)
  | .mset items => (fun _ => ()) <$> ofGrid (Grid.mset z c items)
  | .len => perform .len
  | .sweeper rounds => startSweeper c rounds
  | .connection rounds => Lifecycle.connection c rounds
  | .shutdown => Lifecycle.shutdown

/-! ## One step -/

structure State (σ : Type) where
  grid : Grid σ
  /-- `c.done` is closed. -/
  done : Bool
  membership : Bool
  transport : Bool
  /-- The listener of the transport is open. -/
  listening : Bool
  storeClosed : Bool

structure Choice where
  grid : Grid.Choice
  /-- What an RPC to another cache answers. -/
  reply : Except GoString Transport.Response
  tick : Bool
  /-- What a connection brings, if it does not end. -/
  request : Option Transport.Request
  sent : Bool

section Semantics

variable {σ : Type} (impl : StoreImpl σ) (c : GoString)

def exec (s : State σ) : (op : Op) → Choice → Option (op.Answer × State σ)
  | .data (.call _ _), choice => some (choice.reply, s)
  | .data op, choice =>
    (Grid.exec impl s.grid op choice.grid).map fun r =>
      (r.1, { s with grid := r.2 })
  | .len, _ => some ((), s)
  | .await, choice =>
    if choice.tick then some (true, s)
    else if s.done then some (false, s)
    else none
  | .accept, _ => if s.listening then some ((), s) else none
  | .decode, choice => some (choice.request, s)
  | .encode _, choice => some (choice.sent, s)
  | .lock req, choice =>
    (s.grid.onNode c (Transport.processRequest (CacheNode.handler impl
      choice.grid.clock choice.grid.random) req)).map fun r =>
        (r.1, { s with grid := r.2 })
  | .casClosed, _ =>
    (s.grid.onNode c fun n => (!n.closed, { n with closed := true })).map
      fun r => (r.1, { s with grid := r.2 })
  | .closeDone, _ => some ((), { s with done := true })
  | .hasMembership, _ => some (s.membership, s)
  | .leave, _ => some ((), s)
  | .membershipShutdown, _ => some ((), s)
  | .hasTransport, _ => some (s.transport, s)
  | .transportStop, _ => some ((), { s with listening := false })
  | .lockEngineShutdown, _ => some ((), s)
  | .brokerShutdown, _ => some ((), s)
  | .storeClose, _ => some ((), { s with storeClosed := true })

/-- In between, nodes come and go and callbacks run. -/
def envStep (s : State σ) : Grid.Env σ → Option (State σ)
  | .notify d event =>
    (Grid.envStep impl s.grid (.notify d event)).map fun g =>
      { s with grid := g }
  | .callback d i =>
    (Grid.envStep impl s.grid (.callback d i)).map fun g =>
      { s with grid := g }
  | _ => none

def machine : Semantics signature (State σ) Choice (Grid.Env σ) where
  exec := exec impl c
  env := envStep impl

end Semantics

/-! ## A handler on its own -/

section Handlers

variable {σ : Type} {impl : StoreImpl σ} {c : GoString} {s : State σ}
  {n : CacheNode σ} {choice : Choice}

def State.withNode (s : State σ) (c : GoString) (n : CacheNode σ) : State σ :=
  { s with grid := s.grid.setNode c n }

theorem State.withNode_self (hnode : s.grid.nodes c = some n) :
    s.withNode c n = s := by
  unfold State.withNode Grid.setNode
  rw [← hnode, Function.update_eq_self]

@[simp] theorem State.withNode_withNode (n n' : CacheNode σ) :
    (s.withNode c n).withNode c n' = s.withNode c n' := by
  simp [State.withNode, Grid.setNode]

theorem State.withNode_nodes (s : State σ) (c : GoString)
    (n : CacheNode σ) : (s.withNode c n).grid.nodes c = some n :=
  Function.update_self ..

theorem exec_onNode {op : Grid.Op} (hnode : s.grid.nodes c = some n)
    {method : CacheNode σ → op.Answer × CacheNode σ}
    (hop : exec impl c s (.data op) choice =
      (s.grid.onNode c method).map fun r => (r.1, { s with grid := r.2 })) :
    (machine impl c).exec s (.data op) choice =
      some ((method n).1, s.withNode c (method n).2) := by
  change exec impl c s (.data op) choice = _
  rw [hop, Grid.onNode_eq hnode, Option.map_some]
  rfl

theorem solo_store {α : Type} (hnode : s.grid.nodes c = some n)
    (op : StoreOp) (f : StoreResult → Program α) :
    (perform (.data (.store c op)) >>= f).solo (machine impl c) choice s =
      (f (n.runStore impl choice.grid.clock op).1).solo (machine impl c)
        choice (s.withNode c (n.runStore impl choice.grid.clock op).2) :=
  Prog.solo_perform_bind (exec_onNode hnode rfl)

theorem handleMGet_solo (hnode : s.grid.nodes c = some n)
    (keys : List GoString) :
    (handleMGet c keys).solo (machine impl c) choice s =
      some ((CacheNode.handleMGet impl choice.grid.clock keys n).1,
        s.withNode c
          (CacheNode.handleMGet impl choice.grid.clock keys n).2) := by
  induction keys generalizing s n with
  | nil =>
    rw [CacheNode.handleMGet, State.withNode_self hnode]
    rfl
  | cons key keys ih =>
    unfold handleMGet CacheNode.handleMGet
    rw [solo_store hnode, Prog.solo_bind_of_eq (ih (s.withNode_nodes c _)),
      State.withNode_withNode]
    simp only
    cases StoreResult.found
        (n.runStore impl choice.grid.clock (.get key)).1 with
    | none => rfl
    | some data =>
      simp only
      split
      · rfl
      · rfl

theorem handleIncr_solo (hnode : s.grid.nodes c = some n) (key : GoString)
    (delta : Int64) :
    (handleIncr c key delta).solo (machine impl c) choice s =
      let r := CacheNode.handleIncr impl choice.grid.clock key delta n
      some ({ intVal := r.1.1, error := r.1.2.getD [] },
        s.withNode c r.2) := by
  have hconfig : (machine impl c).exec s (.data (.loadConfig c)) choice =
      some (n.config, s) := by
    simp [machine, exec, Grid.exec, Grid.onNodeRead_eq hnode]
  unfold handleIncr CacheNode.handleIncr
  rw [Prog.solo_perform_bind hconfig, solo_store hnode]
  simp only
  cases StoreResult.count (n.runStore impl choice.grid.clock
      (.incr key delta n.config.defaultTTL)).1 with
  | ok value => rfl
  | error err => rfl

theorem handleSet_solo (hnode : s.grid.nodes c = some n) (key : GoString)
    (value : Bytes) (ttl : Duration) (tags : List GoString) :
    (handleSet c key value ttl tags).solo (machine impl c) choice s =
      some ({ ok := true }, s.withNode c
        (CacheNode.handleSet impl choice.grid.clock key value ttl tags n)) := by
  unfold handleSet CacheNode.handleSet
  rw [solo_store hnode]
  simp only
  split
  · rw [Prog.solo_perform_bind (exec_onNode (s.withNode_nodes c _) rfl),
      State.withNode_withNode]
    rfl
  · rfl

theorem processRequest_lock {req : Transport.Request}
    (hlock : req.op = Transport.opLockAcquire ∨
      req.op = Transport.opLockRelease ∨
      req.op = Transport.opLockExtend) :
    processRequest c req = perform (.lock req) := by
  unfold processRequest
  rw [if_neg, if_neg, if_neg, if_neg, if_neg, if_neg, if_pos hlock] <;>
  · rcases hlock with hop | hop | hop <;> rw [hop] <;> decide

/-- Nobody else around, the program of a handler is what the transport makes
of the request. -/
theorem processRequest_solo (hnode : s.grid.nodes c = some n)
    (req : Transport.Request) :
    (processRequest c req).solo (machine impl c) choice s =
      let r := Transport.processRequest (CacheNode.handler impl
        choice.grid.clock choice.grid.random) req n
      some (r.1, s.withNode c r.2) := by
  by_cases hlock : req.op = Transport.opLockAcquire ∨
      req.op = Transport.opLockRelease ∨ req.op = Transport.opLockExtend
  · rw [processRequest_lock hlock]
    simp [Prog.perform, Prog.solo, machine, exec, Grid.onNode_eq hnode,
      State.withNode]
  · have hnotLock := hlock
    rw [not_or, not_or] at hnotLock
    unfold processRequest Transport.processRequest
    simp only [if_neg hlock, if_neg hnotLock.1, if_neg hnotLock.2.1,
      if_neg hnotLock.2.2]
    split_ifs with hget hset hdelete hexists hmget hincr
    · rw [solo_store hnode]
      rfl
    · exact handleSet_solo hnode _ _ _ _
    · rw [Prog.solo_perform_bind (exec_onNode hnode rfl),
        solo_store (s.withNode_nodes c _), State.withNode_withNode]
      rfl
    · rw [solo_store hnode]
      rfl
    · rw [Prog.solo_bind_of_eq (handleMGet_solo hnode _)]
      rfl
    · exact handleIncr_solo hnode _ _
    · rw [State.withNode_self hnode]
      rfl

end Handlers

end Lifecycle

end CacheGrid
