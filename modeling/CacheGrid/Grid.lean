import CacheGrid.CacheNode

/-!
# A grid of caches

`distributed.go` and the data methods of `cache.go`, over all caches that run
at one time.  A cache is known by the address its transport listens on; a
cache that is not part of a cluster has the empty address, to which no call is
ever made.

A method is a program over its atomic steps: the flag and the configuration of
the cache, its ring and cluster state, calls on its store, its tag index and
its broker, and calls to other caches.  An RPC is served in one step.  A
goroutine that makes an RPC for nobody to wait for leaves a message behind,
which is delivered at any later time.
-/

namespace CacheGrid

open InterleavedPrograms

/-- `LiveNodes`; the order of the map is not determined, and nothing depends
on it. -/
def ClusterState.liveNodes (cs : ClusterState) : List NodeInfo :=
  (cs.nodes.entries.map fun entry => entry.2).filter
    fun node => node.status = .alive

structure Grid (σ : Type) where
  nodes : GoString → Option (CacheNode σ)
  /-- The calls of the goroutines that have been started, oldest first. -/
  messages : List (GoString × Transport.Request)

namespace Grid

/-! ## Operations -/

/-- The atomic steps of a method; `c` is the cache whose method is called. -/
inductive Op where
  | loadClosed (c : GoString)
  | loadConfig (c : GoString)
  | ringGetNode (c key : GoString)
  | selfName (c : GoString)
  | stateGetNode (c name : GoString)
  | liveNodes (c : GoString)
  | store (c : GoString) (op : StoreOp)
  | tagsRemove (c key : GoString)
  | tagsAdd (c key : GoString) (tags : List GoString)
  | tagsGetKeys (c tag : GoString)
  | broker (c : GoString) (call : BrokerCall)
  | call (addr : GoString) (req : Transport.Request)
  | goCall (addr : GoString) (req : Transport.Request)

/-- The ring and the cluster state are nil in local mode. -/
abbrev Op.Answer : Op → Type
  | .loadClosed _ => Bool
  | .loadConfig _ => CacheConfig
  | .ringGetNode _ _ => Option GoString
  | .selfName _ => GoString
  | .stateGetNode _ _ => Option NodeInfo
  | .liveNodes _ => Option (List NodeInfo)
  | .store _ _ => StoreResult
  | .tagsRemove _ _ => Unit
  | .tagsAdd _ _ _ => Unit
  | .tagsGetKeys _ _ => Finset GoString
  | .broker _ _ => Unit
  | .call _ _ => Except GoString Transport.Response
  | .goCall _ _ => Unit

abbrev signature : Signature := ⟨Op, Op.Answer⟩

abbrev Program (α : Type) := Prog signature α

abbrev perform (op : Op) : Program op.Answer :=
  Prog.perform (S := signature) op

inductive Fate where
  | answered
  | unanswered (error : GoString)
  | unsent (error : GoString)

structure Choice where
  clock : Readings
  rpc : Fate
  random : Fin 16 → UInt8

/-! ## One step -/

section Semantics

variable {σ : Type} {α : Type}

def setNode (g : Grid σ) (c : GoString) (n : CacheNode σ) : Grid σ :=
  { g with nodes := Function.update g.nodes c (some n) }

def onNode (g : Grid σ) (c : GoString)
    (method : CacheNode σ → α × CacheNode σ) : Option (α × Grid σ) :=
  match g.nodes c with
  | none => none
  | some n => some ((method n).1, g.setNode c (method n).2)

def onNodeRead (g : Grid σ) (c : GoString) (method : CacheNode σ → α) :
    Option (α × Grid σ) :=
  (g.nodes c).map fun n => (method n, g)

def listener (g : Grid σ) (addr : GoString) : Option (CacheNode σ) :=
  (g.nodes addr).filter fun n => !n.closed

def dialError (addr : GoString) : GoString :=
  ascii "transport: dial " ++ addr ++ ascii ": connection refused"

variable (impl : StoreImpl σ)

def serve (g : Grid σ) (choice : Choice) (addr : GoString)
    (n : CacheNode σ) (req : Transport.Request) :
    Transport.Response × Grid σ :=
  let r := Transport.processRequest
    (CacheNode.handler impl choice.clock choice.random) req n
  (r.1, g.setNode addr r.2)

def exec (g : Grid σ) : (op : Op) → Choice → Option (op.Answer × Grid σ)
  | .loadClosed c, _ => g.onNodeRead c fun n => n.closed
  | .loadConfig c, _ => g.onNodeRead c CacheNode.config
  | .ringGetNode c key, _ => g.onNodeRead c fun n =>
    n.topology.map fun topology => topology.ring.getNode key
  | .selfName c, _ => g.onNodeRead c fun n => n.selfName
  | .stateGetNode c name, _ => g.onNodeRead c fun n =>
    n.topology.bind fun topology => topology.state.getNode name
  | .liveNodes c, _ => g.onNodeRead c fun n =>
    n.topology.map fun topology => topology.state.liveNodes
  | .store c op, choice => g.onNode c (CacheNode.runStore impl choice.clock op)
  | .tagsRemove c key, _ => g.onNode c fun n =>
    ((), { n with tags := n.tags.remove key })
  | .tagsAdd c key tags, _ => g.onNode c fun n =>
    ((), { n with tags := n.tags.add key tags })
  | .tagsGetKeys c tag, _ => g.onNodeRead c fun n => n.tags.getKeysByTag tag
  | .broker c call, _ => g.onNode c fun n =>
    ((), { n with broker := n.broker ++ [call] })
  | .call addr req, choice =>
    match g.listener addr, choice.rpc with
    | none, _ => some (.error (dialError addr), g)
    | some _, .unsent error => some (.error error, g)
    | some n, .unanswered error =>
      some (.error error, (g.serve impl choice addr n req).2)
    | some n, .answered =>
      let r := g.serve impl choice addr n req
      some (Transport.checkResponse addr r.1, r.2)
  | .goCall addr req, _ =>
    some ((), { g with messages := g.messages ++ [(addr, req)] })

inductive Env (σ : Type) where
  /-- A cache starts, with the store it finds. -/
  | start (c : GoString) (n : CacheNode σ)
  | notify (c : GoString) (event : MemberEvent)
  | shutdown (c : GoString)
  /-- The sweeper of a cache. -/
  | sweep (c : GoString) (clock : Readings)
  /-- One of the pending callbacks of a cache. -/
  | callback (c : GoString) (i : ℕ)
  /-- A message arrives. -/
  | deliver (i : ℕ) (choice : Choice)

def modifyNode (g : Grid σ) (c : GoString)
    (change : CacheNode σ → CacheNode σ) : Option (Grid σ) :=
  (g.nodes c).map fun n => g.setNode c (change n)

/-- A message is delivered to the cache that listens at its address, if there
is one, and is gone in any case. -/
def deliver (g : Grid σ) (i : ℕ) (choice : Choice) : Option (Grid σ) :=
  match g.messages[i]? with
  | none => none
  | some (addr, req) =>
    let rest := { g with messages := g.messages.eraseIdx i }
    match g.listener addr with
    | none => some rest
    | some n => some (rest.serve impl choice addr n req).2

def envStep (g : Grid σ) : Env σ → Option (Grid σ)
  | .start c n => some (g.setNode c n)
  | .notify c event => g.modifyNode c fun n =>
    { n with topology := n.topology.map (·.notify event) }
  | .shutdown c => g.modifyNode c fun n => { n with closed := true }
  | .sweep c clock => g.modifyNode c fun n =>
    (n.runStore impl clock .deleteExpired).2
  | .callback c i => g.modifyNode c fun n =>
    match n.pending[i]? with
    | none => n
    | some callback =>
      { n with pending := n.pending.eraseIdx i }.runCallback callback
  | .deliver i choice => g.deliver impl i choice

def machine : Semantics signature (Grid σ) Choice (Env σ) where
  exec := exec impl
  env := envStep impl

end Semantics

/-! ## The client side of the transport -/

def getRequest (key : GoString) : Transport.Request :=
  { op := Transport.opGet, key := key }

def setRequest (key : GoString) (value : Bytes) (ttl : Duration)
    (tags : List GoString) : Transport.Request :=
  { op := Transport.opSet, key := key, value := value, ttl := ttl,
    tags := tags }

def deleteRequest (key : GoString) : Transport.Request :=
  { op := Transport.opDelete, key := key }

def existsRequest (key : GoString) : Transport.Request :=
  { op := Transport.opExists, key := key }

def incrRequest (key : GoString) (delta : Int64) : Transport.Request :=
  { op := Transport.opIncr, key := key, delta := delta }

def errorOf {α : Type} : Except GoString α → Option GoString
  | .error error => some error
  | .ok _ => none

def remoteGet (addr key : GoString) :
    Program (Except GoString (Bytes × Bool)) := do
  match ← perform (.call addr (getRequest key)) with
  | .error error => pure (.error error)
  | .ok resp => pure (.ok (resp.value, resp.found))

def remoteSet (addr key : GoString) (value : Bytes) (ttl : Duration)
    (tags : List GoString) : Program (Option GoString) :=
  errorOf <$> perform (.call addr (setRequest key value ttl tags))

def remoteDelete (addr key : GoString) : Program (Option GoString) :=
  errorOf <$> perform (.call addr (deleteRequest key))

def remoteExists (addr key : GoString) : Program (Except GoString Bool) := do
  match ← perform (.call addr (existsRequest key)) with
  | .error error => pure (.error error)
  | .ok resp => pure (.ok resp.ok)

def remoteIncr (addr key : GoString) (delta : Int64) :
    Program (Except GoString Int64) := do
  match ← perform (.call addr (incrRequest key delta)) with
  | .error error => pure (.error error)
  | .ok resp => pure (.ok resp.intVal)

end Grid

end CacheGrid
