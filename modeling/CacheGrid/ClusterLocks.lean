import CacheGrid.HashRing
import CacheGrid.InterleavedPrograms
import CacheGrid.LockEngine

/-!
# Locks in a cluster

`lock.go` over a set of running caches.  A call to Lock looks up the owner of
the key in the ring of its own cache and acquires the lock there, in the local
engine or through an RPC; it retries as long as the lock is taken.  Membership
events reach every cache on their own, and a cache that is restarted starts
with a new engine.

What a call does not determine is a choice: its clock readings, the random
bytes of a token, and the fate of an RPC, which may not arrive, be served
without an answer, or be served and answered.
-/

namespace CacheGrid

open InterleavedPrograms

inductive NodeStatus where
  | alive
  | suspect
  | dead
  | left
  deriving DecidableEq

structure NodeInfo where
  name : GoString
  rpcAddr : GoString
  status : NodeStatus
  deriving DecidableEq

structure ClusterState where
  nodes : AList fun _ : GoString => NodeInfo
  self : GoString

namespace ClusterState

def new (selfName : GoString) : ClusterState := ⟨∅, selfName⟩

def addNode (cs : ClusterState) (info : NodeInfo) : ClusterState :=
  { cs with nodes := cs.nodes.insert info.name info }

def updateStatus (cs : ClusterState) (name : GoString)
    (status : NodeStatus) : ClusterState :=
  match cs.nodes.lookup name with
  | none => cs
  | some node =>
    { cs with nodes := cs.nodes.insert name ⟨node.name, node.rpcAddr, status⟩ }

def getNode (cs : ClusterState) (name : GoString) : Option NodeInfo :=
  cs.nodes.lookup name

end ClusterState

/-- `ring` and `state`: the fields of a cache that are nil in local mode. -/
structure Topology where
  ring : Ring
  state : ClusterState

inductive MemberEvent where
  | join (name rpcAddr : GoString)
  | leave (name : GoString)
  | update (name rpcAddr : GoString)

namespace Topology

def notify (t : Topology) : MemberEvent → Topology
  | .join name rpcAddr => {
      state := t.state.addNode ⟨name, rpcAddr, .alive⟩
      ring := t.ring.addNode name }
  | .leave name => {
      state := t.state.updateStatus name .left
      ring := t.ring.removeNode name }
  | .update name rpcAddr =>
    { t with state := t.state.addNode ⟨name, rpcAddr, .alive⟩ }

/-- What `New` and `NewMembership` leave behind. -/
def new (vnodes : ℤ) (name rpcAddr : GoString) : Topology where
  state := (ClusterState.new name).addNode ⟨name, rpcAddr, .alive⟩
  ring := (Ring.new vnodes).addNode name

end Topology

/-- `ownerAddr`, over the three reads that it makes: of the ring (`none` in
local mode), of the cache's own name and of the cluster state. -/
def ownerAddrOver {S : Signature} (ringGetNode : Prog S (Option GoString))
    (selfName : Prog S GoString)
    (stateGetNode : GoString → Prog S (Option NodeInfo)) :
    Prog S GoString := do
  match ← ringGetNode with
  | none => pure []
  | some owner =>
    if owner = [] then pure []
    else do
      let self ← selfName
      if owner = self then pure []
      else do
        match ← stateGetNode owner with
        | none => pure []
        | some node => pure node.rpcAddr

theorem ownerAddrOver_performs {S : Signature}
    {consistent : (op : S.Op) → S.Answer op → Prop} {allowed : S.Op → Prop}
    {ringGetNode : Prog S (Option GoString)} {selfName : Prog S GoString}
    {stateGetNode : GoString → Prog S (Option NodeInfo)}
    (hring : ringGetNode.Performs consistent allowed fun _ => True)
    (hself : selfName.Performs consistent allowed fun _ => True)
    (hstate : ∀ name, (stateGetNode name).Performs consistent allowed
      fun _ => True) :
    (ownerAddrOver ringGetNode selfName stateGetNode).Performs consistent
      allowed fun _ => True := by
  refine hring.bind fun owner _ => ?_
  cases owner with
  | none => trivial
  | some owner =>
    dsimp only
    split
    · trivial
    · refine hself.bind fun self _ => ?_
      split
      · trivial
      · refine (hstate owner).bind fun node _ => ?_
        cases node with
        | none => trivial
        | some node => trivial

structure Cache where
  topology : Option Topology
  /-- Where the RPC transport listens. -/
  rpcAddr : GoString
  closed : Bool
  lockEngine : Lock.Engine

/-- `c.state.SelfName()`, the empty string in local mode. -/
def Cache.selfName (c : Cache) : GoString :=
  match c.topology with
  | none => []
  | some topology => topology.state.self

def Cache.new (vnodes : ℤ) (name rpcAddr : GoString) : Cache where
  topology := some (.new vnodes name rpcAddr)
  rpcAddr := rpcAddr
  closed := false
  lockEngine := .new

def Cache.newLocal : Cache where
  topology := none
  rpcAddr := []
  closed := false
  lockEngine := .new

def Cache.handleLockRelease (key token : GoString) (c : Cache) :
    Bool × Cache :=
  let r := c.lockEngine.release key token
  (r.1, { c with lockEngine := r.2 })

def Cache.handleLockExtend (clock : Readings) (key token : GoString)
    (ttl : Duration) (c : Cache) : Bool × Cache :=
  let r := c.lockEngine.extend clock key token ttl
  (r.1, { c with lockEngine := r.2 })

/-- A granted lock: its key, the cache whose engine granted it, and its
fencing token. -/
structure Grant where
  key : GoString
  server : ℕ
  fencing : UInt64
  deriving DecidableEq

/-- All caches ever started, by number.  `grants` is a history variable that
no operation reads. -/
structure Cluster where
  caches : List Cache
  grants : List Grant

namespace Cluster

def empty : Cluster := ⟨[], []⟩

/-! ## Operations -/

/-- The atomic operations of a call; the number is that of the cache whose
method is called. -/
inductive Op where
  | loadClosed (c : ℕ)
  | ringGetNode (c : ℕ) (key : GoString)
  | selfName (c : ℕ)
  | stateGetNode (c : ℕ) (name : GoString)
  | engineAcquire (c : ℕ) (key : GoString) (ttl : Duration)
      (owner : GoString)
  | engineRelease (c : ℕ) (key token : GoString)
  | engineExtend (c : ℕ) (key token : GoString) (ttl : Duration)
  | remoteLockAcquire (addr key : GoString) (ttl : Duration)
  | remoteLockRelease (addr key token : GoString)
  | remoteLockExtend (addr key token : GoString) (ttl : Duration)
  | sleep (delay : Duration)

abbrev Op.Answer : Op → Type
  | .loadClosed _ => Bool
  | .ringGetNode _ _ => Option GoString
  | .selfName _ => GoString
  | .stateGetNode _ _ => Option NodeInfo
  | .engineAcquire _ _ _ _ => Option (GoString × UInt64)
  | .engineRelease _ _ _ => Bool
  | .engineExtend _ _ _ _ => Bool
  | .remoteLockAcquire _ _ _ => Except GoString (Option (GoString × UInt64))
  | .remoteLockRelease _ _ _ => Except GoString Bool
  | .remoteLockExtend _ _ _ _ => Except GoString Bool
  | .sleep _ => Unit

abbrev signature : Signature := ⟨Op, Op.Answer⟩

abbrev Program (α : Type) := Prog signature α

abbrev perform (op : Op) : Program op.Answer :=
  Prog.perform (S := signature) op

inductive RpcOutcome where
  | answered (server : ℕ)
  | unanswered (server : ℕ) (error : GoString)
  | unsent (error : GoString)

structure Choice where
  clock : Readings
  random : Fin 16 → UInt8
  rpc : RpcOutcome

def onCache {α : Type} (s : Cluster) (c : ℕ) (method : Cache → α × Cache) :
    Option (α × Cluster) :=
  match s.caches[c]? with
  | none => none
  | some cache =>
    let r := method cache
    some (r.1, { s with caches := s.caches.set c r.2 })

def onCacheRead {α : Type} (s : Cluster) (c : ℕ) (method : Cache → α) :
    Option (α × Cluster) :=
  (s.caches[c]?).map fun cache => (method cache, s)

def acquireAt (s : Cluster) (c : ℕ) (choice : Choice) (key : GoString)
    (ttl : Duration) (owner : Cache → GoString) :
    Option (Option (GoString × UInt64) × Cluster) :=
  match s.caches[c]? with
  | none => none
  | some cache =>
    let r := cache.lockEngine.acquire choice.clock key ttl (owner cache)
      choice.random
    some (r.1, {
      caches := s.caches.set c { cache with lockEngine := r.2 }
      grants := s.grants ++ r.1.toList.map fun granted =>
        ⟨key, c, granted.2⟩ })

/-- An RPC to `addr`: it can only be served by a cache that listens there. -/
def remoteCall {α : Type} (s : Cluster) (choice : Choice) (addr : GoString)
    (serve : ℕ → Option (α × Cluster)) :
    Option (Except GoString α × Cluster) :=
  match choice.rpc with
  | .unsent error => some (.error error, s)
  | .answered server =>
    if (s.caches[server]?).map Cache.rpcAddr = some addr then
      (serve server).map fun r => (.ok r.1, r.2)
    else none
  | .unanswered server error =>
    if (s.caches[server]?).map Cache.rpcAddr = some addr then
      (serve server).map fun r => (.error error, r.2)
    else none

def exec (s : Cluster) :
    (op : Op) → Choice → Option (op.Answer × Cluster)
  | .loadClosed c, _ => s.onCacheRead c Cache.closed
  | .ringGetNode c key, _ => s.onCacheRead c fun cache =>
    cache.topology.map fun topology => topology.ring.getNode key
  | .selfName c, _ => s.onCacheRead c Cache.selfName
  | .stateGetNode c name, _ => s.onCacheRead c fun cache =>
    cache.topology.bind fun topology => topology.state.getNode name
  | .engineAcquire c key ttl owner, choice =>
    s.acquireAt c choice key ttl fun _ => owner
  | .engineRelease c key token, _ =>
    s.onCache c (Cache.handleLockRelease key token)
  | .engineExtend c key token ttl, choice =>
    s.onCache c (Cache.handleLockExtend choice.clock key token ttl)
  | .remoteLockAcquire addr key ttl, choice =>
    s.remoteCall choice addr fun server =>
      s.acquireAt server choice key ttl Cache.selfName
  | .remoteLockRelease addr key token, choice =>
    s.remoteCall choice addr fun server =>
      s.onCache server (Cache.handleLockRelease key token)
  | .remoteLockExtend addr key token ttl, choice =>
    s.remoteCall choice addr fun server =>
      s.onCache server (Cache.handleLockExtend choice.clock key token ttl)
  | .sleep _, _ => some ((), s)

/-! ## The environment -/

inductive Env where
  | start (vnodes : ℤ) (name rpcAddr : GoString)
  | notify (c : ℕ) (event : MemberEvent)
  | shutdown (c : ℕ)
  | cleanup (c : ℕ) (clock : Readings) (visit : GoString → ℕ)

def modifyCache (s : Cluster) (c : ℕ) (change : Cache → Cache) :
    Option Cluster :=
  (s.onCache c fun cache => ((), change cache)).map Prod.snd

def envStep (s : Cluster) : Env → Option Cluster
  | .start vnodes name rpcAddr =>
    some { s with caches := s.caches ++ [.new vnodes name rpcAddr] }
  | .notify c event => s.modifyCache c fun cache =>
    { cache with topology := cache.topology.map (·.notify event) }
  | .shutdown c => s.modifyCache c fun cache => { cache with closed := true }
  | .cleanup c clock visit => s.modifyCache c fun cache =>
    { cache with lockEngine := cache.lockEngine.cleanup clock visit }

def machine : Semantics signature Cluster Choice Env where
  exec := exec
  env := envStep

variable {s after : Cluster} {c : ℕ}

theorem onCacheRead_same {α : Type} {method : Cache → α} {answer : α}
    (hexec : s.onCacheRead c method = some (answer, after)) : after = s := by
  simp only [onCacheRead, Option.map_eq_some_iff] at hexec
  obtain ⟨_, _, heq⟩ := hexec
  exact (Prod.mk.inj heq).2.symm

theorem remoteCall_cases {α : Type} {choice : Choice} {addr : GoString}
    {serve : ℕ → Option (α × Cluster)} {answer : Except GoString α}
    (hexec : s.remoteCall choice addr serve = some (answer, after)) :
    ((∃ text, answer = .error text) ∧ after = s) ∨
      ∃ server result, serve server = some (result, after) ∧
        (answer = .ok result ∨ ∃ text, answer = .error text) ∧
        (choice.rpc = .answered server ∨
          ∃ text, choice.rpc = .unanswered server text) := by
  unfold remoteCall at hexec
  cases hrpc : choice.rpc with
  | unsent text =>
    simp only [hrpc, Option.some.injEq, Prod.mk.injEq] at hexec
    exact Or.inl ⟨⟨text, hexec.1.symm⟩, hexec.2.symm⟩
  | answered server =>
    simp only [hrpc] at hexec
    split at hexec
    · simp only [Option.map_eq_some_iff, Prod.mk.injEq] at hexec
      obtain ⟨⟨result, final⟩, hserve, hanswer, rfl⟩ := hexec
      exact Or.inr ⟨server, result, hserve, Or.inl hanswer.symm,
        Or.inl rfl⟩
    · contradiction
  | unanswered server text =>
    simp only [hrpc] at hexec
    split at hexec
    · simp only [Option.map_eq_some_iff, Prod.mk.injEq] at hexec
      obtain ⟨⟨result, final⟩, hserve, hanswer, rfl⟩ := hexec
      exact Or.inr ⟨server, result, hserve, Or.inr ⟨text, hanswer.symm⟩,
        Or.inr ⟨text, rfl⟩⟩
    · contradiction

/-! ## What a step can do -/

/-- The key an operation tries to acquire and the cache that serves it. -/
def Op.acquires (choice : Choice) : Op → Option (GoString × ℕ)
  | .engineAcquire c key _ _ => some (key, c)
  | .remoteLockAcquire _ key _ =>
    match choice.rpc with
    | .answered server => some (key, server)
    | .unanswered server _ => some (key, server)
    | .unsent _ => none
  | _ => none

def Op.granted : (op : Op) → op.Answer → Option (GoString × UInt64)
  | .engineAcquire _ key _ _, some granted => some (key, granted.2)
  | .remoteLockAcquire _ key _, .ok (some granted) => some (key, granted.2)
  | _, _ => none

def newGrants (c : ℕ) (call : Readings × Lock.Op) (result : Lock.Result) :
    List Grant :=
  match call.2, result with
  | .acquire key _ _ _, .acquired (some granted) => [⟨key, c, granted.2⟩]
  | _, _ => []

theorem newGrants_eq_nil {call : Readings × Lock.Op} {result : Lock.Result}
    (hnone : ∀ granted, result ≠ .acquired (some granted)) :
    newGrants c call result = [] := by
  unfold newGrants
  split
  · next granted _ => exact absurd rfl (hnone granted)
  · rfl

def runEngine (s : Cluster) (c : ℕ) (cache : Cache)
    (call : Readings × Lock.Op) : Cluster where
  caches := s.caches.set c
    { cache with lockEngine := (cache.lockEngine.step call).2 }
  grants := s.grants ++ newGrants c call (cache.lockEngine.step call).1

theorem acquireAt_eq {choice : Choice} {key : GoString} {ttl : Duration}
    {owner : Cache → GoString} {answer : Option (GoString × UInt64)}
    (hexec : s.acquireAt c choice key ttl owner = some (answer, after)) :
    ∃ cache, s.caches[c]? = some cache ∧
      after = s.runEngine c cache
        (choice.clock, .acquire key ttl (owner cache) choice.random) ∧
      (cache.lockEngine.step
        (choice.clock, .acquire key ttl (owner cache) choice.random)).1 =
        .acquired answer := by
  unfold acquireAt at hexec
  cases hcache : s.caches[c]? with
  | none => simp [hcache] at hexec
  | some cache =>
    simp only [hcache, Option.some.injEq, Prod.mk.injEq] at hexec
    obtain ⟨rfl, rfl⟩ := hexec
    refine ⟨cache, rfl, ?_, rfl⟩
    simp only [runEngine, Lock.Engine.step, newGrants, mk.injEq, true_and]
    cases (cache.lockEngine.acquire choice.clock key ttl (owner cache)
      choice.random).1 <;> rfl

theorem onCache_eq {α : Type} {method : Cache → α × Cache} {answer : α}
    (hexec : s.onCache c method = some (answer, after)) :
    ∃ cache, s.caches[c]? = some cache ∧ answer = (method cache).1 ∧
      after = { s with caches := s.caches.set c (method cache).2 } := by
  unfold onCache at hexec
  cases hcache : s.caches[c]? with
  | none => simp [hcache] at hexec
  | some cache =>
    simp only [hcache, Option.some.injEq, Prod.mk.injEq] at hexec
    exact ⟨cache, rfl, hexec.1.symm, hexec.2.symm⟩

theorem onCache_runEngine {method : Cache → Bool × Cache} {answer : Bool}
    (call : Readings × Lock.Op)
    (hmethod : ∀ cache, (method cache).2 =
      { cache with lockEngine := (cache.lockEngine.step call).2 })
    (hcall : ∀ key ttl owner random, call.2 ≠ .acquire key ttl owner random)
    (hexec : s.onCache c method = some (answer, after)) :
    ∃ cache, s.caches[c]? = some cache ∧ after = s.runEngine c cache call := by
  obtain ⟨cache, hcache, _, rfl⟩ := onCache_eq hexec
  refine ⟨cache, hcache, ?_⟩
  have hnone : newGrants c call (cache.lockEngine.step call).1 = [] := by
    unfold newGrants
    split
    · next hacquire _ => exact absurd hacquire (hcall _ _ _ _)
    · rfl
  rw [runEngine, hnone, List.append_nil, hmethod]

/-- An operation changes nothing, or one cache executes a call on its engine.
An Acquire is told to the caller as the engine answered it. -/
theorem exec_cases {op : Op} {choice : Choice} {answer : op.Answer}
    (hexec : s.exec op choice = some (answer, after)) :
    op.granted answer = none ∧ after = s ∨
      ∃ c cache call, s.caches[c]? = some cache ∧
        after = s.runEngine c cache call ∧
        (∀ key ttl owner random, call.2 = .acquire key ttl owner random →
          op.acquires choice = some (key, c)) ∧
        ∀ told, op.granted answer = some told →
          ∃ ttl owner random token,
            call.2 = .acquire told.1 ttl owner random ∧
            (cache.lockEngine.step call).1 =
              .acquired (some (token, told.2)) := by
  cases op with
  | loadClosed c => exact Or.inl ⟨rfl, onCacheRead_same hexec⟩
  | ringGetNode c key => exact Or.inl ⟨rfl, onCacheRead_same hexec⟩
  | selfName c => exact Or.inl ⟨rfl, onCacheRead_same hexec⟩
  | stateGetNode c name => exact Or.inl ⟨rfl, onCacheRead_same hexec⟩
  | sleep delay =>
    cases hexec
    exact Or.inl ⟨rfl, rfl⟩
  | engineAcquire c key ttl owner =>
    obtain ⟨cache, hcache, rfl, hresult⟩ := acquireAt_eq hexec
    refine Or.inr ⟨c, cache, _, hcache, rfl, ?_, ?_⟩
    · rintro _ _ _ _ ⟨⟩
      rfl
    · intro told htold
      cases answer with
      | none => contradiction
      | some granted =>
        cases htold
        exact ⟨ttl, owner, choice.random, granted.1, rfl, hresult⟩
  | engineRelease c key token =>
    obtain ⟨cache, hcache, rfl⟩ := onCache_runEngine
      (choice.clock, .release key token) (fun _ => rfl) (by simp) hexec
    exact Or.inr ⟨c, cache, _, hcache, rfl, by simp, by simp [Op.granted]⟩
  | engineExtend c key token ttl =>
    obtain ⟨cache, hcache, rfl⟩ := onCache_runEngine
      (choice.clock, .extend key token ttl) (fun _ => rfl) (by simp) hexec
    exact Or.inr ⟨c, cache, _, hcache, rfl, by simp, by simp [Op.granted]⟩
  | remoteLockAcquire addr key ttl =>
    rcases remoteCall_cases hexec with ⟨⟨text, rfl⟩, rfl⟩ |
      ⟨server, result, hserve, hanswer, hrpc⟩
    · exact Or.inl ⟨rfl, rfl⟩
    · obtain ⟨cache, hcache, rfl, hresult⟩ := acquireAt_eq hserve
      refine Or.inr ⟨server, cache, _, hcache, rfl, ?_, ?_⟩
      · rintro _ _ _ _ ⟨⟩
        rcases hrpc with hrpc | ⟨text, hrpc⟩ <;> simp [Op.acquires, hrpc]
      · intro told htold
        rcases hanswer with rfl | ⟨text, rfl⟩
        · cases result with
          | none => contradiction
          | some granted =>
            cases htold
            exact ⟨ttl, _, choice.random, granted.1, rfl, hresult⟩
        · contradiction
  | remoteLockRelease addr key token =>
    rcases remoteCall_cases hexec with ⟨_, rfl⟩ | ⟨server, _, hserve, _⟩
    · exact Or.inl ⟨rfl, rfl⟩
    · obtain ⟨cache, hcache, rfl⟩ := onCache_runEngine
        (choice.clock, .release key token) (fun _ => rfl) (by simp) hserve
      exact Or.inr ⟨server, cache, _, hcache, rfl, by simp,
        by simp [Op.granted]⟩
  | remoteLockExtend addr key token ttl =>
    rcases remoteCall_cases hexec with ⟨_, rfl⟩ | ⟨server, _, hserve, _⟩
    · exact Or.inl ⟨rfl, rfl⟩
    · obtain ⟨cache, hcache, rfl⟩ := onCache_runEngine
        (choice.clock, .extend key token ttl) (fun _ => rfl) (by simp) hserve
      exact Or.inr ⟨server, cache, _, hcache, rfl, by simp,
        by simp [Op.granted]⟩

/-- The environment starts a cache with a new engine, changes a cache but not
its engine, or runs a cleanup pass. -/
theorem envStep_cases {event : Env} (hstep : s.envStep event = some after) :
    (∃ fresh, after = { s with caches := s.caches ++ [fresh] } ∧
        fresh.lockEngine = .new) ∨
      (∃ c cache changed, s.caches[c]? = some cache ∧
        after = { s with caches := s.caches.set c changed } ∧
        changed.lockEngine = cache.lockEngine) ∨
      ∃ c cache clock visit, s.caches[c]? = some cache ∧
        after = s.runEngine c cache (clock, .cleanup visit) := by
  have hmodify : ∀ {c : ℕ} {change : Cache → Cache},
      s.modifyCache c change = some after →
      ∃ cache, s.caches[c]? = some cache ∧
        after = { s with caches := s.caches.set c (change cache) } := by
    intro c change hmodified
    simp only [modifyCache, Option.map_eq_some_iff] at hmodified
    obtain ⟨⟨_, _⟩, honCache, rfl⟩ := hmodified
    obtain ⟨cache, hcache, _, hafter⟩ := onCache_eq honCache
    exact ⟨cache, hcache, hafter⟩
  cases event with
  | start vnodes name rpcAddr =>
    cases hstep
    exact Or.inl ⟨_, rfl, rfl⟩
  | notify c event =>
    obtain ⟨cache, hcache, rfl⟩ := hmodify hstep
    exact Or.inr (Or.inl ⟨c, cache, _, hcache, rfl, rfl⟩)
  | shutdown c =>
    obtain ⟨cache, hcache, rfl⟩ := hmodify hstep
    exact Or.inr (Or.inl ⟨c, cache, _, hcache, rfl, rfl⟩)
  | cleanup c clock visit =>
    obtain ⟨cache, hcache, rfl⟩ := hmodify hstep
    refine Or.inr (Or.inr ⟨c, cache, clock, visit, hcache, ?_⟩)
    simp [runEngine, newGrants, Lock.Engine.step]

end Cluster

/-! ## The calls -/

inductive LockError where
  | keyEmpty
  | shutdown
  | lockNotAcquired
  | lockNotHeld
  | transport (text : GoString)
  deriving DecidableEq

def LockError.text : LockError → GoString
  | .keyEmpty => ascii "cachegrid: key must not be empty"
  | .shutdown => ascii "cachegrid: cache is shut down"
  | .lockNotAcquired => ascii "cachegrid: lock could not be acquired"
  | .lockNotHeld => ascii "cachegrid: lock not held or expired"
  | .transport text => text

structure LockOptions where
  ttl : Duration
  retryCount : ℤ
  retryDelay : Duration

structure LockHandle where
  cache : ℕ
  key : GoString
  token : GoString
  fencingToken : UInt64
  /-- The empty string if the lock is local. -/
  ownerAddr : GoString
  deriving DecidableEq

def LockHandle.Token (h : LockHandle) : UInt64 := h.fencingToken

def lockKeyOf (key : GoString) : GoString := ascii "__lock:" ++ key

namespace Cluster

def ownerAddr (c : ℕ) (key : GoString) : Program GoString :=
  ownerAddrOver (perform (.ringGetNode c key)) (perform (.selfName c))
    fun name => perform (.stateGetNode c name)

/-- One attempt of `Lock`; `ok none` if the lock is taken. -/
def lockAttempt (c : ℕ) (lockKey : GoString) (opts : LockOptions) :
    Program (Except LockError (Option LockHandle)) := do
  let addr ← ownerAddr c lockKey
  if addr ≠ [] then do
    match ← perform (.remoteLockAcquire addr lockKey opts.ttl) with
    | .error text => pure (.error (.transport text))
    | .ok granted => pure (.ok (granted.map fun g =>
      ⟨c, lockKey, g.1, g.2, addr⟩))
  else do
    let owner ← perform (.selfName c)
    let granted ← perform (.engineAcquire c lockKey opts.ttl owner)
    pure (.ok (granted.map fun g => ⟨c, lockKey, g.1, g.2, []⟩))

/-- The retry loop of `Lock`, with `remaining` attempts left. -/
def lockLoop (c : ℕ) (lockKey : GoString) (opts : LockOptions) :
    ℕ → Program (Except LockError LockHandle)
  | 0 => pure (.error .lockNotAcquired)
  | remaining + 1 => do
    match ← lockAttempt c lockKey opts with
    | .error error => pure (.error error)
    | .ok (some handle) => pure (.ok handle)
    | .ok none =>
      if 0 < remaining ∧ 0 < opts.retryDelay then do
        let _ ← perform (.sleep opts.retryDelay)
        lockLoop c lockKey opts remaining
      else lockLoop c lockKey opts remaining

/-- `Cache.Lock`.  The loop runs for `attempt = 0, …, RetryCount`. -/
def lock (c : ℕ) (key : GoString) (opts : LockOptions) :
    Program (Except LockError LockHandle) :=
  if key = [] then pure (.error .keyEmpty)
  else do
    if ← perform (.loadClosed c) then pure (.error .shutdown)
    else lockLoop c (lockKeyOf key) opts (opts.retryCount + 1).toNat

def heldError : Except GoString Bool → Option LockError
  | .error text => some (.transport text)
  | .ok false => some .lockNotHeld
  | .ok true => none

def release (h : LockHandle) : Program (Option LockError) :=
  if h.ownerAddr ≠ [] then
    heldError <$> perform (.remoteLockRelease h.ownerAddr h.key h.token)
  else
    (fun ok => heldError (.ok ok)) <$>
      perform (.engineRelease h.cache h.key h.token)

def extend (h : LockHandle) (ttl : Duration) : Program (Option LockError) :=
  if h.ownerAddr ≠ [] then
    heldError <$> perform (.remoteLockExtend h.ownerAddr h.key h.token ttl)
  else
    (fun ok => heldError (.ok ok)) <$>
      perform (.engineExtend h.cache h.key h.token ttl)

end Cluster

inductive LockCall where
  | lock (c : ℕ) (key : GoString) (opts : LockOptions)
  | release (h : LockHandle)
  | extend (h : LockHandle) (ttl : Duration)

def LockCall.cache : LockCall → ℕ
  | .lock c _ _ => c
  | .release h => h.cache
  | .extend h _ => h.cache

inductive LockReply where
  | locked (result : Except LockError LockHandle)
  | done (error : Option LockError)
  deriving DecidableEq

def LockCall.program : LockCall → Cluster.Program LockReply
  | .lock c key opts => LockReply.locked <$> Cluster.lock c key opts
  | .release h => LockReply.done <$> Cluster.release h
  | .extend h ttl => LockReply.done <$> Cluster.extend h ttl

end CacheGrid
