import CacheGrid.GridCalls

/-!
# Where a call goes

Of a grid, the results of calls depend on three things: the frame of every
cache (its view of the cluster, its flag and its configuration), the stores,
and the messages on their way.  A call that runs alone is a sequence of
accesses to stores; this file says which ones.

The home of a key, for a cache, is the cache whose store its calls go to by
ownership: itself, or the cache at the owner's address.
-/

namespace CacheGrid

open InterleavedPrograms

def CacheConfig.effectiveTTL (config : CacheConfig) (ttl : Duration) :
    Duration :=
  if ttl = 0 then config.defaultTTL else ttl

structure Frame where
  topology : Option Topology
  closed : Bool
  config : CacheConfig

def CacheNode.frame {σ : Type} (n : CacheNode σ) : Frame :=
  ⟨n.topology, n.closed, n.config⟩

/-- What `Cache.ownerAddr` returns. -/
def Frame.ownerAddr (f : Frame) (key : GoString) : GoString :=
  match f.topology with
  | none => []
  | some topology =>
    let owner := topology.ring.getNode key
    if owner = [] ∨ owner = topology.state.self then []
    else
      match topology.state.getNode owner with
      | none => []
      | some node => node.rpcAddr

namespace Grid

variable {σ : Type}

def frame (g : Grid σ) (c : GoString) : Option Frame :=
  (g.nodes c).map CacheNode.frame

def stores (g : Grid σ) (c : GoString) : Option σ :=
  (g.nodes c).map CacheNode.store

def homeOf (f : Frame) (c key : GoString) : GoString :=
  if f.ownerAddr key = [] then c else f.ownerAddr key

def home (g : Grid σ) (c key : GoString) : GoString :=
  match g.frame c with
  | none => c
  | some f => homeOf f c key

theorem home_of_frame {g : Grid σ} {c : GoString} {f : Frame}
    (hframe : g.frame c = some f) (key : GoString) :
    g.home c key = homeOf f c key := by
  simp [home, hframe]

/-! ## Accesses -/

/-- Nothing has changed but tags, brokers and callbacks. -/
structure Same (g after : Grid σ) : Prop where
  frame_eq : after.frame = g.frame
  stores_eq : after.stores = g.stores
  messages_eq : after.messages = g.messages

/-- The store at `h` has executed one call, and nothing else has changed. -/
structure Accessed (impl : StoreImpl σ) (g : Grid σ) (h : GoString)
    (call : Readings × StoreOp) (result : StoreResult) (after : Grid σ) :
    Prop where
  frame_eq : after.frame = g.frame
  messages_eq : after.messages = g.messages
  store : ∃ s, g.stores h = some s ∧ result = (impl.call s call).1.1 ∧
    after.stores = Function.update g.stores h (some (impl.call s call).2)

variable {call : Readings × StoreOp} {result : StoreResult}

theorem Accessed.cases {impl : StoreImpl σ} {g after : Grid σ} {h : GoString}
    (haccess : Accessed impl g h call result after) :
    ∃ s, g.stores h = some s ∧ result = (impl.call s call).1.1 ∧
      ∀ {c s'}, after.stores c = some s' →
        c = h ∧ s' = (impl.call s call).2 ∨ c ≠ h ∧ g.stores c = some s' := by
  obtain ⟨s, hstore, hresult, hstores⟩ := haccess.store
  refine ⟨s, hstore, hresult, ?_⟩
  intro c s' hs'
  rw [hstores] at hs'
  by_cases hc : c = h
  · subst c
    rw [Function.update_self, Option.some.injEq] at hs'
    exact Or.inl ⟨rfl, hs'.symm⟩
  · rw [Function.update_of_ne hc] at hs'
    exact Or.inr ⟨hc, hs'⟩

theorem Same.refl (g : Grid σ) : Same g g := ⟨rfl, rfl, rfl⟩

theorem Same.trans {g middle after : Grid σ} (hfirst : Same g middle)
    (hsecond : Same middle after) : Same g after :=
  ⟨hsecond.frame_eq.trans hfirst.frame_eq,
    hsecond.stores_eq.trans hfirst.stores_eq,
    hsecond.messages_eq.trans hfirst.messages_eq⟩

theorem Accessed.same {impl : StoreImpl σ} {g middle after : Grid σ}
    {h : GoString} (haccess : Accessed impl g h call result middle)
    (hsame : Same middle after) : Accessed impl g h call result after := by
  obtain ⟨s, hs, hresult, hstores⟩ := haccess.store
  exact ⟨hsame.frame_eq.trans haccess.frame_eq,
    hsame.messages_eq.trans haccess.messages_eq,
    s, hs, hresult, hsame.stores_eq.trans hstores⟩

theorem frame_setNode (g : Grid σ) (c : GoString) (n : CacheNode σ) :
    (g.setNode c n).frame = Function.update g.frame c (some n.frame) := by
  funext other
  by_cases hother : other = c
  · subst other
    simp [frame, setNode]
  · simp [frame, setNode, hother]

theorem stores_setNode (g : Grid σ) (c : GoString) (n : CacheNode σ) :
    (g.setNode c n).stores = Function.update g.stores c (some n.store) := by
  funext other
  by_cases hother : other = c
  · subst other
    simp [stores, setNode]
  · simp [stores, setNode, hother]

theorem frame_of_node {g : Grid σ} {c : GoString} {n : CacheNode σ}
    (hnode : g.nodes c = some n) : g.frame c = some n.frame := by
  simp [frame, hnode]

theorem stores_of_node {g : Grid σ} {c : GoString} {n : CacheNode σ}
    (hnode : g.nodes c = some n) : g.stores c = some n.store := by
  simp [stores, hnode]

theorem stores_bind_eq {β : Type} {g after : Grid σ} {c : GoString}
    {f : σ → Option β} (hframe : after.frame = g.frame)
    (hstores : ∀ {s'}, after.stores c = some s' →
      ∃ s, g.stores c = some s ∧ f s' = f s) :
    (after.stores c).bind f = (g.stores c).bind f := by
  cases hafter : after.stores c with
  | some s' =>
    obtain ⟨s, hs, heq⟩ := hstores hafter
    rw [hs, Option.bind_some, Option.bind_some, heq]
  | none =>
    have hnone : g.stores c = none := by
      have hnodes : after.frame c = none := by
        rw [stores, Option.map_eq_none_iff] at hafter
        rw [frame, hafter, Option.map_none]
      rw [hframe, frame, Option.map_eq_none_iff] at hnodes
      rw [stores, hnodes, Option.map_none]
    rw [hnone]

theorem frame_setNode_same {g : Grid σ} {c : GoString} {n n' : CacheNode σ}
    (hnode : g.nodes c = some n) (hframe : n'.frame = n.frame) :
    (g.setNode c n').frame = g.frame := by
  rw [frame_setNode, hframe, ← frame_of_node hnode, Function.update_eq_self]

theorem same_setNode {g : Grid σ} {c : GoString} {n n' : CacheNode σ}
    (hnode : g.nodes c = some n) (hframe : n'.frame = n.frame)
    (hstore : n'.store = n.store) : Same g (g.setNode c n') where
  frame_eq := frame_setNode_same hnode hframe
  stores_eq := by
    rw [stores_setNode, hstore, ← stores_of_node hnode,
      Function.update_eq_self]
  messages_eq := rfl

theorem accessed_setNode {impl : StoreImpl σ} {g : Grid σ} {c : GoString}
    {n n' : CacheNode σ} (hnode : g.nodes c = some n)
    (hframe : n'.frame = n.frame)
    (hstore : n'.store = (impl.call n.store call).2) :
    Accessed impl g c call (impl.call n.store call).1.1
      (g.setNode c n') where
  frame_eq := frame_setNode_same hnode hframe
  messages_eq := rfl
  store := ⟨n.store, stores_of_node hnode, rfl, by
    rw [stores_setNode, hstore]⟩

/-! ## Single steps -/

section Steps

variable {impl : StoreImpl σ} {g : Grid σ} {c : GoString} {n : CacheNode σ}
  {choice : Choice}

theorem onNode_eq {α : Type} (hnode : g.nodes c = some n)
    (method : CacheNode σ → α × CacheNode σ) :
    g.onNode c method = some ((method n).1, g.setNode c (method n).2) := by
  simp [onNode, hnode]

theorem onNode_cases {α : Type} {after : Grid σ}
    {method : CacheNode σ → α × CacheNode σ} {answer : α}
    (hexec : g.onNode c method = some (answer, after)) :
    ∃ n, g.nodes c = some n ∧ answer = (method n).1 ∧
      after = g.setNode c (method n).2 := by
  cases hnode : g.nodes c with
  | none => simp [onNode, hnode] at hexec
  | some n =>
    rw [onNode_eq hnode, Option.some.injEq, Prod.mk.injEq] at hexec
    exact ⟨n, rfl, hexec.1.symm, hexec.2.symm⟩

theorem onNodeRead_cases {α : Type} {after : Grid σ}
    {method : CacheNode σ → α} {answer : α}
    (hexec : g.onNodeRead c method = some (answer, after)) :
    ∃ n, g.nodes c = some n ∧ answer = method n ∧ after = g := by
  obtain ⟨n, hnode, heq⟩ := Option.map_eq_some_iff.mp hexec
  rw [Prod.mk.injEq] at heq
  exact ⟨n, hnode, heq.1.symm, heq.2.symm⟩

theorem exec_store (hnode : g.nodes c = some n) (op : StoreOp) :
    (machine impl).exec g (.store c op) choice =
      some ((n.runStore impl choice.clock op).1,
        g.setNode c (n.runStore impl choice.clock op).2) :=
  onNode_eq hnode _

theorem accessed_runStore (hnode : g.nodes c = some n) (clock : Readings)
    (op : StoreOp) :
    Accessed impl g c (clock, op) (n.runStore impl clock op).1
      (g.setNode c (n.runStore impl clock op).2) :=
  accessed_setNode hnode rfl rfl

theorem accessed_of_exec {after : Grid σ} {op : StoreOp}
    (hexec : (machine impl).exec g (.store c op) choice = some (result, after)) :
    Accessed impl g c (choice.clock, op) result after := by
  obtain ⟨n, hnode, rfl, rfl⟩ := onNode_cases hexec
  exact accessed_runStore hnode choice.clock op

theorem exec_broker_node (hnode : g.nodes c = some n) (call : BrokerCall) :
    ∃ after n', (machine impl).exec g (.broker c call) choice =
      some ((), after) ∧ Same g after ∧ after.nodes c = some n' ∧
        n'.tags = n.tags :=
  ⟨_, _, onNode_eq hnode _, same_setNode hnode rfl rfl,
    Function.update_self _ _ _, rfl⟩

theorem exec_broker (hnode : g.nodes c = some n) (call : BrokerCall) :
    ∃ after, (machine impl).exec g (.broker c call) choice =
      some ((), after) ∧ Same g after := by
  obtain ⟨after, _, hexec, hsame, _⟩ := exec_broker_node hnode call
  exact ⟨after, hexec, hsame⟩

/-- The index of `c` records no tags for the key. -/
def Untagged (g : Grid σ) (c key : GoString) : Prop :=
  ∀ n, g.nodes c = some n → n.tags.keyToTags.lookup key = none

theorem exec_tagsRemove (hnode : g.nodes c = some n) (key : GoString) :
    ∃ after n', (machine impl).exec g (.tagsRemove c key) choice =
      some ((), after) ∧ Same g after ∧ after.nodes c = some n' ∧
        n'.tags = n.tags.remove key :=
  ⟨_, _, onNode_eq hnode _, same_setNode hnode rfl rfl,
    Function.update_self _ _ _, rfl⟩

theorem listener_of_node (hnode : g.nodes c = some n)
    (hopen : n.closed = false) : g.listener c = some n := by
  simp [listener, hnode, hopen]

theorem node_of_listener (hlistens : (g.listener c).isSome = true) :
    ∃ n, g.nodes c = some n ∧ n.closed = false := by
  obtain ⟨n, hn⟩ := Option.isSome_iff_exists.mp hlistens
  obtain ⟨hnode, hopen⟩ := Option.filter_eq_some_iff.mp hn
  exact ⟨n, hnode, by simpa using hopen⟩

theorem exec_call (hnode : g.nodes c = some n) (hopen : n.closed = false)
    (hanswered : choice.rpc = .answered) (req : Transport.Request) :
    (machine impl).exec g (.call c req) choice =
      some (Transport.checkResponse c (g.serve impl choice c n req).1,
        (g.serve impl choice c n req).2) := by
  simp only [machine, exec, listener_of_node hnode hopen, hanswered]

theorem node_of_listener_eq {addr : GoString}
    (hlistens : g.listener addr = some n) : g.nodes addr = some n :=
  (Option.filter_eq_some_iff.mp hlistens).1

def server (g : Grid σ) (addr : GoString) (choice : Choice) :
    Option (CacheNode σ) :=
  match choice.rpc with
  | .unsent _ => none
  | _ => g.listener addr

theorem exec_call_cases {after : Grid σ} {addr : GoString}
    {req : Transport.Request} {answer : Except GoString Transport.Response}
    (hexec : (machine impl).exec g (.call addr req) choice =
      some (answer, after)) :
    (g.server addr choice = none ∧ after = g ∧
        ∃ error, answer = .error error) ∨
      ∃ m, g.server addr choice = some m ∧ g.nodes addr = some m ∧
        after = (g.serve impl choice addr m req).2 ∧
        (choice.rpc = .answered ∧
            answer = Transport.checkResponse addr
              (g.serve impl choice addr m req).1 ∨
          ∃ error, choice.rpc = .unanswered error ∧
            answer = .error error) := by
  simp only [machine, exec] at hexec
  cases hlistens : g.listener addr with
  | none =>
    have hserver : g.server addr choice = none := by
      cases hrpc : choice.rpc <;> simp only [server, hrpc, hlistens]
    simp only [hlistens, Option.some.injEq, Prod.mk.injEq] at hexec
    exact .inl ⟨hserver, hexec.2.symm, _, hexec.1.symm⟩
  | some m =>
    have hnode := node_of_listener_eq hlistens
    cases hrpc : choice.rpc with
    | unsent error =>
      simp only [hlistens, hrpc, Option.some.injEq, Prod.mk.injEq] at hexec
      exact .inl ⟨by simp only [server, hrpc], hexec.2.symm, _, hexec.1.symm⟩
    | unanswered error =>
      simp only [hlistens, hrpc, Option.some.injEq, Prod.mk.injEq] at hexec
      exact .inr ⟨m, by simp only [server, hrpc, hlistens], hnode,
        hexec.2.symm, .inr ⟨error, rfl, hexec.1.symm⟩⟩
    | answered =>
      simp only [hlistens, hrpc, Option.some.injEq, Prod.mk.injEq] at hexec
      exact .inr ⟨m, by simp only [server, hrpc, hlistens], hnode,
        hexec.2.symm, .inl ⟨rfl, hexec.1.symm⟩⟩

theorem onNodeRead_eq {α : Type} (hnode : g.nodes c = some n)
    (method : CacheNode σ → α) :
    g.onNodeRead c method = some (method n, g) := by
  simp [onNodeRead, hnode]

theorem sweep_cases (clock : Readings) :
    Same g ((envStep impl g (.sweep c clock)).getD g) ∨
      ∃ result, Accessed impl g c (clock, .deleteExpired) result
        ((envStep impl g (.sweep c clock)).getD g) := by
  cases hnode : g.nodes c with
  | none =>
    refine Or.inl ?_
    simp [envStep, modifyNode, hnode, Same.refl]
  | some n =>
    simp only [envStep, modifyNode, hnode, Option.map_some,
      Option.getD_some]
    exact Or.inr ⟨_, accessed_runStore hnode clock .deleteExpired⟩

theorem same_callback (i : ℕ) :
    Same g ((envStep impl g (.callback c i)).getD g) := by
  cases hnode : g.nodes c with
  | none => simp [envStep, modifyNode, hnode, Same.refl]
  | some n =>
    simp only [envStep, modifyNode, hnode, Option.map_some,
      Option.getD_some]
    cases n.pending[i]? with
    | none => exact same_setNode hnode rfl rfl
    | some callback =>
      cases callback <;> exact same_setNode hnode rfl rfl

end Steps

/-! ## Routing by ownership -/

section Alone

variable {impl : StoreImpl σ} {g : Grid σ} {c key : GoString}
  {n m : CacheNode σ} {choices : ℕ → Choice}

theorem alone_ownerAddr (hnode : g.nodes c = some n) :
    (ownerAddr c key).alone (machine impl) Op.timed choices g =
      some (n.frame.ownerAddr key, choices, g) := by
  unfold ownerAddr ownerAddrOver
  rw [Prog.alone_perform_bind (onNodeRead_eq hnode _)]
  cases htopology : n.topology with
  | none => simp [Frame.ownerAddr, CacheNode.frame, htopology, Op.timed]
  | some topology =>
    have hself : n.selfName = topology.state.self := by
      simp [Cache.selfName, htopology]
    simp only [Option.map_some, Op.timed, Bool.false_eq_true, if_false,
      Frame.ownerAddr, CacheNode.frame, htopology]
    by_cases hempty : topology.ring.getNode key = []
    · simp [hempty]
    · rw [if_neg hempty,
        Prog.alone_perform_bind (onNodeRead_eq hnode _)]
      by_cases hown : topology.ring.getNode key = topology.state.self
      · simp [hself, hown, Op.timed]
      · simp only [hself, hown, Op.timed, Bool.false_eq_true, if_false,
          hempty, or_self]
        rw [Prog.alone_perform_bind (onNodeRead_eq hnode _)]
        simp only [htopology, Option.bind_some, Op.timed,
          Bool.false_eq_true, if_false]
        cases topology.state.getNode (topology.ring.getNode key) <;> rfl

theorem home_eq_self (hnode : g.nodes c = some n)
    (hlocal : n.frame.ownerAddr key = []) : g.home c key = c := by
  simp [home_of_frame (frame_of_node hnode), homeOf, hlocal]

theorem home_eq_addr (hnode : g.nodes c = some n)
    (hremote : n.frame.ownerAddr key ≠ []) :
    g.home c key = n.frame.ownerAddr key := by
  simp [home_of_frame (frame_of_node hnode), homeOf, hremote]

/-! ## Requests -/

theorem serve_get (choice : Choice) :
    g.serve impl choice c n (getRequest key) =
      ({ value := (n.runStore impl choice.clock (.get key)).1.found.getD []
         found :=
          (n.runStore impl choice.clock (.get key)).1.found.isSome },
        g.setNode c (n.runStore impl choice.clock (.get key)).2) := rfl

theorem serve_set (choice : Choice) (value : Bytes) (ttl : Duration) :
    g.serve impl choice c n (setRequest key value ttl []) =
      ({ ok := true },
        g.setNode c (n.runStore impl choice.clock
          (.set key value ttl)).2) := rfl

theorem serve_delete (choice : Choice) :
    ∃ after,
      g.serve impl choice c n (deleteRequest key) =
        ({ ok := (n.runStore impl choice.clock (.delete key)).1.ok },
          g.setNode c after) ∧
      after.frame = n.frame ∧
      after.store = (n.runStore impl choice.clock (.delete key)).2.store :=
  ⟨_, rfl, rfl, rfl⟩

theorem serve_exists (choice : Choice) :
    g.serve impl choice c n (existsRequest key) =
      ({ ok := (n.runStore impl choice.clock (.exists key)).1.ok },
        g.setNode c (n.runStore impl choice.clock (.exists key)).2) := rfl

theorem alone_remoteGet (hnode : g.nodes c = some n)
    (hopen : n.closed = false) (hanswered : (choices 0).rpc = .answered) :
    (remoteGet c key).alone (machine impl) Op.timed choices g =
      some (.ok ((n.runStore impl (choices 0).clock (.get key)).1.found.getD
            [],
          (n.runStore impl (choices 0).clock (.get key)).1.found.isSome),
        later choices,
        g.setNode c (n.runStore impl (choices 0).clock (.get key)).2) := by
  unfold remoteGet
  rw [Prog.alone_perform_bind (exec_call hnode hopen hanswered _), serve_get]
  rfl

theorem alone_remoteSet (hnode : g.nodes c = some n)
    (hopen : n.closed = false) (hanswered : (choices 0).rpc = .answered)
    (value : Bytes) (ttl : Duration) :
    (remoteSet c key value ttl []).alone (machine impl) Op.timed choices g =
      some (none, later choices, g.setNode c
        (n.runStore impl (choices 0).clock (.set key value ttl)).2) := by
  unfold remoteSet
  change (_ >>= _ : Program _).alone _ _ _ _ = _
  rw [Prog.alone_perform_bind (exec_call hnode hopen hanswered _), serve_set]
  rfl

theorem alone_remoteDelete (hnode : g.nodes c = some n)
    (hopen : n.closed = false) (hanswered : (choices 0).rpc = .answered) :
    ∃ after,
      (remoteDelete c key).alone (machine impl) Op.timed choices g =
        some (none, later choices, after) ∧
      Accessed impl g c ((choices 0).clock, .delete key)
        (n.runStore impl (choices 0).clock (.delete key)).1 after := by
  obtain ⟨n', hserve, hframe, hstore⟩ :=
    @serve_delete σ impl g c key n (choices 0)
  refine ⟨g.setNode c n', ?_, accessed_setNode hnode hframe hstore⟩
  unfold remoteDelete
  change (_ >>= _ : Program _).alone _ _ _ _ = _
  rw [Prog.alone_perform_bind (exec_call hnode hopen hanswered _), hserve]
  rfl

theorem alone_remoteExists (hnode : g.nodes c = some n)
    (hopen : n.closed = false) (hanswered : (choices 0).rpc = .answered) :
    (remoteExists c key).alone (machine impl) Op.timed choices g =
      some (.ok (n.runStore impl (choices 0).clock (.exists key)).1.ok,
        later choices,
        g.setNode c (n.runStore impl (choices 0).clock (.exists key)).2) := by
  unfold remoteExists
  rw [Prog.alone_perform_bind (exec_call hnode hopen hanswered _),
    serve_exists]
  rfl

/-- A counter as it comes back from `addr`: an error without a text would be
lost on the way. -/
def remoteCount (addr : GoString) :
    Except GoString Int64 → Except GoString Int64
  | .ok value => .ok value
  | .error text =>
    if text = [] then .ok 0 else .error (Transport.remoteError addr text)

def incrResponse : Except GoString Int64 → Transport.Response
  | .ok value => { intVal := value }
  | .error text => { intVal := 0, error := text }

theorem serve_incr (choice : Choice) (delta : Int64) :
    g.serve impl choice c n (incrRequest key delta) =
      (incrResponse (n.runStore impl choice.clock
          (.incr key delta n.config.defaultTTL)).1.count,
        g.setNode c (n.runStore impl choice.clock
          (.incr key delta n.config.defaultTTL)).2) := by
  let r := n.runStore impl choice.clock
    (.incr key delta n.config.defaultTTL)
  let handled := CacheNode.handleIncr impl choice.clock key delta n
  have hhandled : handled =
      match r.1.count with
      | .ok value => ((value, none), r.2)
      | .error err => ((0, some err), r.2) := rfl
  have hserve : g.serve impl choice c n (incrRequest key delta) =
      ({ intVal := handled.1.1, error := handled.1.2.getD [] },
        g.setNode c handled.2) := rfl
  rw [hserve, hhandled]
  change _ = (incrResponse r.1.count, g.setNode c r.2)
  cases r.1.count <;> rfl

theorem checkResponse_incrResponse (addr : GoString)
    (count : Except GoString Int64) :
    Transport.Response.intVal <$>
        Transport.checkResponse addr (incrResponse count) =
      remoteCount addr count := by
  cases count with
  | ok value => rfl
  | error text =>
    by_cases hempty : text = []
    · simp [Transport.checkResponse, incrResponse, remoteCount, hempty]
    · simp [Transport.checkResponse, incrResponse, remoteCount, hempty]

theorem alone_remoteIncr (hnode : g.nodes c = some n)
    (hopen : n.closed = false) (hanswered : (choices 0).rpc = .answered)
    (delta : Int64) :
    (remoteIncr c key delta).alone (machine impl) Op.timed choices g =
      some (remoteCount c (n.runStore impl (choices 0).clock
            (.incr key delta n.config.defaultTTL)).1.count,
        later choices,
        g.setNode c (n.runStore impl (choices 0).clock
          (.incr key delta n.config.defaultTTL)).2) := by
  unfold remoteIncr
  rw [Prog.alone_perform_bind (exec_call hnode hopen hanswered _),
    serve_incr, ← checkResponse_incrResponse]
  simp only
  cases Transport.checkResponse c (incrResponse _) <;> rfl

end Alone

end Grid

end CacheGrid
