import CacheGrid.CallOperations
import CacheGrid.CallOutcomes
import CacheGrid.StoreLaws

/-!
# What a call can touch

A call of a cache, whatever becomes of its RPCs, changes no frame, and it
changes stores only by the store calls that its operations lead to: its own,
and those of the caches that serve its requests.
-/

namespace CacheGrid

open InterleavedPrograms SequentialRuns TimedMap

/-! ## Stores -/

section Stores

variable {σ : Type}

/-- The store `s'` comes from `s` by calls that are allowed. -/
def Reached (impl : StoreImpl σ) (allowed : Readings × StoreOp → Prop) :
    σ → σ → Prop :=
  Relation.ReflTransGen fun s s' => ∃ call,
    allowed call ∧ s' = (impl.call s call).2

variable {impl : StoreImpl σ} {codec : Msgpack} {good : σ → Prop}
  {contents : σ → Contents GoString Bytes}
  {allowed : Readings × StoreOp → Prop} {s s' : σ}

theorem Reached.keeps_good (hlaw : LossyLedger impl codec good contents)
    (hreached : Reached impl allowed s s') (hgood : good s) : good s' := by
  induction hreached with
  | refl => exact hgood
  | tail _ hstep ih =>
    obtain ⟨call, _, rfl⟩ := hstep
    exact hlaw.good_call ih _

theorem Reached.contents_eq (hlaw : LossyLedger impl codec good contents)
    (hreached : Reached impl allowed s s') (hgood : good s) {key : GoString}
    (hkeeps : ∀ middle call, good middle →
      contents middle key = contents s key → allowed call →
      contents (impl.call middle call).2 key = contents middle key) :
    contents s' key = contents s key := by
  induction hreached with
  | refl => rfl
  | tail hreached hstep ih =>
    obtain ⟨call, hcall, rfl⟩ := hstep
    rw [hkeeps _ call (Reached.keeps_good hlaw hreached hgood) ih hcall, ih]

end Stores

/-! ## Requests -/

/-- The store calls that serving a request leads to.  The ttl of a counter is
the server's own. -/
inductive Transport.Request.LeadsTo (req : Request) : StoreOp → Prop
  | get (hop : req.op = opGet) : LeadsTo req (.get req.key)
  | set (hop : req.op = opSet) :
      LeadsTo req (.set req.key req.value req.ttl)
  | delete (hop : req.op = opDelete) : LeadsTo req (.delete req.key)
  | exists (hop : req.op = opExists) : LeadsTo req (.exists req.key)
  | mget {key : GoString} (hop : req.op = opMGet) (hkey : key ∈ req.keys) :
      LeadsTo req (.get key)
  | incr (hop : req.op = opIncr) (ttl : Duration) :
      LeadsTo req (.incr req.key req.delta ttl)

theorem Transport.Request.LeadsTo.key {req : Request} {op : StoreOp}
    (hleads : req.LeadsTo op) :
    ∃ key, op.key? = some key ∧ (key = req.key ∨ key ∈ req.keys) := by
  cases hleads with
  | mget _ hkey => exact ⟨_, rfl, Or.inr hkey⟩
  | _ => exact ⟨_, rfl, Or.inl rfl⟩

/-! ## Caches -/

namespace CacheNode

variable {σ : Type} {impl : StoreImpl σ}
  {allowed : Readings × StoreOp → Prop}

structure Evolves (impl : StoreImpl σ)
    (allowed : Readings × StoreOp → Prop) (n n' : CacheNode σ) : Prop where
  frame_eq : n'.frame = n.frame
  reached : Reached impl allowed n.store n'.store

theorem Evolves.refl (n : CacheNode σ) : Evolves impl allowed n n :=
  ⟨rfl, .refl⟩

theorem Evolves.trans {n n' n'' : CacheNode σ}
    (hfirst : Evolves impl allowed n n')
    (hsecond : Evolves impl allowed n' n'') : Evolves impl allowed n n'' :=
  ⟨hsecond.frame_eq.trans hfirst.frame_eq,
    hfirst.reached.trans hsecond.reached⟩

theorem runStore_evolves (n : CacheNode σ) {clock : Readings} {op : StoreOp}
    (hop : allowed (clock, op)) :
    Evolves impl allowed n (n.runStore impl clock op).2 :=
  ⟨rfl, .single ⟨(clock, op), hop, rfl⟩⟩

theorem handleMGet_evolves {clock : Readings} {keys : List GoString}
    (hkeys : ∀ key ∈ keys, allowed (clock, .get key)) (n : CacheNode σ) :
    Evolves impl allowed n (handleMGet impl clock keys n).2 := by
  induction keys generalizing n with
  | nil => exact .refl n
  | cons key keys ih =>
    have hfirst : Evolves impl allowed n
        (n.runStore impl clock (.get key)).2 :=
      n.runStore_evolves (hkeys key List.mem_cons_self)
    have hrest := ih (fun k hk => hkeys k (List.mem_cons_of_mem _ hk))
      (n.runStore impl clock (.get key)).2
    unfold handleMGet
    simp only
    split
    · exact hfirst.trans hrest
    · split
      · exact hfirst.trans hrest
      · exact hfirst.trans hrest

theorem handleSet_evolves {clock : Readings} {key : GoString}
    {value : Bytes} {ttl : Duration}
    (hset : allowed (clock, .set key value ttl)) (tags : List GoString)
    (n : CacheNode σ) :
    Evolves impl allowed n (handleSet impl clock key value ttl tags n) := by
  have hstored : Evolves impl allowed n
      (n.runStore impl clock (.set key value ttl)).2 :=
    n.runStore_evolves hset
  unfold handleSet
  simp only
  split
  · exact ⟨hstored.frame_eq, hstored.reached⟩
  · exact hstored

theorem handleIncr_evolves {clock : Readings} {key : GoString}
    {delta : Int64} (hincr : ∀ ttl, allowed (clock, .incr key delta ttl))
    (n : CacheNode σ) :
    Evolves impl allowed n (handleIncr impl clock key delta n).2 := by
  have hcounted : Evolves impl allowed n (n.runStore impl clock
      (.incr key delta n.config.defaultTTL)).2 :=
    n.runStore_evolves (hincr _)
  unfold handleIncr
  simp only
  split <;> exact hcounted

theorem handleLockAcquire_evolves (clock : Readings)
    (random : Fin 16 → UInt8) (key : GoString) (ttl : Duration)
    (n : CacheNode σ) :
    Evolves impl allowed n (handleLockAcquire clock random key ttl n).2 := by
  unfold handleLockAcquire
  simp only
  split <;> exact ⟨rfl, .refl⟩

theorem processRequest_evolves {clock : Readings} (random : Fin 16 → UInt8)
    {req : Transport.Request}
    (hreq : ∀ op, req.LeadsTo op → allowed (clock, op)) (n : CacheNode σ) :
    Evolves impl allowed n
      (Transport.processRequest (handler impl clock random) req n).2 := by
  refine Transport.processRequest_state (Evolves impl allowed n)
    ?_ ?_ ?_ ?_ ?_ ?_ ?_ ⟨rfl, .refl⟩ ⟨rfl, .refl⟩ (.refl n)
  · intro hget
    exact n.runStore_evolves (hreq _ (.get hget))
  · intro hset
    exact handleSet_evolves (hreq _ (.set hset)) _ n
  · intro hdelete
    have huntagged : Evolves impl allowed n
        { n with tags := n.tags.remove req.key } := ⟨rfl, .refl⟩
    exact huntagged.trans (runStore_evolves _ (hreq _ (.delete hdelete)))
  · intro hexists
    exact n.runStore_evolves (hreq _ (.exists hexists))
  · intro hmget
    exact handleMGet_evolves (fun key hkey => hreq _ (.mget hmget hkey)) n
  · intro hincr
    exact handleIncr_evolves (fun ttl => hreq _ (.incr hincr ttl)) n
  · exact handleLockAcquire_evolves clock random _ _ n

end CacheNode

/-! ## Grids -/

namespace Grid

variable {σ : Type} {impl : StoreImpl σ}
  {allowed : GoString → Readings × StoreOp → Prop}
  {g middle after : Grid σ}

/-- Every cache has made calls on its store that are allowed there. -/
structure Evolves (impl : StoreImpl σ)
    (allowed : GoString → Readings × StoreOp → Prop) (g after : Grid σ) :
    Prop where
  frame_eq : after.frame = g.frame
  reached : ∀ {c s'}, after.stores c = some s' →
    ∃ s, g.stores c = some s ∧ Reached impl (allowed c) s s'

theorem Evolves.refl (g : Grid σ) : Evolves impl allowed g g :=
  ⟨rfl, fun hs => ⟨_, hs, .refl⟩⟩

theorem Evolves.trans (hfirst : Evolves impl allowed g middle)
    (hsecond : Evolves impl allowed middle after) :
    Evolves impl allowed g after where
  frame_eq := hsecond.frame_eq.trans hfirst.frame_eq
  reached := by
    intro c s' hs'
    obtain ⟨s, hs, hreached⟩ := hsecond.reached hs'
    obtain ⟨s₀, hs₀, hreached₀⟩ := hfirst.reached hs
    exact ⟨s₀, hs₀, hreached₀.trans hreached⟩

theorem evolves_setNode {c : GoString} {n n' : CacheNode σ}
    (hnode : g.nodes c = some n) (hevolves : n.Evolves impl (allowed c) n') :
    Evolves impl allowed g (g.setNode c n') where
  frame_eq := frame_setNode_same hnode hevolves.frame_eq
  reached := by
    intro d s' hs'
    rw [stores_setNode] at hs'
    by_cases hd : d = c
    · subst d
      rw [Function.update_self, Option.some.injEq] at hs'
      exact ⟨n.store, stores_of_node hnode, hs' ▸ hevolves.reached⟩
    · rw [Function.update_of_ne hd] at hs'
      exact ⟨s', hs', .refl⟩

theorem onNode_evolves {α : Type} {c : GoString}
    {method : CacheNode σ → α × CacheNode σ} {answer : α}
    (hexec : g.onNode c method = some (answer, after))
    (hmethod : ∀ n, CacheNode.Evolves impl (allowed c) n (method n).2) :
    Evolves impl allowed g after := by
  obtain ⟨n, hnode, _, rfl⟩ := onNode_cases hexec
  exact evolves_setNode hnode (hmethod n)

theorem onNodeRead_evolves {α : Type} {c : GoString}
    {method : CacheNode σ → α} {answer : α}
    (hexec : g.onNodeRead c method = some (answer, after)) :
    Evolves impl allowed g after := by
  obtain ⟨_, _, _, rfl⟩ := onNodeRead_cases hexec
  exact .refl after

/-- The store calls that an operation leads to are allowed. -/
def Op.Within (allowed : GoString → Readings × StoreOp → Prop)
    (clock : Readings) : Op → Prop
  | .store c op => allowed c (clock, op)
  | .call addr req => ∀ op, req.LeadsTo op → allowed addr (clock, op)
  | _ => True

theorem Op.within_of_quiet {clock : Readings} {op : Op}
    (hquiet : op.quiet = true) : op.Within allowed clock := by
  cases op with
  | store c op => contradiction
  | call addr req => contradiction
  | _ => trivial

theorem serve_evolves {addr : GoString} {n : CacheNode σ} {choice : Choice}
    {req : Transport.Request} (hnode : g.nodes addr = some n)
    (hreq : ∀ op, req.LeadsTo op → allowed addr (choice.clock, op)) :
    Evolves impl allowed g (g.serve impl choice addr n req).2 :=
  evolves_setNode hnode
    (CacheNode.processRequest_evolves choice.random hreq n)

theorem exec_evolves {op : Op} {choice : Choice} {answer : op.Answer}
    (hop : op.Within allowed choice.clock)
    (hexec : (machine impl).exec g op choice = some (answer, after)) :
    Evolves impl allowed g after := by
  cases op with
  | loadClosed c => exact onNodeRead_evolves hexec
  | loadConfig c => exact onNodeRead_evolves hexec
  | ringGetNode c key => exact onNodeRead_evolves hexec
  | selfName c => exact onNodeRead_evolves hexec
  | stateGetNode c name => exact onNodeRead_evolves hexec
  | liveNodes c => exact onNodeRead_evolves hexec
  | store c op =>
    exact onNode_evolves hexec fun n => n.runStore_evolves hop
  | tagsRemove c key => exact onNode_evolves hexec fun _ => ⟨rfl, .refl⟩
  | tagsAdd c key tags => exact onNode_evolves hexec fun _ => ⟨rfl, .refl⟩
  | tagsGetKeys c tag => exact onNodeRead_evolves hexec
  | broker c call => exact onNode_evolves hexec fun _ => ⟨rfl, .refl⟩
  | call addr req =>
    rcases exec_call_cases hexec with ⟨_, rfl, _⟩ | ⟨n, _, hnode, rfl, _⟩
    · exact .refl after
    · exact serve_evolves hnode hop
  | goCall addr req =>
    simp only [machine, exec, Option.some.injEq, Prod.mk.injEq] at hexec
    exact hexec.2 ▸ ⟨rfl, fun hs => ⟨_, hs, .refl⟩⟩

end Grid

/-! ## Calls -/

def CacheCall.keys {V D : Type} : CacheCall V D → List GoString
  | .set key _ _ => [key]
  | .get key _ => [key]
  | .delete key => [key]
  | .exists key => [key]
  | .ttl key => [key]
  | .mget keys => keys
  | .incr key _ => [key]
  | .decr key _ => [key]

namespace Grid

variable {σ V D : Type} {impl : StoreImpl σ} {z : Serializer V D}
  {allowed : GoString → Readings × StoreOp → Prop} {g : Grid σ}
  {c key : GoString} {f : Frame} {op : Op} {clock : Readings}

/-- An access to the record under a key: in the store of the cache itself, or
by a request to the owner. -/
def Accesses (f : Frame) (c key : GoString) (op : Op) : Prop :=
  (∃ storeOp, op = .store c storeOp ∧ storeOp.key? = some key) ∨
    ∃ req, Asks f key req op ∧ req.key = key ∧ req.keys = []

theorem Fetches.accesses (hfetch : Fetches f c key op) :
    Accesses f c key op := by
  rcases hfetch with rfl | hasks | ⟨data, rfl⟩
  · exact Or.inl ⟨_, rfl, rfl⟩
  · exact Or.inr ⟨_, hasks, rfl, rfl⟩
  · exact Or.inl ⟨_, rfl, rfl⟩

theorem Counts.accesses {delta : Int64} (hcounts : Counts f c key delta op) :
    Accesses f c key op := by
  rcases hcounts with rfl | hasks
  · exact Or.inl ⟨_, rfl, rfl⟩
  · exact Or.inr ⟨_, hasks, rfl, rfl⟩

theorem Performed.accesses {call : CacheCall V D}
    (hop : Performed z f c call op) :
    ∃ key ∈ call.keys, Accesses f c key op := by
  cases call with
  | set key value ttl =>
    refine ⟨key, List.mem_cons_self, ?_⟩
    obtain ⟨data, _, rfl | hasks⟩ := hop
    · exact Or.inl ⟨_, rfl, rfl⟩
    · exact Or.inr ⟨_, hasks, rfl, rfl⟩
  | get key dest => exact ⟨key, List.mem_cons_self, Fetches.accesses hop⟩
  | delete key =>
    refine ⟨key, List.mem_cons_self, ?_⟩
    rcases hop with rfl | hasks
    · exact Or.inl ⟨_, rfl, rfl⟩
    · exact Or.inr ⟨_, hasks, rfl, rfl⟩
  | «exists» key =>
    refine ⟨key, List.mem_cons_self, ?_⟩
    rcases hop with rfl | hasks
    · exact Or.inl ⟨_, rfl, rfl⟩
    · exact Or.inr ⟨_, hasks, rfl, rfl⟩
  | ttl key => exact ⟨key, List.mem_cons_self, Or.inl ⟨_, hop, rfl⟩⟩
  | mget keys =>
    obtain ⟨key, hkey, hfetch⟩ := hop
    exact ⟨key, hkey, hfetch.accesses⟩
  | incr key delta => exact ⟨key, List.mem_cons_self, Counts.accesses hop⟩
  | decr key delta => exact ⟨key, List.mem_cons_self, Counts.accesses hop⟩

theorem Accesses.within (haccess : Accesses f c key op)
    (hkey : ∀ d storeOp, storeOp.key? = some key →
      allowed d (clock, storeOp)) :
    op.Within allowed clock := by
  rcases haccess with ⟨storeOp, rfl, hop⟩ | ⟨req, ⟨_, rfl⟩, rfl, hkeys⟩
  · exact hkey c storeOp hop
  · intro storeOp hleads
    obtain ⟨key, hop, rfl | hmem⟩ := hleads.key
    · exact hkey _ storeOp hop
    · rw [hkeys] at hmem
      contradiction

/-- A call touches only the keys it was given. -/
theorem step_call_evolves {call : CacheCall V D}
    (hkeys : ∀ key ∈ call.keys, ∀ d storeCall,
      storeCall.2.key? = some key → allowed d storeCall)
    (timeline : Timeline) :
    Evolves impl allowed g (step impl z g (.call c call timeline)).2 := by
  cases halone : (call.program z c).alone (machine impl) Op.timed
      timeline.choice g with
  | none =>
    simp only [step, halone]
    exact .refl g
  | some outcome =>
    obtain ⟨reply, rest, after⟩ := outcome
    have hperforms : (call.program z c).Performs (Consistent (g.frame c) c)
        (fun op : Op => ∀ clock, op.Within allowed clock) fun _ => True := by
      refine performs_program (fun hquiet clock => Op.within_of_quiet hquiet) ?_
      intro f _ op hop clock
      obtain ⟨key, hkey, haccess⟩ := hop.accesses
      exact haccess.within fun d storeOp => hkeys key hkey d (clock, storeOp)
    rw [step_call halone]
    refine hperforms.alone_invariant
      (fun state => Evolves impl allowed g state) ?_ (.refl g) halone
    intro state op choice answer state' hstate hop hexec
    refine ⟨?_, hstate.trans (exec_evolves (hop choice.clock) hexec)⟩
    rw [← congrFun hstate.frame_eq c]
    exact exec_consistent c hexec

theorem deliver_evolves {i : ℕ} {choice : Choice}
    (hmessage : ∀ addr req, g.messages[i]? = some (addr, req) →
      ∀ op, req.LeadsTo op → allowed addr (choice.clock, op)) :
    Evolves impl allowed g ((g.deliver impl i choice).getD g) := by
  unfold deliver
  cases hsent : g.messages[i]? with
  | none => exact .refl g
  | some message =>
    obtain ⟨addr, req⟩ := message
    have hrest : Evolves impl allowed g
        { g with messages := g.messages.eraseIdx i } :=
      ⟨rfl, fun hs => ⟨_, hs, .refl⟩⟩
    simp only
    cases hlistens : g.listener addr with
    | none => exact hrest
    | some n =>
      exact hrest.trans (serve_evolves (node_of_listener_eq hlistens)
        (hmessage addr req hsent))

end Grid

end CacheGrid
