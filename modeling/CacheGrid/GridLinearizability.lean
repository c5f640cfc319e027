import CacheGrid.CacheClocks
import CacheGrid.GridTransparency
import CacheGrid.LinearizationPoints

/-!
# Concurrent calls on a partitioned cluster

Any number of calls run at the same time, at any caches of a cluster that has
settled.  A call on one key makes one access, at the owner of the key, and that
is its linearization point.  What its cache does before and after it only reads
the cache's own settings or tells its broker.

An RPC that fails may have been served or not.  Nothing is sent twice, so a
call takes effect at most once, and only the caller cannot tell.
-/

namespace CacheGrid

open InterleavedPrograms SequentialRuns TimedMap LinearizationPoints

/-! ## One access -/

namespace CacheCall

variable {V D : Type}

/-- The call makes one access at the owner of `key`, and `req` is the request
that stands for it. -/
inductive Accesses (z : Serializer V D) (config : CacheConfig) :
    CacheCall V D → GoString → StoreOp → Transport.Request → Prop
  | set {key : GoString} {value : GoValue V} {lifetime : Duration}
      {data : Bytes} (hkey : key ≠ []) (hdata : z.serialize value = .ok data) :
      Accesses z config (.set key value lifetime) key
        (.set key data (config.effectiveTTL lifetime))
        (Grid.setRequest key data (config.effectiveTTL lifetime) [])
  | get {key : GoString} {dest : Dest D} (hkey : key ≠ []) :
      Accesses z config (.get key dest) key (.get key) (Grid.getRequest key)
  | delete {key : GoString} (hkey : key ≠ []) :
      Accesses z config (.delete key) key (.delete key)
        (Grid.deleteRequest key)
  | exists {key : GoString} (hkey : key ≠ []) :
      Accesses z config (.exists key) key (.exists key)
        (Grid.existsRequest key)
  | incr {key : GoString} {delta : Int64} (hkey : key ≠ []) :
      Accesses z config (.incr key delta) key
        (.incr key delta config.defaultTTL) (Grid.incrRequest key delta)
  | decr {key : GoString} {delta : Int64} (hkey : key ≠ []) :
      Accesses z config (.decr key delta) key
        (.incr key (-delta) config.defaultTTL)
        (Grid.incrRequest key (-delta))

/-- TTL asks the cache's own store, and MGet makes an access for each key. -/
def routed : CacheCall V D → Bool
  | .ttl _ => false
  | .mget _ => false
  | _ => true

def fromStore (z : Serializer V D) : CacheCall V D → StoreResult → CacheReply V
  | .set _ _ _, _ => .stored none
  | .get _ dest, result => .got (result.found.bind fun data =>
    (z.deserialize data dest).toOption)
  | .delete _, _ => .done
  | .exists _, result => .present result.ok
  | .incr _ _, result => .counter (result.count.mapError .plain)
  | .decr _ _, result => .counter (result.count.mapError .plain)
  | .ttl _, result => .remaining result.ttl
  | .mget _, _ => .values []

def fetched : Except GoString Transport.Response → Option Bytes
  | .ok resp => if resp.found then some resp.value else none
  | .error _ => none

def fromCall (z : Serializer V D) :
    CacheCall V D → Except GoString Transport.Response → CacheReply V
  | .set _ _ _, answer => .stored ((Grid.errorOf answer).map .plain)
  | .get _ dest, answer => .got ((fetched answer).bind fun data =>
    (z.deserialize data dest).toOption)
  | .delete _, _ => .done
  | .exists _, answer =>
    .present ((answer.map Transport.Response.ok).toOption.getD false)
  | .incr _ _, answer =>
    .counter ((answer.map Transport.Response.intVal).mapError .plain)
  | .decr _ _, answer =>
    .counter ((answer.map Transport.Response.intVal).mapError .plain)
  | .ttl _, _ => .remaining 0
  | .mget _, _ => .values []

/-- What a caller is told whose RPC has failed. -/
def Failed (z : Serializer V D) (call : CacheCall V D)
    (reply : CacheReply V) : Prop :=
  ∃ text, reply = call.fromCall z (.error text)

variable {z : Serializer V D} {config : CacheConfig} {call : CacheCall V D}
  {key : GoString} {op : StoreOp} {req : Transport.Request}

theorem Accesses.key? (haccess : call.Accesses z config key op req) :
    op.key? = some key := by
  cases haccess <;> rfl

theorem Accesses.mapCall_eq (haccess : call.Accesses z config key op req)
    (full : Contents GoString Bytes) (timeline : Grid.Timeline) :
    mapCall z config full (call, timeline) =
      (call.fromStore z (mapAccess z.toMsgpack full
          (timeline.choice 0).clock op key).1,
        (mapAccess z.toMsgpack full (timeline.choice 0).clock op key).2) := by
  cases haccess with
  | set hkey hdata => simp only [mapCall, hkey, if_false, hdata, fromStore]
  | get hkey => simp only [mapCall, hkey, if_false, fromStore]
  | delete hkey => simp only [mapCall, hkey, if_false, fromStore]
  | «exists» hkey => simp only [mapCall, hkey, if_false, fromStore]
  | incr hkey => simp only [mapCall, mapIncr, hkey, if_false, fromStore]
  | decr hkey => simp only [mapCall, mapIncr, hkey, if_false, fromStore]

/-- A Delete does not tell what it found. -/
theorem Accesses.fromStore_congr
    (haccess : call.Accesses z config key op req)
    {result result' : StoreResult} (heq : op ≠ .delete key → result = result') :
    call.fromStore z result = call.fromStore z result' := by
  cases haccess with
  | delete hkey => rfl
  | _ => rw [heq (by simp)]

end CacheCall

namespace Grid

variable {σ V D : Type} {z : Serializer V D} {impl : StoreImpl σ}
  {config : CacheConfig} {call : CacheCall V D} {c key : GoString}
  {op : StoreOp} {req : Transport.Request}

/-- A single access, with nothing after it. -/
def Timeline.single (choice : Choice) : Timeline where
  start := choice.clock.start
  finish := choice.clock.finish
  choice
    | 0 => choice
    | _ + 1 => ⟨.instant choice.clock.finish, .answered, fun _ => 0⟩
  ordered
    | 0 => le_rfl
    | _ + 1 => le_rfl
  start_le
    | 0 => le_rfl
    | _ + 1 => choice.clock.start_le_finish
  le_finish
    | 0 => le_rfl
    | _ + 1 => le_rfl

/-! ## A served request -/

/-- A request served at `addr` is the access it stands for, and what the caller
makes of the response is what a local caller makes of the result, up to the
text of an error that has travelled. -/
theorem serve_access {g : Grid σ} {n : CacheNode σ} {addr : GoString}
    (haccess : call.Accesses z config key op req)
    (hnode : g.nodes addr = some n) (hconfig : n.config = config)
    (choice : Choice) :
    ∃ result, Accessed impl g addr (choice.clock, op) result
        (g.serve impl choice addr n req).2 ∧
      ((∀ delta ttl text, op = .incr key delta ttl →
          result.count = .error text → text ≠ []) → addr ≠ c →
        call.fromCall z
            (Transport.checkResponse addr
              (g.serve impl choice addr n req).1) =
          seenFrom (fun _ => addr) c call (call.fromStore z result)) := by
  have hcount : ∀ {count : Except GoString Int64},
      (∀ text, count = .error text → text ≠ []) → addr ≠ c →
      (CacheReply.counter (((Transport.checkResponse addr
          (incrResponse count)).map Transport.Response.intVal).mapError
            .plain) : CacheReply V) =
        carried addr c (.counter (count.mapError .plain)) := by
    intro count htexts hne
    cases count with
    | ok value => rfl
    | error text =>
      simp [Transport.checkResponse, incrResponse, htexts text rfl, carried,
        hne, Except.map, Except.mapError]
  cases haccess with
  | set hkey hdata =>
    rw [serve_set]
    exact ⟨_, accessed_runStore hnode _ _, fun _ _ => rfl⟩
  | get hkey =>
    rw [serve_get]
    refine ⟨_, accessed_runStore hnode _ _, fun _ _ => ?_⟩
    rw [Transport.checkResponse, if_neg (not_not_intro rfl)]
    simp only [CacheCall.fromCall, CacheCall.fetched, seenFrom,
      CacheCall.fromStore]
    cases (n.runStore impl choice.clock (.get key)).1.found <;> rfl
  | delete hkey =>
    obtain ⟨n', hserve, hframe, hstore⟩ :=
      @serve_delete σ impl g addr key n choice
    rw [hserve]
    exact ⟨_, accessed_setNode hnode hframe hstore, fun _ _ => rfl⟩
  | «exists» hkey =>
    rw [serve_exists]
    exact ⟨_, accessed_runStore hnode _ _, fun _ _ => rfl⟩
  | incr hkey =>
    rw [serve_incr, hconfig]
    exact ⟨_, accessed_runStore hnode _ _,
      fun htexts => hcount fun text => htexts _ _ text rfl⟩
  | decr hkey =>
    rw [serve_incr, hconfig]
    exact ⟨_, accessed_runStore hnode _ _,
      fun htexts => hcount fun text => htexts _ _ text rfl⟩

/-! ## The point of a call -/

def Op.inner : Op → Bool
  | .store _ _ => false
  | .call _ _ => false
  | .goCall _ _ => false
  | _ => true

/-- The access to a key by a cache with frame `f`. -/
def Visits (f : Frame) (c key : GoString) (access : StoreOp)
    (req : Transport.Request) (op : Op) : Prop :=
  f.ownerAddr key = [] ∧ op = .store c access ∨ Asks f key req op

/-- A program has ended with what it makes of the answer at its point. -/
def Told {α : Type} (onStore : StoreResult → α)
    (onCall : Except GoString Transport.Response → α) :
    (op : Op) → op.Answer → α → Prop
  | .store _ _, result, value => value = onStore result
  | .call _ _, answer, value => value = onCall answer
  | _, _, _ => False

section Programs

variable {f : Frame} {silent point : Op → Prop}

theorem once_told_bind {α β : Type} {frame : Option Frame}
    {program : Program α} {next : α → Program β} {early : α → Prop}
    {early' : β → Prop} (reply : α → β) {onStore : StoreResult → α}
    {onCall : Except GoString Transport.Response → α}
    (hfirst : PerformsOnce (Consistent frame c) silent point early
      (Told onStore onCall) program)
    (hearly : ∀ value, early value → early' (reply value))
    (hnext : ∀ value, (next value).Performs (Consistent frame c) silent
      (· = reply value)) :
    PerformsOnce (Consistent frame c) silent point early'
      (Told (fun result => reply (onStore result))
        fun answer => reply (onCall answer)) (program >>= next) := by
  refine hfirst.bind (fun value hvalue => ?_) ?_
  · refine performsOnce_of_performs ((hnext value).weaken ?_)
    rintro _ rfl
    exact hearly value hvalue
  · intro op answer value htold
    cases op with
    | store d access =>
      obtain rfl : value = onStore answer := htold
      exact hnext _
    | call addr req =>
      obtain rfl : value = onCall answer := htold
      exact hnext _
    | _ => exact htold.elim

variable (hinner : ∀ {op : Op}, op.inner = true → silent op)

include hinner

theorem ownerAddr_inner (c key : GoString) :
    (ownerAddr c key).Performs (fun _ _ => True) silent fun _ => True := by
  have hread : ∀ {op : Op}, op.inner = true →
      (perform op).Performs (fun _ _ => True) silent fun _ => True :=
    fun hop => (Prog.performs_perform (hinner hop)).weaken fun _ _ => trivial
  exact ownerAddrOver_performs (hread rfl) (hread rfl) fun _ => hread rfl

theorem silent_ownerAddr :
    (ownerAddr c key).Performs (Consistent (some f) c) silent
      (· = f.ownerAddr key) := by
  have hplain : (ownerAddr c key).Performs (Consistent (some f) c)
      (fun _ => True) (· = f.ownerAddr key) :=
    performs_ownerAddr fun _ => trivial
  exact ((hplain.and (ownerAddr_inner hinner c key)).weaken
    fun _ => And.left).mono fun _ => And.right

theorem once_at_owner {α : Type} {early : α → Prop}
    {finish : (op : Op) → op.Answer → α → Prop}
    {remotely : GoString → Program α} {locally : Program α}
    (hremote : f.ownerAddr key ≠ [] → PerformsOnce (Consistent (some f) c)
      silent point early finish (remotely (f.ownerAddr key)))
    (hlocal : f.ownerAddr key = [] → PerformsOnce (Consistent (some f) c)
      silent point early finish locally) :
    PerformsOnce (Consistent (some f) c) silent point early finish
      (do
        let addr ← ownerAddr c key
        if addr ≠ [] then remotely addr else locally) := by
  refine performsOnce_bind (silent_ownerAddr hinner) ?_
  rintro _ rfl
  split
  · exact hremote ‹_›
  · next haddr => exact hlocal (not_not.mp haddr)

theorem performs_loadConfig {α : Type} {next : CacheConfig → Program α}
    {early : α → Prop} {finish : (op : Op) → op.Answer → α → Prop}
    (hnext : PerformsOnce (Consistent (some f) c) silent point early finish
      (next f.config)) :
    PerformsOnce (Consistent (some f) c) silent point early finish
      (perform (.loadConfig c) >>= next) := by
  refine performsOnce_bind (Prog.performs_perform (hinner rfl)) ?_
  intro config hconfig
  obtain ⟨_, hsome, rfl⟩ := hconfig rfl
  obtain rfl := Option.some.inj hsome
  exact hnext

theorem once_distributedSet {data : Bytes} {ttl : Duration}
    (hmode : f.config.mode = .partitioned)
    (hpoint : ∀ op, Visits f c key (.set key data ttl)
      (setRequest key data ttl []) op → point op) :
    PerformsOnce (Consistent (some f) c) silent point (fun _ => False)
      (Told (fun _ => none) errorOf) (distributedSet c key data ttl []) := by
  unfold distributedSet
  refine performs_loadConfig hinner ?_
  rw [hmode]
  refine once_at_owner hinner (fun haddr => ?_) fun haddr => ?_
  · exact performsOnce_point (hpoint _ (Or.inr ⟨haddr, rfl⟩))
      fun _ _ => rfl
  · exact performsOnce_point (hpoint _ (Or.inl ⟨haddr, rfl⟩))
      fun _ _ => rfl

theorem once_distributedGet (hmode : f.config.mode = .partitioned)
    (hpoint : ∀ op, Visits f c key (.get key) (getRequest key) op →
      point op) :
    PerformsOnce (Consistent (some f) c) silent point (fun _ => False)
      (Told StoreResult.found CacheCall.fetched) (distributedGet c key) := by
  unfold distributedGet
  refine performs_loadConfig hinner ?_
  rw [hmode]
  refine once_at_owner hinner (fun haddr => ?_) fun haddr => ?_
  · unfold remoteGet
    refine performsOnce_point (hpoint _ (Or.inr ⟨haddr, rfl⟩))
      fun answer _ => ?_
    cases answer with
    | error text => rfl
    | ok resp =>
      obtain ⟨value, _, found, _, _, _, _, _, _⟩ := resp
      cases found <;> rfl
  · exact performsOnce_point (hpoint _ (Or.inl ⟨haddr, rfl⟩))
      fun _ _ => rfl

theorem once_distributedDelete (hmode : f.config.mode = .partitioned)
    (hpoint : ∀ op, Visits f c key (.delete key) (deleteRequest key) op →
      point op) :
    PerformsOnce (Consistent (some f) c) silent point (fun _ => False)
      (Told (fun _ => ()) fun _ => ()) (distributedDelete c key) := by
  unfold distributedDelete
  refine performs_loadConfig hinner ?_
  rw [hmode]
  refine once_at_owner hinner (fun haddr => ?_) fun haddr => ?_
  · exact performsOnce_point (hpoint _ (Or.inr ⟨haddr, rfl⟩))
      fun _ _ => rfl
  · exact performsOnce_point (hpoint _ (Or.inl ⟨haddr, rfl⟩))
      fun _ _ => rfl

theorem performs_notices {α : Type} {frame : Option Frame}
    {first second : BrokerCall} {next : Program α} {post : α → Prop}
    (hnext : next.Performs (Consistent frame c) silent post) :
    (do
      perform (.broker c first)
      perform (.broker c second)
      next).Performs (Consistent frame c) silent post :=
  (Prog.performs_perform (hinner rfl)).bind fun _ _ =>
    (Prog.performs_perform (hinner rfl)).bind fun _ _ => hnext

variable {frame : Option Frame}
  (hsettled : ∀ f, frame = some f → f.closed = false ∧ f.config = config)

/-- The map gives the same reply, and nothing changes. -/
def Unasked (z : Serializer V D) (config : CacheConfig)
    (call : CacheCall V D) (reply : CacheReply V) : Prop :=
  ∀ full timeline, mapCall z config full (call, timeline) = (reply, full)

/-- The access that the call makes is a point. -/
def Points (z : Serializer V D) (config : CacheConfig)
    (frame : Option Frame) (c : GoString) (call : CacheCall V D)
    (point : Op → Prop) : Prop :=
  ∀ f, frame = some f → ∀ key access req,
    call.Accesses z config key access req →
    ∀ op, Visits f c key access req op → point op

include hsettled

theorem once_keyed {α : Type} {early : α → Prop}
    {finish : (op : Op) → op.Answer → α → Prop}
    {empty closed next : Program α}
    (hempty : key = [] → PerformsOnce (Consistent frame c) silent point early
      finish empty)
    (hnext : key ≠ [] → ∀ f, frame = some f → f.config = config →
      PerformsOnce (Consistent (some f) c) silent point early finish next) :
    PerformsOnce (Consistent frame c) silent point early finish
      (if key = [] then empty
        else do if ← perform (.loadClosed c) then closed else next) := by
  split
  · next hkey => exact hempty hkey
  · next hkey =>
      refine performsOnce_bind (Prog.performs_perform (hinner rfl)) ?_
      intro answer hanswer
      obtain ⟨f, rfl, rfl⟩ := hanswer rfl
      obtain ⟨hopen, hconfig⟩ := hsettled f rfl
      rw [hopen]
      exact hnext hkey f rfl hconfig

theorem once_set {value : GoValue V} {lifetime : Duration}
    (hmode : config.mode = .partitioned)
    (hpoint : Points z config frame c (.set key value lifetime) point) :
    PerformsOnce (Consistent frame c) silent point
      (fun error => Unasked z config (.set key value lifetime) (.stored error))
      (Told (fun _ => none) fun answer => (errorOf answer).map .plain)
      (set z c key value lifetime) := by
  refine once_keyed hinner hsettled ?_ ?_
  · intro hkey full timeline
    simp [mapCall, hkey]
  · rintro hkey f hf rfl
    cases hdata : z.serialize value with
    | error cause =>
      intro full timeline
      simp [mapCall, hkey, hdata]
    | ok data =>
      refine performs_loadConfig hinner ?_
      refine once_told_bind (Option.map CacheError.plain)
        (once_distributedSet hinner hmode
          (hpoint f hf _ _ _ (.set hkey hdata)))
        (fun _ hnever => hnever.elim) fun error => ?_
      cases error with
      | some text => rfl
      | none => exact performs_notices hinner rfl

theorem once_get {dest : Dest D} (hmode : config.mode = .partitioned)
    (hpoint : Points z config frame c (.get key dest) point) :
    PerformsOnce (Consistent frame c) silent point
      (fun value => Unasked z config (.get key dest) (.got value))
      (Told (fun result => result.found.bind fun data =>
          (z.deserialize data dest).toOption)
        fun answer => (CacheCall.fetched answer).bind fun data =>
          (z.deserialize data dest).toOption)
      (get z c key dest) := by
  refine once_keyed hinner hsettled ?_ ?_
  · intro hkey full timeline
    simp [mapCall, hkey]
  · rintro hkey f hf rfl
    refine once_told_bind
      (fun found => found.bind fun data => (z.deserialize data dest).toOption)
      (once_distributedGet hinner hmode (hpoint f hf _ _ _ (.get hkey)))
      (fun _ hnever => hnever.elim) fun found => ?_
    cases found with
    | none => exact (Prog.performs_perform (hinner rfl)).bind fun _ _ => rfl
    | some data =>
      dsimp only [Option.bind_some]
      cases z.deserialize data dest with
      | error cause => rfl
      | ok value =>
        exact (Prog.performs_perform (hinner rfl)).bind fun _ _ => rfl

theorem once_delete (hmode : config.mode = .partitioned)
    (hpoint : Points z config frame c (.delete key) point) :
    PerformsOnce (Consistent frame c) silent point
      (fun _ => Unasked z config (.delete key) .done)
      (Told (fun _ => ()) fun _ => ()) (delete c key) := by
  refine once_keyed hinner hsettled ?_ ?_
  · intro hkey full timeline
    simp [mapCall, hkey]
  · rintro hkey f hf rfl
    exact once_told_bind (fun _ => ()) (once_distributedDelete hinner hmode
      (hpoint f hf _ _ _ (.delete hkey))) (fun _ hnever => hnever.elim)
      fun _ => performs_notices hinner ⟨hinner rfl, fun _ _ => rfl⟩

theorem once_exists
    (hpoint : Points z config frame c (.exists key) point) :
    PerformsOnce (Consistent frame c) silent point
      (fun ok => Unasked z config (.exists key) (.present ok))
      (Told StoreResult.ok fun answer =>
        (answer.map Transport.Response.ok).toOption.getD false)
      («exists» c key) := by
  refine once_keyed hinner hsettled ?_ ?_
  · intro hkey full timeline
    simp [mapCall, hkey]
  · intro hkey f hf _
    have hpoint := hpoint f hf _ _ _ (.exists hkey)
    refine once_at_owner hinner (fun haddr => ?_) fun haddr => ?_
    · unfold remoteExists
      refine performsOnce_point (hpoint _ (Or.inr ⟨haddr, rfl⟩))
        fun answer _ => ?_
      cases answer <;> rfl
    · exact performsOnce_point (hpoint _ (Or.inl ⟨haddr, rfl⟩))
        fun _ _ => rfl

theorem once_incrBy {delta : Int64}
    (hempty : key = [] → Unasked z config call (.counter (.error .keyEmpty)))
    (haccess : key ≠ [] → call.Accesses z config key
      (.incr key delta config.defaultTTL) (incrRequest key delta))
    (hpoint : Points z config frame c call point) :
    PerformsOnce (Consistent frame c) silent point
      (fun result => Unasked z config call (.counter result))
      (Told (fun result => result.count.mapError .plain) fun answer =>
        (answer.map Transport.Response.intVal).mapError .plain)
      (incrBy c key delta) := by
  refine once_keyed hinner hsettled hempty ?_
  rintro hkey f hf rfl
  have hpoint := hpoint f hf _ _ _ (haccess hkey)
  refine once_at_owner hinner (fun haddr => ?_) fun haddr => ?_
  · unfold remoteIncr
    refine performsOnce_point (hpoint _ (Or.inr ⟨haddr, rfl⟩))
      fun answer _ => ?_
    cases answer <;> rfl
  · refine performs_loadConfig hinner ?_
    exact performsOnce_point (hpoint _ (Or.inl ⟨haddr, rfl⟩))
      fun _ _ => rfl

theorem once_program (hmode : config.mode = .partitioned)
    (hrouted : call.routed = true)
    (hpoint : Points z config frame c call point) :
    PerformsOnce (Consistent frame c) silent point (Unasked z config call)
      (Told (call.fromStore z) (call.fromCall z)) (call.program z c) := by
  have hreturn {α : Type} {program : Program α} {reply : α → CacheReply V}
      {onStore : StoreResult → α}
      {onCall : Except GoString Transport.Response → α}
      (hprogram : PerformsOnce (Consistent frame c) silent point
        (fun value => Unasked z config call (reply value))
        (Told onStore onCall) program) :
      PerformsOnce (Consistent frame c) silent point (Unasked z config call)
        (Told (fun result => reply (onStore result))
          fun answer => reply (onCall answer)) (reply <$> program) :=
    once_told_bind reply hprogram (fun _ hearly => hearly) fun _ => rfl
  cases call with
  | set key value lifetime =>
    exact hreturn (once_set hinner hsettled hmode hpoint)
  | get key dest => exact hreturn (once_get hinner hsettled hmode hpoint)
  | delete key => exact hreturn (once_delete hinner hsettled hmode hpoint)
  | «exists» key => exact hreturn (once_exists hinner hsettled hpoint)
  | ttl key => contradiction
  | mget keys => contradiction
  | incr key delta =>
    refine hreturn (once_incrBy hinner hsettled ?_ .incr hpoint)
    intro hkey full timeline
    simp [mapCall, mapIncr, hkey]
  | decr key delta =>
    refine hreturn (once_incrBy hinner hsettled ?_ .decr hpoint)
    intro hkey full timeline
    simp [mapCall, mapIncr, hkey]

def Looks (f : Frame) (c : GoString) (op : Op) : Prop :=
  (∃ key, op = .store c (.ttl key)) ∨
    ∃ key, Visits f c key (.get key) (getRequest key) op

omit hsettled in
theorem looking_mgetLoop (hmode : f.config.mode = .partitioned)
    (hlooks : ∀ op, Looks f c op → silent op) (keys : List GoString)
    (results : List (GoString × Bytes)) :
    (mgetLoop c results keys).Performs (Consistent (some f) c) silent
      fun _ => True := by
  induction keys generalizing results with
  | nil => trivial
  | cons key keys ih =>
    unfold mgetLoop
    split
    · exact ih results
    · have hget := (once_distributedGet hinner hmode fun op hvisits =>
        hlooks op (Or.inr ⟨key, hvisits⟩)).performs fun _ hop => hop
      refine hget.bind fun found _ => ?_
      cases found <;> exact ih _

theorem performs_looking (hmode : config.mode = .partitioned)
    (hrouted : call.routed = false)
    (hlooks : ∀ f, frame = some f → ∀ op, Looks f c op → silent op) :
    (call.program z c).Performs (Consistent frame c) silent
      fun reply => call.routed = true → Unasked z config call reply := by
  cases call with
  | ttl key =>
    have httl : PerformsOnce (Consistent frame c) silent silent
        (fun _ => True) (fun _ _ _ => True) (ttl c key) :=
      once_keyed hinner hsettled (fun _ => trivial) fun _ f hf _ =>
        performsOnce_point (hlooks f hf _ (Or.inl ⟨key, rfl⟩))
          fun _ _ => trivial
    exact (httl.performs fun _ hop => hop).map fun _ _ htrue =>
      absurd htrue Bool.false_ne_true
  | mget keys =>
    have hmget : (mget c keys).Performs (Consistent frame c) silent
        fun _ => True := by
      refine (Prog.performs_perform (hinner rfl)).bind ?_
      intro answer hanswer
      obtain ⟨f, rfl, _⟩ := hanswer rfl
      obtain ⟨_, rfl⟩ := hsettled f rfl
      split
      · trivial
      · exact looking_mgetLoop hinner hmode (hlooks f rfl) keys []
    exact hmget.map fun _ _ htrue => absurd htrue Bool.false_ne_true
  | _ => contradiction

end Programs

/-! ## The cluster implements the map -/

section Cluster

variable {ι : Type} {good : σ → Prop}
  {contents : σ → Contents GoString Bytes} {owner : GoString → GoString}
  {start : Grid σ} {calls : ι → GoString × CacheCall V D} {reliable : Bool}

/-- No cache starts, stops or changes its view of the cluster; in a reliable
run every RPC is answered. -/
def Steady (reliable : Bool) : Label ι Choice (Env σ) → Prop
  | .thread _ choice => reliable = true → choice.rpc = .answered
  | .env event => event.steady = true

/-- What a cache returns, if the map replies `told` to the call at its
point. -/
def Explains (z : Serializer V D) (owner : GoString → GoString)
    (reliable : Bool) (call : GoString × CacheCall V D) (told reply : CacheReply V) : Prop :=
  reply = seenFrom owner call.1 call.2 told ∨
    reliable = false ∧ call.2.Failed z reply

def callRoles (z : Serializer V D) (config : CacheConfig)
    (owner : GoString → GoString) (start : Grid σ) (reliable : Bool)
    (calls : ι → GoString × CacheCall V D) :
    Roles ι signature (CacheCall V D × Timeline) (CacheReply V)
      (CacheReply V) where
  possible := fun i => Consistent (start.frame (calls i).1) (calls i).1
  silent := fun i op => op.inner = true ∨ (calls i).2.routed = false ∧
    ∃ f, start.frame (calls i).1 = some f ∧ Looks f (calls i).1 op
  point := fun i op => ∃ f, start.frame (calls i).1 = some f ∧
    ∃ key access req, (calls i).2.Accesses z config key access req ∧
      Visits f (calls i).1 key access req op
  takes := fun i op answer call told => call.1 = (calls i).2 ∧
    ∀ reply, Told ((calls i).2.fromStore z) ((calls i).2.fromCall z) op answer
      reply → Explains z owner reliable (calls i) told reply
  misses := fun i op answer => reliable = false ∧
    ∀ reply, Told ((calls i).2.fromStore z) ((calls i).2.fromCall z) op answer
      reply → (calls i).2.Failed z reply
  early := fun i reply => (calls i).2.routed = true →
    Unasked z config (calls i).2 reply
  finish := fun i =>
    Told ((calls i).2.fromStore z) ((calls i).2.fromCall z)

/-! ### One step -/

theorem same_of_onNode {α : Type} {g after : Grid σ}
    {method : CacheNode σ → α × CacheNode σ} {answer : α}
    (hmethod : ∀ n, (method n).2.frame = n.frame ∧
      (method n).2.store = n.store)
    (hexec : g.onNode c method = some (answer, after)) : Same g after := by
  obtain ⟨n, hnode, _, rfl⟩ := onNode_cases hexec
  exact same_setNode hnode (hmethod n).1 (hmethod n).2

theorem same_of_onNodeRead {α : Type} {g after : Grid σ}
    {method : CacheNode σ → α} {answer : α}
    (hexec : g.onNodeRead c method = some (answer, after)) : Same g after := by
  obtain ⟨_, _, _, rfl⟩ := onNodeRead_cases hexec
  exact Same.refl after

theorem same_of_inner {g after : Grid σ} {op : Op} {choice : Choice}
    {answer : op.Answer} (hinner : op.inner = true)
    (hexec : (machine impl).exec g op choice = some (answer, after)) :
    Same g after := by
  cases op with
  | store d access => contradiction
  | call addr req => contradiction
  | goCall addr req => contradiction
  | tagsRemove d key => exact same_of_onNode (fun _ => ⟨rfl, rfl⟩) hexec
  | tagsAdd d key tags => exact same_of_onNode (fun _ => ⟨rfl, rfl⟩) hexec
  | broker d notice => exact same_of_onNode (fun _ => ⟨rfl, rfl⟩) hexec
  | _ => exact same_of_onNodeRead hexec

theorem served_of_answered {g : Grid σ} {addr : GoString} {n : CacheNode σ}
    {choice : Choice} (hnode : g.nodes addr = some n)
    (hopen : n.closed = false) (hanswered : choice.rpc = .answered) :
    g.server addr choice = some n := by
  simp only [server, hanswered, listener_of_node hnode hopen]

theorem seenFrom_eq (haccess : call.Accesses z config key op req)
    (reply : CacheReply V) :
    seenFrom (fun _ => owner key) c call reply =
      seenFrom owner c call reply := by
  cases haccess <;> rfl

theorem seenFrom_self (haccess : call.Accesses z config key op req)
    (howner : owner key = c) (reply : CacheReply V) :
    seenFrom owner c call reply = reply := by
  have hcarried : carried (owner key) c reply = reply := by
    unfold carried
    split
    · rw [if_pos howner]
    · rfl
  cases haccess with
  | incr hkey => exact hcarried
  | decr hkey => exact hcarried
  | _ => rfl

variable {s after : Clocked σ} {full : Contents GoString Bytes}
  {choice : Choice}

section Points

variable (hlaw : KeepsLedger impl z.toMsgpack good contents)
  (hspread : Spread good contents owner config start s full)

include hlaw hspread

theorem Spread.point (haccess : call.Accesses z config key op req)
    {result : StoreResult}
    (htick : s.tick (some (owner key, choice.clock)) = some after.clocks)
    (haccessed : Accessed impl s.grid (owner key) (choice.clock, op) result
      after.grid) :
    Spread good contents owner config start after
        (mapCall z config full (call, .single choice)).2 ∧
      call.fromStore z result =
        (mapCall z config full (call, .single choice)).1 := by
  obtain ⟨hresult, hafter⟩ :=
    hspread.access hlaw htick haccess.key? haccessed
  rw [haccess.mapCall_eq]
  exact ⟨hafter, haccess.fromStore_congr hresult⟩

theorem Spread.error_ne (htexts : z.toMsgpack.ErrorsHaveText)
    {delta : Int64} {ttl : Duration} {result : StoreResult}
    (haccessed : Accessed impl s.grid c (choice.clock, .incr key delta ttl)
      result after.grid) {text : GoString}
    (herror : result.count = .error text) : text ≠ [] := by
  obtain ⟨st, hstore, hresult, _⟩ := haccessed.cases
  rw [hresult, hlaw.result_eq (hspread.good_store hstore) rfl] at herror
  exact cellStep_incr_error_ne htexts herror

theorem Spread.looks {f : Frame} {op : Op} (hlooks : Looks f c op) {answer : op.Answer}
    (hexec : (Clocked.machine impl).exec s op choice =
      some (answer, after)) :
    Spread good contents owner config start after full := by
  obtain ⟨htick, hgrid⟩ := Clocked.exec_cases hexec
  rcases hlooks with ⟨key, rfl⟩ | ⟨key, ⟨_, rfl⟩ | ⟨_, rfl⟩⟩
  · exact hspread.read hlaw htick rfl rfl (accessed_of_exec hgrid)
  · exact hspread.read hlaw htick rfl rfl (accessed_of_exec hgrid)
  · rcases exec_call_cases hgrid with ⟨_, hsame, _⟩ |
      ⟨n, _, hnode, hafter, _⟩
    · exact hspread.same (hsame ▸ Same.refl _) (Clocked.tick_le htick)
    · have haccessed : Accessed impl s.grid (f.ownerAddr key)
          (choice.clock, .get key) (n.runStore impl choice.clock (.get key)).1
          after.grid := by
        rw [hafter, serve_get]
        exact accessed_runStore hnode choice.clock (.get key)
      exact hspread.read hlaw htick rfl rfl haccessed

/-- At its point a call takes effect on the map, unless its RPC is lost. -/
theorem Spread.visits (htexts : z.toMsgpack.ErrorsHaveText) {f : Frame}
    (hframe : start.frame c = some f) {access : StoreOp}
    (haccess : call.Accesses z config key access req) {op : Op}
    (hvisits : Visits f c key access req op) {answer : op.Answer}
    (hreliable : reliable = true → choice.rpc = .answered)
    (hexec : (Clocked.machine impl).exec s op choice =
      some (answer, after)) :
    (∃ timeline, Spread good contents owner config start after
          (mapCall z config full (call, timeline)).2 ∧
        ∀ reply, Told (call.fromStore z) (call.fromCall z) op answer reply →
          Explains z owner reliable (c, call)
            (mapCall z config full (call, timeline)).1 reply) ∨
      Spread good contents owner config start after full ∧
        reliable = false ∧
        ∀ reply, Told (call.fromStore z) (call.fromCall z) op answer reply →
          call.Failed z reply := by
  obtain ⟨htick, hgrid⟩ := Clocked.exec_cases hexec
  have hframe' : s.grid.frame c = some f := hspread.frame_eq ▸ hframe
  obtain ⟨n, hnode, rfl⟩ := Option.map_eq_some_iff.mp hframe'
  have hlocal := hspread.stable.ownerAddr_eq_nil_iff hnode key
  rcases hvisits with ⟨haddr, rfl⟩ | ⟨haddr, rfl⟩
  · -- The cache owns the key.
    have howner := hlocal.mp haddr
    have haccessed := accessed_of_exec hgrid
    rw [← howner] at haccessed htick
    obtain ⟨hafter, htold⟩ := hspread.point hlaw haccess htick haccessed
    refine Or.inl ⟨.single choice, hafter, ?_⟩
    rintro reply rfl
    refine Or.inl ?_
    rw [htold, seenFrom_self haccess howner]
  · have howner : owner key ≠ c := mt hlocal.mpr haddr
    rw [hspread.stable.ownerAddr_eq hnode howner] at hgrid htick
    rcases exec_call_cases hgrid with ⟨hserver, hsame, text, rfl⟩ |
      ⟨m, _, howns, hafter, hanswer⟩
    · refine Or.inr ⟨hspread.same (hsame ▸ Same.refl _)
        (Clocked.tick_le htick), ?_, ?_⟩
      · by_contra hlossless
        obtain ⟨m, howns, hopen⟩ := hspread.stable.owner_node key
        have hserved := served_of_answered howns hopen
          (hreliable (by simpa using hlossless))
        rw [hserver] at hserved
        contradiction
      · rintro reply rfl
        exact ⟨text, rfl⟩
    · obtain ⟨result, haccessed, hreply⟩ := @serve_access σ V D z impl config
        call c key access req s.grid m (owner key) haccess howns
        (hspread.config_eq (frame_of_node howns)) choice
      rw [← hafter] at haccessed
      obtain ⟨hspread', htold⟩ := hspread.point hlaw haccess htick haccessed
      refine Or.inl ⟨.single choice, hspread', ?_⟩
      rcases hanswer with ⟨_, rfl⟩ | ⟨text, hrpc, rfl⟩
      · rintro reply rfl
        refine Or.inl ?_
        rw [← htold, ← seenFrom_eq haccess]
        refine hreply (fun delta ttl text hop herror => ?_) howner
        subst hop
        exact hspread.error_ne hlaw htexts haccessed herror
      · rintro reply rfl
        refine Or.inr ⟨?_, ⟨text, rfl⟩⟩
        by_contra hlossless
        rw [hreliable (by simpa using hlossless)] at hrpc
        contradiction

end Points

theorem implements_map (hlaw : KeepsLedger impl z.toMsgpack good contents)
    (htexts : z.toMsgpack.ErrorsHaveText)
    (calls : ι → GoString × CacheCall V D) :
    Implements (Clocked.machine impl) (Steady reliable) (mapCall z config)
      (Spread good contents owner config start)
      (callRoles z config owner start reliable calls) where
  answers := by
    intro s full i op choice answer after hspread hexec
    have hconsistent := exec_consistent (calls i).1
      (Clocked.exec_cases hexec).2
    rwa [hspread.frame_eq] at hconsistent
  silent := by
    intro s full i op choice answer after hspread _ hsilent hexec
    rcases hsilent with hinner | ⟨_, f, _, hlooks⟩
    · obtain ⟨htick, hgrid⟩ := Clocked.exec_cases hexec
      exact hspread.same (same_of_inner hinner hgrid) (Clocked.tick_le htick)
    · exact hspread.looks hlaw hlooks hexec
  point := by
    intro s full i op choice answer after hspread hreliable hpoint hexec
    obtain ⟨f, hframe, key, access, req, haccess, hvisits⟩ := hpoint
    rcases hspread.visits hlaw htexts hframe haccess hvisits hreliable hexec
      with ⟨timeline, hafter, hexplains⟩ | ⟨hafter, hmisses⟩
    · exact Or.inl ⟨((calls i).2, timeline), hafter, rfl, hexplains⟩
    · exact Or.inr ⟨hafter, hmisses⟩
  env := fun hspread hsteady hstep => hspread.env hlaw hsteady hstep

theorem callRoles_waits (hmode : config.mode = .partitioned)
    (hsettled : ∀ {c f}, start.frame c = some f →
      f.closed = false ∧ f.config = config)
    (calls : ι → GoString × CacheCall V D) (i : ι) :
    (callRoles z config owner start reliable calls).Waits i
      ((calls i).2.program z (calls i).1) := by
  cases hrouted : (calls i).2.routed with
  | true =>
    exact (once_program (fun hop => Or.inl hop) (fun f hf => hsettled hf)
      hmode hrouted fun f hf key access req haccess op hvisits =>
        ⟨f, hf, key, access, req, haccess, hvisits⟩).weaken
      fun _ hunasked _ => hunasked
  | false =>
    exact performsOnce_of_performs (performs_looking
      (fun hop => Or.inl hop) (fun f hf => hsettled hf) hmode hrouted
      fun f hf op hlooks => Or.inr ⟨hrouted, f, hf, hlooks⟩)

theorem linearized_calls [DecidableEq ι]
    (hlaw : KeepsLedger impl z.toMsgpack good contents)
    (htexts : z.toMsgpack.ErrorsHaveText)
    (hmode : config.mode = .partitioned) {clocks : GoString → ℤ}
    (hstart : Spread good contents owner config start ⟨start, clocks⟩ full)
    (calls : ι → GoString × CacheCall V D)
    {run : InterleavedPrograms.Config ι signature (Clocked σ) (CacheReply V)}
    (hreach : Config.Reaches (Clocked.machine impl)
      (fun _ => Steady reliable)
      (Config.start ⟨start, clocks⟩
        fun i => (calls i).2.program z (calls i).1) run) :
    ∃ order, Linearized (mapCall z config)
      (Spread good contents owner config start)
      (callRoles z config owner start reliable calls) full order run := by
  have himpl : Implements (Clocked.machine impl) (Steady reliable)
      (mapCall z config) (Spread good contents owner config start)
      (callRoles z config owner start reliable calls) :=
    implements_map hlaw htexts calls
  exact himpl.linearized hstart (callRoles_waits hmode (fun hf =>
    ⟨hstart.stable.running hf, hstart.config_eq hf⟩) calls) hreach

end Cluster

end Grid

end CacheGrid
