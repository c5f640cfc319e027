import CacheGrid.GridCluster
import CacheGrid.StoreLaws

/-!
# The map that a partitioned cluster holds

The stores of a partitioned cluster together hold one map: every key is on its
owner and nowhere else, and what the owner's store has dropped was dead.  A
call on any cache is a call on that map.  The only trace of the distribution
is the text of an error that has travelled.
-/

namespace CacheGrid

open InterleavedPrograms SequentialRuns TimedMap

/-! ## One map -/

variable {clock : Readings} {op : StoreOp}

section OneMap

variable {V D : Type}

def mapAccess (codec : Msgpack) (contents : Contents GoString Bytes)
    (clock : Readings) (op : StoreOp) (key : GoString) :
    StoreResult × Contents GoString Bytes :=
  let next := cellStep codec clock op (contents key)
  (next.1, Function.update contents key next.2)

def mapMGet (codec : Msgpack) (results : List (GoString × Bytes)) :
    List GoString → (ℕ → Grid.Choice) → Contents GoString Bytes →
      List (GoString × Bytes) × Contents GoString Bytes
  | [], _, contents => (results, contents)
  | key :: keys, choices, contents =>
    if key = [] then mapMGet codec results keys choices contents
    else
      let r := mapAccess codec contents (choices 0).clock (.get key) key
      match r.1.found with
      | none => mapMGet codec results keys (later choices) r.2
      | some data =>
        mapMGet codec (Grid.putValue results key data) keys
          (later choices) r.2

def mapIncr (codec : Msgpack) (config : CacheConfig)
    (contents : Contents GoString Bytes) (clock : Readings)
    (key : GoString) (delta : Int64) :
    CacheReply V × Contents GoString Bytes :=
  if key = [] then (.counter (.error .keyEmpty), contents)
  else
    let r := mapAccess codec contents clock
      (.incr key delta config.defaultTTL) key
    (.counter (r.1.count.mapError .plain), r.2)

/-- What a call is for: its answer and its effect on one map that never drops
a record. -/
def mapCall (z : Serializer V D) (config : CacheConfig)
    (contents : Contents GoString Bytes) :
    CacheCall V D × Grid.Timeline → CacheReply V × Contents GoString Bytes
  | (.set key value ttl, timeline) =>
    if key = [] then (.stored (some .keyEmpty), contents)
    else
      match z.serialize value with
      | .error cause =>
        (.stored (some (.serializationFailed cause)), contents)
      | .ok data =>
        (.stored none, (mapAccess z.toMsgpack contents
          (timeline.choice 0).clock
          (.set key data (config.effectiveTTL ttl)) key).2)
  | (.get key dest, timeline) =>
    if key = [] then (.got none, contents)
    else
      let r := mapAccess z.toMsgpack contents (timeline.choice 0).clock
        (.get key) key
      (.got (r.1.found.bind fun data =>
        (z.deserialize data dest).toOption), r.2)
  | (.delete key, timeline) =>
    if key = [] then (.done, contents)
    else
      (.done, (mapAccess z.toMsgpack contents (timeline.choice 0).clock
        (.delete key) key).2)
  | (.exists key, timeline) =>
    if key = [] then (.present false, contents)
    else
      let r := mapAccess z.toMsgpack contents (timeline.choice 0).clock
        (.exists key) key
      (.present r.1.ok, r.2)
  | (.ttl key, timeline) =>
    if key = [] then (.remaining 0, contents)
    else
      let r := mapAccess z.toMsgpack contents (timeline.choice 0).clock
        (.ttl key) key
      (.remaining r.1.ttl, r.2)
  | (.mget keys, timeline) =>
    let r := mapMGet z.toMsgpack [] keys timeline.choice contents
    (.values r.1, r.2)
  | (.incr key delta, timeline) =>
    mapIncr z.toMsgpack config contents (timeline.choice 0).clock key delta
  | (.decr key delta, timeline) =>
    mapIncr z.toMsgpack config contents (timeline.choice 0).clock key
      (-delta)

theorem cellStep_alive (codec : Msgpack) (clock : Readings) {key : GoString}
    (hkey : op.key? = some key) (hdelete : op ≠ .delete key) (cell : Cell) :
    cellStep codec clock op cell = cellStep codec clock op
      (cell.filter fun r => !r.dead (clock.now 0)) := by
  cases cell with
  | none => rfl
  | some r =>
    cases hdead : r.dead (clock.now 0) with
    | false => simp [Option.filter, hdead]
    | true =>
      have hfilter : (some r).filter
          (fun r : Record Bytes => !r.dead (clock.now 0)) = none := by
        simp [Option.filter, hdead]
      rw [hfilter]
      cases op with
      | get k => simp [cellStep, hdead]
      | set k value ttl => rfl
      | delete k =>
        obtain rfl := Option.some.inj hkey
        exact absurd rfl hdelete
      | «exists» k => simp [cellStep, hdead]
      | ttl k => simp [cellStep, hdead]
      | incr k delta ttl => simp [cellStep, hdead]
      | deleteExpired => simp [StoreOp.key?] at hkey

theorem cellStep_sameFrom (codec : Msgpack) {now : ℤ}
    (hstart : now ≤ clock.start) {key : GoString} (hkey : op.key? = some key)
    {cell other : Cell} (hsame : SameFrom now cell other) :
    (op ≠ .delete key → (cellStep codec clock op cell).1 =
        (cellStep codec clock op other).1) ∧
      SameFrom clock.finish (cellStep codec clock op cell).2
        (cellStep codec clock op other).2 := by
  by_cases hdelete : op = .delete key
  · subst hdelete
    exact ⟨fun hne => absurd rfl hne, SameFrom.refl _ none⟩
  · have heq : cellStep codec clock op cell =
        cellStep codec clock op other := by
      rw [cellStep_alive codec clock hkey hdelete cell,
        cellStep_alive codec clock hkey hdelete other,
        hsame _ (hstart.trans (clock.start_le 0))]
    rw [heq]
    exact ⟨fun _ => rfl, SameFrom.refl _ _⟩

end OneMap

namespace Grid

/-! ## The map that a cluster holds -/

section Represents

variable {σ V D : Type} {impl : StoreImpl σ} {z : Serializer V D}
  {good : σ → Prop} {contents : σ → Contents GoString Bytes}
  {owner : GoString → GoString} {config : CacheConfig} {now later : ℤ}
  {start g after : Grid σ} {full : Contents GoString Bytes}
  {c key : GoString} {n : CacheNode σ}

/-- At `now`, the stores of a partitioned cluster hold `full`, up to dead
records: each key on its owner, and nowhere else.  Since the start, no frame
has changed. -/
structure Represents (good : σ → Prop)
    (contents : σ → Contents GoString Bytes) (owner : GoString → GoString)
    (config : CacheConfig) (start : Grid σ) (now : ℤ) (g : Grid σ)
    (full : Contents GoString Bytes) : Prop where
  frame_eq : g.frame = start.frame
  stable : g.Stable owner
  config_eq : ∀ {c f}, g.frame c = some f → f.config = config
  good_store : ∀ {c s}, g.stores c = some s → good s
  held : ∀ {s} key, g.stores (owner key) = some s →
    SameFrom now (contents s key) (full key)
  nowhere_else : ∀ {c s} key, g.stores c = some s → c ≠ owner key →
    contents s key = none

theorem Represents.mono
    (hrep : Represents good contents owner config start now g full)
    (hle : now ≤ later) :
    Represents good contents owner config start later g full where
  frame_eq := hrep.frame_eq
  stable := hrep.stable
  config_eq := hrep.config_eq
  good_store := hrep.good_store
  held := fun key hstore => (hrep.held key hstore).mono hle
  nowhere_else := hrep.nowhere_else

theorem Represents.same
    (hrep : Represents good contents owner config start now g full)
    (hsame : Same g after) :
    Represents good contents owner config start now after full where
  frame_eq := hsame.frame_eq.trans hrep.frame_eq
  stable := hrep.stable.of_frame_eq hsame.frame_eq
  config_eq := fun hf => hrep.config_eq (congrFun hsame.frame_eq _ ▸ hf)
  good_store := fun hs => hrep.good_store (congrFun hsame.stores_eq _ ▸ hs)
  held := fun key hs => hrep.held key (congrFun hsame.stores_eq _ ▸ hs)
  nowhere_else := fun key hs =>
    hrep.nowhere_else key (congrFun hsame.stores_eq _ ▸ hs)

theorem Represents.access
    (hrep : Represents good contents owner config start now g full)
    (hlaw : KeepsLedger impl z.toMsgpack good contents)
    (hstart : now ≤ clock.start) (hkey : op.key? = some key)
    {result : StoreResult}
    (haccess : Accessed impl g (owner key) (clock, op) result after) :
    (op ≠ .delete key →
        result = (mapAccess z.toMsgpack full clock op key).1) ∧
      Represents good contents owner config start clock.finish after
        (mapAccess z.toMsgpack full clock op key).2 := by
  obtain ⟨s, hstore, hresult, hcases⟩ := haccess.cases
  have hgood := hrep.good_store hstore
  obtain ⟨hanswer, hcell⟩ := cellStep_sameFrom z.toMsgpack hstart hkey
    (hrep.held key hstore)
  have hle : now ≤ clock.finish := hstart.trans clock.start_le_finish
  have hcontents : contents (impl.call s (clock, op)).2 =
      Function.update (contents s) key
        (cellStep z.toMsgpack clock op (contents s key)).2 :=
    hlaw.contents_eq hgood hkey
  refine ⟨fun hdelete => ?_, ?_⟩
  · rw [hresult, hlaw.result_eq hgood hkey]
    exact hanswer hdelete
  · -- the store at the owner has changed under the key, the others not at all
    constructor
    · exact haccess.frame_eq.trans hrep.frame_eq
    · exact hrep.stable.of_frame_eq haccess.frame_eq
    · exact fun hf => hrep.config_eq (congrFun haccess.frame_eq _ ▸ hf)
    · intro c s' hs'
      rcases hcases hs' with ⟨rfl, rfl⟩ | ⟨_, hold⟩
      · exact hlaw.good_call hgood _
      · exact hrep.good_store hold
    · intro s' other hs'
      simp only [mapAccess]
      rcases hcases hs' with ⟨howner, rfl⟩ | ⟨hne, hold⟩
      · rw [hcontents]
        by_cases hother : other = key
        · subst other
          simpa only [Function.update_self] using hcell
        · rw [Function.update_of_ne hother, Function.update_of_ne hother]
          exact (hrep.held other (howner ▸ hstore)).mono hle
      · have hother : other ≠ key := by
          rintro rfl
          exact hne rfl
        rw [Function.update_of_ne hother]
        exact (hrep.held other hold).mono hle
    · intro c s' other hs' hne
      rcases hcases hs' with ⟨rfl, rfl⟩ | ⟨_, hold⟩
      · have hother : other ≠ key := by
          rintro rfl
          exact hne rfl
        rw [hcontents, Function.update_of_ne hother]
        exact hrep.nowhere_else other hstore hne
      · exact hrep.nowhere_else other hold hne

theorem Represents.sweep
    (hrep : Represents good contents owner config start now g full)
    (hlaw : KeepsLedger impl z.toMsgpack good contents)
    (hstart : now ≤ clock.start) {result : StoreResult}
    (haccess : Accessed impl g c (clock, .deleteExpired) result after) :
    Represents good contents owner config start clock.finish after full := by
  obtain ⟨s, hstore, _, hcases⟩ := haccess.cases
  have hgood := hrep.good_store hstore
  have hle : now ≤ clock.finish := hstart.trans clock.start_le_finish
  constructor
  · exact haccess.frame_eq.trans hrep.frame_eq
  · exact hrep.stable.of_frame_eq haccess.frame_eq
  · exact fun hf => hrep.config_eq (congrFun haccess.frame_eq _ ▸ hf)
  · intro d s' hs'
    rcases hcases hs' with ⟨rfl, rfl⟩ | ⟨_, hold⟩
    · exact hlaw.good_call hgood _
    · exact hrep.good_store hold
  · intro s' key hs'
    rcases hcases hs' with ⟨howner, rfl⟩ | ⟨_, hold⟩
    · have hheld := (hrep.held key (howner ▸ hstore)).mono hle
      rcases hlaw.swept hgood clock key with hkept | ⟨hnone, hdead⟩
      · rwa [hkept]
      · rw [hnone]
        exact hheld.drop hdead
    · exact (hrep.held key hold).mono hle
  · intro d s' key hs' hne
    rcases hcases hs' with ⟨rfl, rfl⟩ | ⟨_, hold⟩
    · have hnone := hrep.nowhere_else key hstore hne
      rcases hlaw.swept hgood clock key with hkept | ⟨hgone, _⟩
      · rw [hkept, hnone]
      · exact hgone
    · exact hrep.nowhere_else key hold hne

end Represents

/-! ## The calls -/

/-- The accesses come one after the other, between `now` and `finish`, and
every RPC is answered. -/
structure Paced (now finish : ℤ) (choices : ℕ → Choice) : Prop where
  first : now ≤ (choices 0).clock.start
  ordered : ∀ i,
    (choices i).clock.finish ≤ (choices (i + 1)).clock.start
  le_finish : ∀ i, (choices i).clock.finish ≤ finish
  answered : ∀ i, (choices i).rpc = .answered

theorem Paced.later {now finish : ℤ} {choices : ℕ → Choice}
    (hpaced : Paced now finish choices) :
    Paced (choices 0).clock.finish finish (later choices) where
  first := hpaced.ordered 0
  ordered := fun i => hpaced.ordered (i + 1)
  le_finish := fun i => hpaced.le_finish (i + 1)
  answered := fun i => hpaced.answered (i + 1)

theorem Timeline.paced {timeline : Timeline} {now : ℤ}
    (hstart : now ≤ timeline.start) (hreliable : timeline.Reliable) :
    Paced now timeline.finish timeline.choice where
  first := hstart.trans (timeline.start_le 0)
  ordered := timeline.ordered
  le_finish := timeline.le_finish
  answered := hreliable

theorem Paced.le {now finish : ℤ} {choices : ℕ → Choice}
    (hpaced : Paced now finish choices) : now ≤ finish :=
  (hpaced.first.trans (choices 0).clock.start_le_finish).trans
    (hpaced.le_finish 0)

/-- A reply of the map as a cache returns it that is `c` and finds the owner
of the key at `addr`: an error that comes from another cache says so. -/
def carried (addr c : GoString) {V : Type} : CacheReply V → CacheReply V
  | .counter (.error (.plain text)) =>
    if addr = c then .counter (.error (.plain text))
    else .counter (.error (.plain (Transport.remoteError addr text)))
  | reply => reply

/-- What a cache returns for a call to which the map replies `reply`. -/
def seenFrom (owner : GoString → GoString) (c : GoString) {V D : Type}
    (call : CacheCall V D) (reply : CacheReply V) : CacheReply V :=
  match call with
  | .incr key _ => carried (owner key) c reply
  | .decr key _ => carried (owner key) c reply
  | _ => reply

end Grid

/-- An error of the msgpack package has a text. -/
structure Msgpack.ErrorsHaveText (codec : Msgpack) : Prop where
  marshal : ∀ {n text}, codec.marshal n = .error text → text ≠ []
  unmarshal : ∀ {data text}, codec.unmarshal data = .error text → text ≠ []

theorem cellCount_error_ne {codec : Msgpack} (htexts : codec.ErrorsHaveText)
    {now : ℤ} {current delta : Int64} {ttl : Duration} {text : GoString}
    (herror : (cellCount codec now current delta ttl).1.count =
      .error text) : text ≠ [] := by
  unfold cellCount at herror
  cases hmarshal : codec.marshal (current + delta) with
  | ok value => simp [hmarshal, StoreResult.count] at herror
  | error err =>
    simp only [hmarshal, StoreResult.count, Except.error.injEq] at herror
    exact herror ▸ htexts.marshal hmarshal

theorem cellStep_incr_error_ne {codec : Msgpack}
    (htexts : codec.ErrorsHaveText) {key : GoString} {delta : Int64}
    {ttl : Duration} {cell : Cell} {text : GoString}
    (herror : (cellStep codec clock (.incr key delta ttl) cell).1.count =
      .error text) : text ≠ [] := by
  cases cell with
  | none => exact cellCount_error_ne htexts herror
  | some r =>
    simp only [cellStep] at herror
    by_cases hdead : r.dead (clock.now 0) = true
    · rw [if_pos hdead] at herror
      exact cellCount_error_ne htexts herror
    · rw [if_neg hdead] at herror
      cases hunmarshal : codec.unmarshal r.value with
      | error err =>
        simp only [hunmarshal, StoreResult.count, Except.error.injEq]
          at herror
        exact herror ▸ htexts.unmarshal hunmarshal
      | ok current =>
        simp only [hunmarshal] at herror
        exact cellCount_error_ne htexts herror

namespace Grid

section Calls

variable {σ V D : Type} {impl : StoreImpl σ} {z : Serializer V D}
  {good : σ → Prop} {contents : σ → Contents GoString Bytes}
  {owner : GoString → GoString} {config : CacheConfig} {now finish : ℤ}
  {start g : Grid σ} {full : Contents GoString Bytes} {c key : GoString}
  {n : CacheNode σ} {choices : ℕ → Choice} {timeline : Timeline}

theorem Stable.counter_countFrom (hstable : g.Stable owner)
    (hnode : g.nodes c = some n) {count : Except GoString Int64}
    (htext : ∀ text, count = .error text → text ≠ []) :
    (CacheReply.counter (countFrom (n.frame.ownerAddr key) count) :
        CacheReply V) =
      carried (owner key) c (.counter (count.mapError .plain)) := by
  have hiff := hstable.ownerAddr_eq_nil_iff hnode key
  by_cases hown : owner key = c
  · rw [hiff.mpr hown]
    cases count with
    | ok value => rfl
    | error text => simp [countFrom, carried, Except.mapError, hown]
  · have hne : owner key ≠ [] := by
      rw [← hstable.ownerAddr_eq hnode hown]
      exact mt hiff.mp hown
    rw [hstable.ownerAddr_eq hnode hown]
    cases count with
    | ok value => simp [countFrom, hne, remoteCount, carried, Except.mapError]
    | error text =>
      simp [countFrom, hne, remoteCount, htext text rfl, carried,
        Except.mapError, hown]

/-- Alone, the program of a call replies as the map does and leaves the
cluster with what the map has then. -/
def Answered (impl : StoreImpl σ) (good : σ → Prop)
    (contents : σ → Contents GoString Bytes) (owner : GoString → GoString)
    (config : CacheConfig) (start : Grid σ) (finish : ℤ) {α : Type}
    (program : Program α) (choices : ℕ → Choice) (g : Grid σ)
    (answer : α × Contents GoString Bytes) : Prop :=
  ∃ rest after, program.alone (machine impl) Op.timed choices g =
      some (answer.1, rest, after) ∧
    Represents good contents owner config start finish after answer.2

theorem Represents.home_node
    (hrep : Represents good contents owner config start now g full)
    (hnode : g.nodes c = some n) (key : GoString) :
    ∃ m, g.nodes (g.home c key) = some m ∧ m.closed = false ∧
      m.config = config := by
  obtain ⟨m, howner, hopen⟩ := hrep.stable.owner_node key
  rw [← hrep.stable.home hnode] at howner
  exact ⟨m, howner, hopen, hrep.config_eq (frame_of_node howner)⟩

theorem Represents.mgetLoop
    (hrep : Represents good contents owner config start now g full)
    (hlaw : KeepsLedger impl z.toMsgpack good contents)
    (hmode : config.mode = .partitioned) (hpaced : Paced now finish choices)
    (hnode : g.nodes c = some n) (results : List (GoString × Bytes))
    (keys : List GoString) :
    Answered impl good contents owner config start finish
      (Grid.mgetLoop c results keys) choices g
      (mapMGet z.toMsgpack results keys choices full) := by
  induction keys generalizing results choices g full now n with
  | nil => exact ⟨choices, g, rfl, hrep.mono hpaced.le⟩
  | cons key keys ih =>
    unfold Grid.mgetLoop mapMGet
    by_cases hkey : key = []
    · rw [if_pos hkey, if_pos hkey]
      exact ih hrep hpaced hnode results
    · rw [if_neg hkey, if_neg hkey]
      have hconfig : n.config = config :=
        hrep.config_eq (frame_of_node hnode)
      obtain ⟨m, hhome, hopen, _⟩ := hrep.home_node hnode key
      obtain ⟨result, middle, haccess, hrun⟩ :=
        @alone_distributedGet_partitioned σ impl g c key n m choices hnode
          (hconfig ▸ hmode) hhome hopen (hpaced.answered 0)
      obtain ⟨n', hnode', _⟩ := node_of_frame_eq haccess.frame_eq hnode
      rw [hrep.stable.home hnode] at haccess
      obtain ⟨hresult, hafter⟩ := hrep.access hlaw hpaced.first rfl haccess
      unfold Answered
      rw [Prog.alone_bind_of_eq hrun, hresult (by simp)]
      cases hfound : (mapAccess z.toMsgpack full (choices 0).clock
          (.get key) key).1.found with
      | none =>
        simp only [hfound]
        exact ih hafter hpaced.later hnode' results
      | some data =>
        simp only [hfound]
        exact ih hafter hpaced.later hnode' (putValue results key data)

variable (hrep : Represents good contents owner config start now g full)
  (hlaw : KeepsLedger impl z.toMsgpack good contents)
  (hmode : config.mode = .partitioned)
  (hpaced : Paced now timeline.finish timeline.choice)
  (hnode : g.nodes c = some n)

include hrep hlaw hpaced hnode

theorem Represents.access_home (hop : op.key? = some key)
    {result : StoreResult} {after : Grid σ}
    (haccess : Accessed impl g (g.home c key)
      ((timeline.choice 0).clock, op) result after) :
    (op ≠ .delete key → result =
        (mapAccess z.toMsgpack full (timeline.choice 0).clock op key).1) ∧
      Represents good contents owner config start
        (timeline.choice 0).clock.finish after
        (mapAccess z.toMsgpack full (timeline.choice 0).clock op key).2 := by
  rw [hrep.stable.home hnode] at haccess
  exact hrep.access hlaw hpaced.first hop haccess

theorem Represents.call_exists (key : GoString) :
    Answered impl good contents owner config start timeline.finish
      (CacheCall.program z c (.exists key)) timeline.choice g
      (mapCall z config full (.exists key, timeline)) := by
  by_cases hkey : key = []
  · subst hkey
    exact ⟨_, g, rfl, hrep.mono hpaced.le⟩
  · obtain ⟨m, hhome, hopen, _⟩ := hrep.home_node hnode key
    obtain ⟨result, after, haccess, halone⟩ := @alone_exists σ impl g c key
      n m timeline.choice hnode (hrep.stable.open hnode) hkey hhome hopen
      (hpaced.answered 0)
    obtain ⟨hresult, hafter⟩ :=
      hrep.access_home hlaw hpaced hnode rfl haccess
    rw [hresult (by simp)] at halone
    simp only [mapCall, hkey, if_false]
    exact ⟨_, after, Prog.alone_map_of_eq halone,
      hafter.mono (hpaced.le_finish 0)⟩

theorem Represents.call_incrBy (htexts : z.toMsgpack.ErrorsHaveText)
    (key : GoString) (delta : Int64) :
    Answered impl good contents owner config start timeline.finish
      (CacheReply.counter <$> Grid.incrBy c key delta) timeline.choice g
      (let r : CacheReply V × Contents GoString Bytes :=
        mapIncr z.toMsgpack config full (timeline.choice 0).clock key delta
      (carried (owner key) c r.1, r.2)) := by
  by_cases hkey : key = []
  · subst hkey
    exact ⟨_, g, rfl, hrep.mono hpaced.le⟩
  · obtain ⟨m, hhome, hopen, hconfig⟩ := hrep.home_node hnode key
    obtain ⟨result, after, haccess, halone⟩ := @alone_incrBy σ impl g c key
      n m timeline.choice hnode (hrep.stable.open hnode) hkey hhome hopen
      (hpaced.answered 0) delta
    rw [hconfig] at haccess
    obtain ⟨hresult, hafter⟩ :=
      hrep.access_home hlaw hpaced hnode rfl haccess
    have hcount := hresult (by simp)
    have htext : ∀ text, result.count = .error text → text ≠ [] := by
      intro text herror
      rw [hcount] at herror
      exact cellStep_incr_error_ne htexts herror
    simp only [mapIncr, hkey, if_false]
    rw [← hcount, ← hrep.stable.counter_countFrom hnode htext]
    exact ⟨_, after, Prog.alone_map_of_eq halone,
      hafter.mono (hpaced.le_finish 0)⟩

include hmode

theorem Represents.call_set (key : GoString) (value : GoValue V)
    (ttl : Duration) :
    Answered impl good contents owner config start timeline.finish
      (CacheCall.program z c (.set key value ttl)) timeline.choice g
      (mapCall z config full (.set key value ttl, timeline)) := by
  have hrunning := hrep.stable.open hnode
  by_cases hkey : key = []
  · subst hkey
    exact ⟨_, g, rfl, hrep.mono hpaced.le⟩
  · simp only [mapCall, hkey, if_false]
    cases hdata : z.serialize value with
    | error cause =>
      exact ⟨_, g, Prog.alone_map_of_eq
        (alone_set_unserializable hnode hrunning hkey hdata ttl),
        hrep.mono hpaced.le⟩
    | ok data =>
      have hconfig : n.config = config :=
        hrep.config_eq (frame_of_node hnode)
      obtain ⟨m, hhome, hopen, _⟩ := hrep.home_node hnode key
      obtain ⟨result, after, haccess, halone⟩ := alone_set_partitioned
        hnode hrunning (hconfig ▸ hmode) hhome hopen (hpaced.answered 0)
        hkey hdata ttl
      rw [hconfig] at haccess
      have hafter := (hrep.access_home hlaw hpaced hnode rfl haccess).2
      exact ⟨_, after, Prog.alone_map_of_eq halone,
        hafter.mono (hpaced.le_finish 0)⟩

theorem Represents.call_delete (key : GoString) :
    Answered impl good contents owner config start timeline.finish
      (CacheCall.program z c (.delete key)) timeline.choice g
      (mapCall z config full (.delete key, timeline)) := by
  by_cases hkey : key = []
  · subst hkey
    exact ⟨_, g, rfl, hrep.mono hpaced.le⟩
  · have hconfig : n.config = config := hrep.config_eq (frame_of_node hnode)
    obtain ⟨m, hhome, hopen, _⟩ := hrep.home_node hnode key
    obtain ⟨result, after, haccess, _, halone⟩ := alone_delete_partitioned
      hnode (hrep.stable.open hnode) (hconfig ▸ hmode) hhome hopen
      (hpaced.answered 0) hkey
    have hafter := (hrep.access_home hlaw hpaced hnode rfl haccess).2
    simp only [mapCall, hkey, if_false]
    exact ⟨_, after, Prog.alone_map_of_eq halone,
      hafter.mono (hpaced.le_finish 0)⟩

theorem Represents.call_get (key : GoString) (dest : Dest D) :
    Answered impl good contents owner config start timeline.finish
      (CacheCall.program z c (.get key dest)) timeline.choice g
      (mapCall z config full (.get key dest, timeline)) := by
  by_cases hkey : key = []
  · subst hkey
    exact ⟨_, g, rfl, hrep.mono hpaced.le⟩
  · have hconfig : n.config = config := hrep.config_eq (frame_of_node hnode)
    obtain ⟨m, hhome, hopen, _⟩ := hrep.home_node hnode key
    obtain ⟨result, after, haccess, halone⟩ := alone_get_partitioned hnode
      (hrep.stable.open hnode) (hconfig ▸ hmode) hhome hopen
      (hpaced.answered 0) hkey dest
    obtain ⟨hresult, hafter⟩ :=
      hrep.access_home hlaw hpaced hnode rfl haccess
    simp only [mapCall, hkey, if_false]
    rw [hresult (by simp)] at halone
    exact ⟨_, after, Prog.alone_map_of_eq halone,
      hafter.mono (hpaced.le_finish 0)⟩

theorem Represents.call_mget (keys : List GoString) :
    Answered impl good contents owner config start timeline.finish
      (CacheCall.program z c (.mget keys)) timeline.choice g
      (mapCall z config full (.mget keys, timeline)) := by
  obtain ⟨rest, after, halone, hafter⟩ :=
    hrep.mgetLoop hlaw hmode hpaced hnode [] keys
  refine ⟨rest, after, Prog.alone_map_of_eq ?_, hafter⟩
  unfold Grid.mget
  rw [Prog.alone_perform_bind (onNodeRead_eq hnode _)]
  simp only [hrep.stable.open hnode, Op.timed, Bool.false_eq_true, if_false]
  exact halone

/-- Every call but TTL does what the map does. -/
theorem Represents.call (htexts : z.toMsgpack.ErrorsHaveText)
    {call : CacheCall V D} (httl : ∀ key, call ≠ .ttl key) :
    Answered impl good contents owner config start timeline.finish
      (call.program z c) timeline.choice g
      (seenFrom owner c call (mapCall z config full (call, timeline)).1,
        (mapCall z config full (call, timeline)).2) := by
  cases call with
  | set key value ttl =>
    exact hrep.call_set hlaw hmode hpaced hnode key value ttl
  | get key dest => exact hrep.call_get hlaw hmode hpaced hnode key dest
  | delete key => exact hrep.call_delete hlaw hmode hpaced hnode key
  | «exists» key => exact hrep.call_exists hlaw hpaced hnode key
  | ttl key => exact absurd rfl (httl key)
  | mget keys => exact hrep.call_mget hlaw hmode hpaced hnode keys
  | incr key delta =>
    exact hrep.call_incrBy hlaw hpaced hnode htexts key delta
  | decr key delta =>
    exact hrep.call_incrBy hlaw hpaced hnode htexts key (-delta)

end Calls

end Grid

end CacheGrid
