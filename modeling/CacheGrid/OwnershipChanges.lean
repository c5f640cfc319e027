import CacheGrid.GridCluster
import CacheGrid.StoreLaws

/-!
# Ownership that moves and comes back

Caches of a partitioned cluster join and leave, and the owner of a key
changes.  Nothing is moved and nothing is cleaned up: a former owner keeps
what it had, and when the key comes back to it, it answers with that.

The grid is run together with a record of the most recent completed write of
every key and of the cache that served it.  A Get is safe at a cache that
served that write, or that holds nothing under the key.
-/

namespace CacheGrid

open InterleavedPrograms SequentialRuns TimedMap

namespace Grid

/-- A completed Set, with the data it stored, or a completed Delete. -/
structure Write where
  server : GoString
  data : Option Bytes
  deriving DecidableEq

/-- A grid and the most recent completed write of every key, which no
operation reads. -/
structure Tracked (σ : Type) where
  grid : Grid σ
  latest : GoString → Option Write

section Tracking

variable {σ V D : Type}

/-- The writes after a step that returned `reply`. -/
def Tracked.completed (t : Tracked σ) (z : Serializer V D) :
    Step σ V D → Option (CacheReply V) → GoString → Option Write
  | .call c (.set key value _) _, some (.stored none) =>
    match z.serialize value with
    | .ok data =>
      Function.update t.latest key (some ⟨t.grid.home c key, some data⟩)
    | .error _ => t.latest
  | .call c (.delete key) _, some .done =>
    if key = [] then t.latest
    else Function.update t.latest key (some ⟨t.grid.home c key, none⟩)
  | _, _ => t.latest

def trackedStep (impl : StoreImpl σ) (z : Serializer V D) (t : Tracked σ)
    (s : Step σ V D) : Option (CacheReply V) × Tracked σ :=
  let r := step impl z t.grid s
  (r.1, ⟨r.2, t.completed z s r.1⟩)

variable (good : σ → Prop) (contents : σ → Contents GoString Bytes)

/-- The cache `c` runs, and so does the cache that its calls on `key` go to. -/
def Reachable (g : Grid σ) (c key : GoString) : Prop :=
  (g.listener c).isSome ∧ (g.listener (g.home c key)).isSome

/-- A Get at `now` goes to the cache that served the most recent completed
write, or to one that holds nothing alive under the key. -/
def Tracked.Current (t : Tracked σ) (c key : GoString) (now : ℤ) : Prop :=
  (∃ w, t.latest key = some w ∧ w.server = t.grid.home c key) ∨
    ∀ s, t.grid.stores (t.grid.home c key) = some s →
      live (contents s) now key = none

/-- Set, Get and Delete with reliable RPCs, at current caches; a cache that
starts is empty; membership changes and everything else may happen at any
time. -/
def Tracked.Safe (t : Tracked σ) : Step σ V D → Prop
  | .call c (.set key _ _) timeline =>
    t.grid.Reachable c key ∧ timeline.Reliable
  | .call c (.delete key) timeline =>
    t.grid.Reachable c key ∧ timeline.Reliable
  | .call c (.get key _) timeline =>
    t.grid.Reachable c key ∧ timeline.Reliable ∧
      t.Current contents c key ((timeline.choice 0).clock.now 0)
  | .call _ _ _ => False
  | .env (.start _ n) => n.config.mode = .partitioned ∧ good n.store ∧
      contents n.store = fun _ => none
  | .env _ => True

/-- What the server of the most recent write holds under its key is what that
write stored. -/
structure Tracked.Faithful (t : Tracked σ) : Prop where
  mode : ∀ {c f}, t.grid.frame c = some f → f.config.mode = .partitioned
  good_store : ∀ {c s}, t.grid.stores c = some s → good s
  quiet : t.grid.messages = []
  served : ∀ {key w s r}, t.latest key = some w →
    t.grid.stores w.server = some s → contents s key = some r →
      w.data = some r.value

end Tracking

/-! ## Steps -/

section Steps

variable {σ V D : Type} {impl : StoreImpl σ} {z : Serializer V D}
  {good : σ → Prop} {contents : σ → Contents GoString Bytes}
  {t : Tracked σ} {after : Grid σ} {h key : GoString} {clock : Readings}
  {op : StoreOp} {result : StoreResult}

/-- An access keeps everything but the knowledge of the latest writes. -/
theorem Tracked.Faithful.access (hfaithful : t.Faithful good contents)
    (hlaw : LossyLedger impl z.toMsgpack good contents)
    (haccess : Accessed impl t.grid h (clock, op) result after)
    {latest : GoString → Option Write}
    (hserved : ∀ {k w s r}, latest k = some w →
      after.stores w.server = some s → contents s k = some r →
        w.data = some r.value) :
    Tracked.Faithful good contents ⟨after, latest⟩ := by
  obtain ⟨s, hstore, _, hcases⟩ := haccess.cases
  constructor
  · exact fun hf => hfaithful.mode (congrFun haccess.frame_eq _ ▸ hf)
  · intro c s' hs'
    rcases hcases hs' with ⟨rfl, rfl⟩ | ⟨_, hold⟩
    · exact hlaw.good_call (hfaithful.good_store hstore) _
    · exact hfaithful.good_store hold
  · exact haccess.messages_eq.trans hfaithful.quiet
  · exact hserved

theorem Tracked.Faithful.read (hfaithful : t.Faithful good contents)
    (hlaw : LossyLedger impl z.toMsgpack good contents)
    (haccess : Accessed impl t.grid h (clock, op) result after)
    (hop : op.key? = none ∨ op.reads = true) :
    Tracked.Faithful good contents ⟨after, t.latest⟩ := by
  obtain ⟨s, hstore, _, hcases⟩ := haccess.cases
  have hgood := hfaithful.good_store hstore
  refine hfaithful.access hlaw haccess ?_
  intro k w s' r hlatest hs' hr
  rcases hcases hs' with ⟨hserver, rfl⟩ | ⟨_, hold⟩
  · have hbefore := hlaw.kept hgood
      (hop.imp_left fun hnone => by simp [hnone]) hr
    exact hfaithful.served hlatest (hserver ▸ hstore) hbefore
  · exact hfaithful.served hlatest hold hr

theorem Tracked.Faithful.write (hfaithful : t.Faithful good contents)
    (hlaw : LossyLedger impl z.toMsgpack good contents)
    (haccess : Accessed impl t.grid h (clock, op) result after)
    (hop : op.key? = some key) {data : Option Bytes}
    (hwritten : ∀ {s r}, good s →
      contents (impl.call s (clock, op)).2 key = some r →
        data = some r.value) :
    Tracked.Faithful good contents
      ⟨after, Function.update t.latest key (some ⟨h, data⟩)⟩ := by
  obtain ⟨s, hstore, _, hcases⟩ := haccess.cases
  have hgood := hfaithful.good_store hstore
  refine hfaithful.access hlaw haccess ?_
  intro k w s' r hlatest hs' hr
  by_cases hk : k = key
  · subst k
    simp only [Function.update_self, Option.some.injEq] at hlatest
    subst w
    rcases hcases hs' with ⟨_, rfl⟩ | ⟨hne, _⟩
    · exact hwritten hgood hr
    · exact absurd rfl hne
  · simp only [Function.update_of_ne hk] at hlatest
    rcases hcases hs' with ⟨hserver, rfl⟩ | ⟨_, hold⟩
    · have hbefore := hlaw.kept hgood (Or.inl (by simp [hop, Ne.symm hk]))
        hr
      exact hfaithful.served hlatest (hserver ▸ hstore) hbefore
    · exact hfaithful.served hlatest hold hr

theorem Tracked.Faithful.same (hfaithful : t.Faithful good contents)
    (hsame : Same t.grid after) :
    Tracked.Faithful good contents ⟨after, t.latest⟩ where
  mode := fun hf => hfaithful.mode (congrFun hsame.frame_eq _ ▸ hf)
  good_store := fun hs =>
    hfaithful.good_store (congrFun hsame.stores_eq _ ▸ hs)
  quiet := hsame.messages_eq.trans hfaithful.quiet
  served := fun hlatest hs =>
    hfaithful.served hlatest (congrFun hsame.stores_eq _ ▸ hs)

theorem Tracked.Faithful.setNode (hfaithful : t.Faithful good contents)
    {c : GoString} {n : CacheNode σ}
    (hmode : n.config.mode = .partitioned) (hgood : good n.store)
    (hold : ∀ {k r}, contents n.store k = some r →
      ∃ s, t.grid.stores c = some s ∧ contents s k = some r) :
    Tracked.Faithful good contents ⟨t.grid.setNode c n, t.latest⟩ := by
  constructor
  · intro d f hf
    rw [frame_setNode] at hf
    by_cases hd : d = c
    · subst d
      rw [Function.update_self, Option.some.injEq] at hf
      exact hf ▸ hmode
    · rw [Function.update_of_ne hd] at hf
      exact hfaithful.mode hf
  · intro d s hs
    rw [stores_setNode] at hs
    by_cases hd : d = c
    · subst d
      rw [Function.update_self, Option.some.injEq] at hs
      exact hs ▸ hgood
    · rw [Function.update_of_ne hd] at hs
      exact hfaithful.good_store hs
  · exact hfaithful.quiet
  · intro k w s r hlatest hs hr
    simp only [stores_setNode] at hs
    by_cases hserver : w.server = c
    · rw [hserver, Function.update_self, Option.some.injEq] at hs
      subst s
      obtain ⟨s', hs', hr'⟩ := hold hr
      exact hfaithful.served hlatest (hserver ▸ hs') hr'
    · rw [Function.update_of_ne hserver] at hs
      exact hfaithful.served hlatest hs hr

theorem Tracked.Faithful.modifyNode (hfaithful : t.Faithful good contents)
    {c : GoString} {change : CacheNode σ → CacheNode σ}
    (hchange : ∀ n, (change n).config = n.config ∧
      (change n).store = n.store) :
    Tracked.Faithful good contents
      ⟨(t.grid.modifyNode c change).getD t.grid, t.latest⟩ := by
  cases hnode : t.grid.nodes c with
  | none => simpa [Grid.modifyNode, hnode] using hfaithful
  | some n =>
    simp only [Grid.modifyNode, hnode, Option.map_some, Option.getD_some]
    obtain ⟨hconfig, hstore⟩ := hchange n
    apply hfaithful.setNode
    · rw [hconfig]
      exact hfaithful.mode (frame_of_node hnode)
    · rw [hstore]
      exact hfaithful.good_store (stores_of_node hnode)
    · intro k r hr
      rw [hstore] at hr
      exact ⟨n.store, stores_of_node hnode, hr⟩

theorem Tracked.Faithful.envStep (hfaithful : t.Faithful good contents)
    (hlaw : LossyLedger impl z.toMsgpack good contents) {event : Env σ}
    (hsafe : t.Safe good contents (.env event : Step σ V D)) :
    Tracked.Faithful good contents
      ⟨(Grid.envStep impl t.grid event).getD t.grid, t.latest⟩ := by
  cases event with
  | start c n =>
    obtain ⟨hmode, hgood, hempty⟩ := hsafe
    refine hfaithful.setNode hmode hgood ?_
    intro k r hr
    rw [hempty] at hr
    contradiction
  | sweep c clock =>
    rcases @sweep_cases σ impl t.grid c clock with
      hsame | ⟨result, haccess⟩
    · exact hfaithful.same hsame
    · exact hfaithful.read hlaw haccess (Or.inl rfl)
  | callback c i => exact hfaithful.same (same_callback i)
  | deliver i choice =>
    have hnone : Grid.envStep impl t.grid (.deliver i choice) = none := by
      simp [Grid.envStep, deliver, hfaithful.quiet]
    simpa [hnone] using hfaithful
  | notify c event => exact hfaithful.modifyNode fun _ => ⟨rfl, rfl⟩
  | shutdown c => exact hfaithful.modifyNode fun _ => ⟨rfl, rfl⟩

theorem Tracked.Faithful.reachable (hfaithful : t.Faithful good contents)
    {c : GoString} (hreachable : t.grid.Reachable c key) :
    ∃ n m, t.grid.nodes c = some n ∧ n.closed = false ∧
      n.config.mode = .partitioned ∧
      t.grid.nodes (t.grid.home c key) = some m ∧ m.closed = false := by
  obtain ⟨n, hnode, hopen⟩ := node_of_listener hreachable.1
  obtain ⟨m, hhome, hopen'⟩ := node_of_listener hreachable.2
  exact ⟨n, m, hnode, hopen, hfaithful.mode (frame_of_node hnode), hhome,
    hopen'⟩

theorem Tracked.Faithful.get (hfaithful : t.Faithful good contents)
    {c : GoString} (hreachable : t.grid.Reachable c key) (hkey : key ≠ [])
    {timeline : Timeline} (hreliable : timeline.Reliable) (dest : Dest D) :
    ∃ result final,
      Accessed impl t.grid (t.grid.home c key)
        ((timeline.choice 0).clock, .get key) result final ∧
      step impl z t.grid (.call c (.get key dest) timeline) =
        (some (.got (result.found.bind fun data =>
          (z.deserialize data dest).toOption)), final) := by
  obtain ⟨n, m, hnode, hopen, hmode, hhome, hopen'⟩ :=
    hfaithful.reachable hreachable
  obtain ⟨result, final, haccess, halone⟩ :=
    @alone_get_partitioned σ V D impl z t.grid c key n m timeline.choice
      hnode hopen hmode hhome hopen' (hreliable 0) hkey dest
  exact ⟨result, final, haccess, step_call (Prog.alone_map_of_eq halone)⟩

theorem Tracked.Faithful.step (hfaithful : t.Faithful good contents)
    (hlaw : LossyLedger impl z.toMsgpack good contents)
    {s : Step σ V D} (hsafe : t.Safe good contents s) :
    (trackedStep impl z t s).2.Faithful good contents := by
  cases s with
  | env event => exact hfaithful.envStep hlaw hsafe
  | call c call timeline =>
    cases call with
    | get key dest =>
      obtain ⟨hreachable, hreliable, _⟩ := hsafe
      by_cases hkey : key = []
      · subst hkey
        exact hfaithful
      · obtain ⟨result, final, haccess, hstep⟩ :=
          @Tracked.Faithful.get σ V D impl z good contents t key hfaithful
            c hreachable hkey timeline hreliable dest
        simp only [trackedStep, hstep]
        exact hfaithful.read hlaw haccess (Or.inr rfl)
    | set key value ttl =>
      obtain ⟨hreachable, hreliable⟩ := hsafe
      obtain ⟨n, m, hnode, hopen, hmode, hhome, hopen'⟩ :=
        hfaithful.reachable hreachable
      by_cases hkey : key = []
      · subst hkey
        exact hfaithful
      · cases hdata : z.serialize value with
        | error cause =>
          have hstep : Grid.step impl z t.grid
              (.call c (.set key value ttl) timeline) = _ :=
            step_call (Prog.alone_map_of_eq
              (alone_set_unserializable hnode hopen hkey hdata ttl))
          simp only [trackedStep, hstep]
          exact hfaithful
        | ok data =>
          obtain ⟨result, final, haccess, halone⟩ :=
            alone_set_partitioned hnode hopen hmode hhome hopen'
              (hreliable 0) hkey hdata ttl
          have hstep : Grid.step impl z t.grid
              (.call c (.set key value ttl) timeline) = _ :=
            step_call (Prog.alone_map_of_eq halone)
          simp only [trackedStep, hstep, Tracked.completed, hdata]
          refine hfaithful.write hlaw haccess rfl ?_
          intro s r hgood hr
          rw [hlaw.written hgood hr]
    | delete key =>
      obtain ⟨hreachable, hreliable⟩ := hsafe
      obtain ⟨n, m, hnode, hopen, hmode, hhome, hopen'⟩ :=
        hfaithful.reachable hreachable
      by_cases hkey : key = []
      · subst hkey
        exact hfaithful
      · obtain ⟨result, final, haccess, _, halone⟩ :=
          alone_delete_partitioned hnode hopen hmode hhome hopen'
            (hreliable 0) hkey
        have hstep : Grid.step impl z t.grid
            (.call c (.delete key) timeline) = _ :=
          step_call (Prog.alone_map_of_eq halone)
        simp only [trackedStep, hstep, Tracked.completed, hkey, if_false]
        refine hfaithful.write hlaw haccess rfl ?_
        intro s r hgood hr
        rw [hlaw.deleted hgood] at hr
        contradiction
    | _ => exact absurd hsafe id

end Steps

/-! ## Runs -/

section Runs

variable {σ V D : Type} {impl : StoreImpl σ} {z : Serializer V D}
  {good : σ → Prop} {contents : σ → Contents GoString Bytes}

/-- In a run whose Gets are all current, a Get that hits returns what the most
recent completed write of its key has stored. -/
theorem current_gets_return_latest_set
    (hlaw : LossyLedger impl z.toMsgpack good contents) {g : Grid σ}
    (hmode : ∀ {c f}, g.frame c = some f → f.config.mode = .partitioned)
    (hempty : ∀ {c s}, g.stores c = some s →
      good s ∧ contents s = fun _ => none)
    (hquiet : g.messages = []) {steps : List (Step σ V D)}
    (hsafe : Meets (trackedStep impl z) (Tracked.Safe good contents)
      ⟨g, fun _ => none⟩ steps) {t : Tracked σ}
    (hrun : (run (trackedStep impl z) ⟨g, fun _ => none⟩ steps).2 = t)
    {c key : GoString} {dest : Dest D} {timeline : Timeline}
    (hget : t.Safe good contents
      (.call c (.get key dest) timeline : Step σ V D))
    {value : GoValue V}
    (hhit : (trackedStep impl z t (.call c (.get key dest) timeline)).1 =
      some (.got (some value))) :
    ∃ server data, t.latest key = some ⟨server, some data⟩ ∧
      z.deserialize data dest = .ok value := by
  have hstart : Tracked.Faithful good contents ⟨g, fun _ => none⟩ :=
    ⟨hmode, fun hs => (hempty hs).1, hquiet, by simp⟩
  have hfaithful : t.Faithful good contents := by
    rw [← hrun]
    exact run_invariant_of_meets (Tracked.Faithful good contents)
      (fun _ _ hf hs => hf.step hlaw hs) hstart hsafe
  obtain ⟨hreachable, hreliable, hcurrent⟩ := hget
  by_cases hkey : key = []
  · subst hkey
    have hmiss : (trackedStep impl z t (.call c (.get [] dest) timeline)).1 =
        some (.got none) := rfl
    rw [hmiss] at hhit
    simp at hhit
  · obtain ⟨result, final, haccess, hstep⟩ :=
      @Tracked.Faithful.get σ V D impl z good contents t key hfaithful c
        hreachable hkey timeline hreliable dest
    obtain ⟨s, hstore, hresult, _⟩ := haccess.store
    have hfound : result.found = (live (contents s)
        ((timeline.choice 0).clock.now 0) key).map Record.value := by
      rw [hresult]
      exact hlaw.get_found (hfaithful.good_store hstore)
    simp only [trackedStep, hstep, Option.some.injEq, CacheReply.got.injEq,
      Option.bind_eq_some_iff] at hhit
    obtain ⟨data, hdata, hvalue⟩ := hhit
    rw [hfound, Option.map_eq_some_iff] at hdata
    obtain ⟨r, hlive, rfl⟩ := hdata
    rcases hcurrent with ⟨w, hlatest, hserver⟩ | hnothing
    · have hserved := hfaithful.served hlatest (hserver ▸ hstore)
        (eq_some_of_live hlive).1
      refine ⟨w.server, r.value, ?_, ?_⟩
      · rw [hlatest, ← hserved]
      · cases hdeserialize : z.deserialize r.value dest with
        | error err => simp [hdeserialize, Except.toOption] at hvalue
        | ok v => simpa [hdeserialize, Except.toOption] using hvalue
    · rw [hnothing s hstore] at hlive
      contradiction

end Runs

/-- The cache at `b:1`, which has heard of the one at `a:1`. -/
def joiner : CacheNode MemoryStore :=
  newNode (some ((Topology.new 1 (ascii "n2") (ascii "b:1")).notify
      (.join (ascii "n1") (ascii "a:1"))))
    (ascii "b:1") ⟨.partitioned, 0⟩ (.new 1 (by decide) 0 true true)

/-- One cache, at `a:1`, that is the only member of its cluster. -/
def founder : Grid MemoryStore where
  nodes := fun c => if c = ascii "a:1" then
      some (newNode (some (.new 1 (ascii "n1") (ascii "a:1"))) (ascii "a:1")
        ⟨.partitioned, 0⟩ (.new 1 (by decide) 0 true true))
    else none
  messages := []

/-- `k` is set at its first owner; a second cache joins and owns `k`, which is
set again. -/
def overwritten : List (Step MemoryStore Empty Empty) :=
  [.call (ascii "a:1") (.set (ascii "k") (.bytes (ascii "old")) 0)
      (.instant 0),
    .env (.start (ascii "b:1") joiner),
    .env (.notify (ascii "a:1") (.join (ascii "n2") (ascii "b:1"))),
    .call (ascii "a:1") (.set (ascii "k") (.bytes (ascii "new")) 0)
      (.instant 1)]

/-- While the second owner is there, a Get goes to it. -/
theorem current_gets_return_latest_set_joined :
    ∃ server data,
      (run (trackedStep (MemoryStore.impl .int64) .basic)
        ⟨founder, fun _ => none⟩ overwritten).2.latest (ascii "k") =
          some ⟨server, some data⟩ ∧
      Serializer.basic.deserialize data .bytes =
        .ok (.bytes (ascii "new")) := by
  have hsound : ∀ {c n}, founder.nodes c = some n →
      n.config.mode = .partitioned ∧ n.store.Sound ∧
        n.store.contents = fun _ => none := by
    intro c n hn
    simp only [founder, Option.ite_none_right_eq_some,
      Option.some.injEq] at hn
    obtain ⟨_, rfl⟩ := hn
    exact ⟨rfl, MemoryStore.sound_new 1 (by decide) 0 true true,
      MemoryStore.contents_new 1 (by decide) 0 true true⟩
  have hsafe : Meets (trackedStep (MemoryStore.impl .int64) .basic)
      (Tracked.Safe MemoryStore.Sound MemoryStore.contents)
      ⟨founder, fun _ => none⟩ overwritten :=
    ⟨⟨⟨by decide +kernel, by decide +kernel⟩, fun _ => rfl⟩,
      ⟨rfl, MemoryStore.sound_new 1 (by decide) 0 true true,
        MemoryStore.contents_new 1 (by decide) 0 true true⟩,
      trivial, ⟨⟨by decide +kernel, by decide +kernel⟩, fun _ => rfl⟩,
      trivial⟩
  have hget : Tracked.Safe MemoryStore.Sound MemoryStore.contents
      (run (trackedStep (MemoryStore.impl .int64) .basic)
        ⟨founder, fun _ => none⟩ overwritten).2
      (.call (ascii "b:1") (.get (ascii "k") .bytes) (.instant 2) :
        Step MemoryStore Empty Empty) :=
    ⟨⟨by decide +kernel, by decide +kernel⟩, fun _ => rfl,
      Or.inl ⟨⟨ascii "b:1", some (ascii "new")⟩, by decide +kernel,
        by decide +kernel⟩⟩
  refine current_gets_return_latest_set
    (MemoryStore.lossyLedger .int64) ?_ ?_ rfl hsafe rfl hget
    (by decide +kernel)
  · intro c f hf
    obtain ⟨n, hn, rfl⟩ := Option.map_eq_some_iff.mp hf
    exact (hsound hn).1
  · intro c s hs
    obtain ⟨n, hn, rfl⟩ := Option.map_eq_some_iff.mp hs
    exact (hsound hn).2

/-- The second owner leaves, and the first one answers with what it had. -/
theorem former_owner_returns_overwritten_value :
    let steps := overwritten ++
      [.env (.notify (ascii "a:1") (.leave (ascii "n2"))),
        .env (.shutdown (ascii "b:1")),
        .call (ascii "a:1") (.get (ascii "k") .bytes) (.instant 2)]
    let final := run (trackedStep (MemoryStore.impl .int64) .basic)
      ⟨founder, fun _ => none⟩ steps
    final.1.getLast? = some (some (.got (some (.bytes (ascii "old"))))) ∧
      final.2.latest (ascii "k") =
        some ⟨ascii "b:1", some (ascii "new")⟩ := by
  decide +kernel

end Grid

end CacheGrid
