import CacheGrid.GridRouting

/-!
# What a call does

The calls of `cache.go`, each run alone.  Set, Get and Delete wrap what the
mode of the cache makes of them; Exists, Incr and Decr access the home of the
key and TTL the cache's own store, whatever the mode.
-/

namespace CacheGrid

open InterleavedPrograms

namespace Grid

variable {σ V D : Type} {impl : StoreImpl σ} {z : Serializer V D}
  {g after : Grid σ} {c key : GoString} {n m : CacheNode σ}
  {choices rest : ℕ → Choice}

theorem node_of_frame_eq (hframe : after.frame = g.frame)
    (hnode : g.nodes c = some n) :
    ∃ n', after.nodes c = some n' ∧ n'.frame = n.frame := by
  have hafter : after.frame c = some n.frame := by
    rw [hframe]
    exact frame_of_node hnode
  exact Option.map_eq_some_iff.mp hafter

theorem Accessed.node {call : Readings × StoreOp} {result : StoreResult}
    (haccess : Accessed impl g c call result after)
    (hnode : g.nodes c = some n) :
    ∃ n', after.nodes c = some n' ∧ n'.frame = n.frame ∧
      result = (impl.call n.store call).1.1 ∧
      n'.store = (impl.call n.store call).2 := by
  obtain ⟨n', hnode', hframe⟩ := node_of_frame_eq haccess.frame_eq hnode
  obtain ⟨store, hstore, hresult, hstores⟩ := haccess.store
  obtain rfl : n.store = store :=
    Option.some.inj ((stores_of_node hnode).symm.trans hstore)
  refine ⟨n', hnode', hframe, hresult, ?_⟩
  have hafter := stores_of_node hnode'
  rw [hstores, Function.update_self, Option.some_inj] at hafter
  exact hafter.symm

theorem step_call {call : CacheCall V D} {timeline : Timeline}
    {reply : CacheReply V}
    (halone : (call.program z c).alone (machine impl) Op.timed
      timeline.choice g = some (reply, rest, after)) :
    step impl z g (.call c call timeline) = (some reply, after) := by
  simp only [step, halone]

/-- Alone, the program makes one access to the store at `h` and returns what
it makes of the result. -/
abbrev MakesAccess {α : Type} (impl : StoreImpl σ) (g : Grid σ)
    (choices : ℕ → Choice) (h : GoString) (op : StoreOp) (program : Program α)
    (value : StoreResult → α) : Prop :=
  ∃ result final, Accessed impl g h ((choices 0).clock, op) result final ∧
    program.alone (machine impl) Op.timed choices g =
      some (value result, later choices, final)

/-! ## Set, Get and Delete in every mode -/

variable {value : GoValue V} {data : Bytes}

theorem alone_set (hnode : g.nodes c = some n) (hopen : n.closed = false)
    (hkey : key ≠ []) (hdata : z.serialize value = .ok data) {ttl : Duration}
    (hrun : (distributedSet c key data (n.config.effectiveTTL ttl) []).alone
      (machine impl) Op.timed choices g = some (none, rest, after))
    (hframe : after.frame = g.frame) :
    ∃ final, Same after final ∧
      (set z c key value ttl).alone (machine impl) Op.timed choices g =
        some (none, rest, final) := by
  obtain ⟨n₁, hnode₁, _⟩ := node_of_frame_eq hframe hnode
  obtain ⟨g₁, hpublish, hsame₁⟩ := @exec_broker σ impl after c n₁ (rest 0)
    hnode₁ (.publish ⟨.set, key, data⟩)
  obtain ⟨n₂, hnode₂, _⟩ := node_of_frame_eq hsame₁.frame_eq hnode₁
  obtain ⟨g₂, hfire, hsame₂⟩ := @exec_broker σ impl g₁ c n₂ (rest 0)
    hnode₂ (.fireSet key data)
  refine ⟨g₂, hsame₁.trans hsame₂, ?_⟩
  unfold set
  rw [if_neg hkey, Prog.alone_untimed_bind (onNodeRead_eq hnode _) rfl]
  simp only [hopen, hdata, Bool.false_eq_true, if_false]
  rw [Prog.alone_untimed_bind (onNodeRead_eq hnode _) rfl]
  unfold CacheConfig.effectiveTTL at hrun
  rw [Prog.alone_bind_of_eq hrun]
  simp only
  rw [Prog.alone_untimed_bind hpublish rfl]
  rw [Prog.alone_perform_bind hfire]
  rfl

theorem alone_set_unserializable (hnode : g.nodes c = some n)
    (hopen : n.closed = false) (hkey : key ≠ []) {value : GoValue V}
    {cause : GoString} (hdata : z.serialize value = .error cause)
    (ttl : Duration) :
    (set z c key value ttl).alone (machine impl) Op.timed choices g =
      some (some (.serializationFailed cause), choices, g) := by
  unfold set
  rw [if_neg hkey, Prog.alone_perform_bind (onNodeRead_eq hnode _)]
  simp only [hopen, hdata]
  rfl

theorem alone_get (hnode : g.nodes c = some n) (hopen : n.closed = false)
    (hkey : key ≠ []) (dest : Dest D) {found : Option Bytes}
    (hrun : (distributedGet c key).alone (machine impl) Op.timed choices g =
      some (found, rest, after))
    (hframe : after.frame = g.frame) :
    ∃ final, Same after final ∧
      (get z c key dest).alone (machine impl) Op.timed choices g =
        some (found.bind fun data => (z.deserialize data dest).toOption,
          rest, final) := by
  obtain ⟨n₁, hnode₁, _⟩ := node_of_frame_eq hframe hnode
  unfold get
  rw [if_neg hkey, Prog.alone_untimed_bind (onNodeRead_eq hnode _) rfl]
  simp only [hopen, Bool.false_eq_true, if_false]
  rw [Prog.alone_bind_of_eq hrun]
  cases found with
  | none =>
    obtain ⟨g₁, hmiss, hsame₁⟩ := @exec_broker σ impl after c n₁ (rest 0)
      hnode₁ (.fireMiss key)
    refine ⟨g₁, hsame₁, ?_⟩
    simp only
    rw [Prog.alone_perform_bind hmiss]
    rfl
  | some data =>
    simp only [Option.bind_some]
    cases z.deserialize data dest with
    | error err => exact ⟨after, Same.refl _, rfl⟩
    | ok value =>
      obtain ⟨g₁, hhit, hsame₁⟩ := @exec_broker σ impl after c n₁
        (rest 0) hnode₁ (.fireHit key)
      refine ⟨g₁, hsame₁, ?_⟩
      simp only
      rw [Prog.alone_perform_bind hhit]
      rfl

theorem alone_delete_tags (hnode : g.nodes c = some n)
    (hopen : n.closed = false) (hkey : key ≠ [])
    (hrun : (distributedDelete c key).alone (machine impl) Op.timed choices
      g = some ((), rest, after))
    {n₁ : CacheNode σ} (hnode₁ : after.nodes c = some n₁) :
    ∃ final n', Same after final ∧ final.nodes c = some n' ∧
      n'.tags = n₁.tags.remove key ∧
      (delete c key).alone (machine impl) Op.timed choices g =
        some ((), rest, final) := by
  obtain ⟨g₁, n₂, hpublish, hsame₁, hnode₂, htags₂⟩ := @exec_broker_node σ
    impl after c n₁ (rest 0) hnode₁ (.publish ⟨.delete, key, []⟩)
  obtain ⟨g₂, n₃, hfire, hsame₂, hnode₃, htags₃⟩ := @exec_broker_node σ
    impl g₁ c n₂ (rest 0) hnode₂ (.fireDelete key)
  obtain ⟨g₃, n', hremove, hsame₃, hnode', htags'⟩ :=
    @exec_tagsRemove σ impl g₂ c n₃ (rest 0) hnode₃ key
  refine ⟨g₃, n', (hsame₁.trans hsame₂).trans hsame₃, hnode', ?_, ?_⟩
  · rw [htags', htags₃, htags₂]
  · unfold delete
    rw [if_neg hkey, Prog.alone_untimed_bind (onNodeRead_eq hnode _) rfl]
    simp only [hopen, Bool.false_eq_true, if_false]
    rw [Prog.alone_bind_of_eq hrun, Prog.alone_untimed_bind hpublish rfl]
    rw [Prog.alone_untimed_bind hfire rfl]
    rw [Prog.alone_perform hremove]
    rfl

theorem alone_delete (hnode : g.nodes c = some n) (hopen : n.closed = false)
    (hkey : key ≠ [])
    (hrun : (distributedDelete c key).alone (machine impl) Op.timed choices
      g = some ((), rest, after))
    (hframe : after.frame = g.frame) :
    ∃ final, Same after final ∧ final.Untagged c key ∧
      (delete c key).alone (machine impl) Op.timed choices g =
        some ((), rest, final) := by
  obtain ⟨n₁, hnode₁, _⟩ := node_of_frame_eq hframe hnode
  obtain ⟨final, n', hsame, hnode', htags, halone⟩ :=
    alone_delete_tags hnode hopen hkey hrun hnode₁
  refine ⟨final, hsame, ?_, halone⟩
  intro n'' hnode''
  rw [← Option.some.inj (hnode'.symm.trans hnode''), htags]
  exact n₁.tags.lookup_remove key

variable {op : StoreOp}

section Wrapped

variable {h : GoString} (hnode : g.nodes c = some n) (hopen : n.closed = false)
  (hkey : key ≠ [])

include hnode hopen hkey

theorem MakesAccess.set (hdata : z.serialize value = .ok data) {ttl : Duration}
    (haccess : MakesAccess impl g choices h op (distributedSet c key data
      (n.config.effectiveTTL ttl) []) fun _ => none) :
    MakesAccess impl g choices h op (set z c key value ttl) fun _ => none := by
  obtain ⟨result, middle, haccess, hrun⟩ := haccess
  obtain ⟨final, hsame, halone⟩ := alone_set hnode hopen hkey hdata hrun
    haccess.frame_eq
  exact ⟨result, final, haccess.same hsame, halone⟩

theorem MakesAccess.get (dest : Dest D) {op : StoreOp}
    (haccess : MakesAccess impl g choices h op (distributedGet c key)
      StoreResult.found) :
    MakesAccess impl g choices h op (get z c key dest) fun result =>
      result.found.bind fun data => (z.deserialize data dest).toOption := by
  obtain ⟨result, middle, haccess, hrun⟩ := haccess
  obtain ⟨final, hsame, halone⟩ := @alone_get σ V D impl z g middle c key n
    choices _ hnode hopen hkey dest _ hrun haccess.frame_eq
  exact ⟨result, final, haccess.same hsame, halone⟩

theorem MakesAccess.delete
    (haccess : MakesAccess impl g choices h op (distributedDelete c key)
      fun _ => ()) :
    ∃ result final, Accessed impl g h ((choices 0).clock, op) result final ∧
      final.Untagged c key ∧
      (delete c key).alone (machine impl) Op.timed choices g =
        some ((), later choices, final) := by
  obtain ⟨result, middle, haccess, hrun⟩ := haccess
  obtain ⟨final, hsame, huntagged, halone⟩ := alone_delete hnode hopen hkey
    hrun haccess.frame_eq
  exact ⟨result, final, haccess.same hsame, huntagged, halone⟩

end Wrapped

/-! ## Calls that do not depend on the mode -/

/-- A call that asks for the owner of its key goes on with its own store, or
with the owner. -/
theorem alone_at_owner {α : Type} (hnode : g.nodes c = some n)
    {own : Program α} {remote : GoString → Program α}
    {outcome : Option (α × (ℕ → Choice) × Grid σ)}
    (hown : n.frame.ownerAddr key = [] → g.home c key = c →
      own.alone (machine impl) Op.timed choices g = outcome)
    (hremote : n.frame.ownerAddr key ≠ [] →
      g.home c key = n.frame.ownerAddr key →
      (remote (n.frame.ownerAddr key)).alone (machine impl) Op.timed choices
        g = outcome) :
    (ownerAddr c key >>= fun addr =>
      if addr ≠ [] then remote addr else own).alone (machine impl) Op.timed
        choices g = outcome := by
  rw [Prog.alone_bind_of_eq (alone_ownerAddr hnode)]
  by_cases hlocal : n.frame.ownerAddr key = []
  · rw [if_neg (by simpa using hlocal)]
    exact hown hlocal (home_eq_self hnode hlocal)
  · rw [if_pos hlocal]
    exact hremote hlocal (home_eq_addr hnode hlocal)

theorem alone_exists (hnode : g.nodes c = some n) (hopen : n.closed = false)
    (hkey : key ≠ []) (hhome : g.nodes (g.home c key) = some m)
    (hopen' : m.closed = false)
    (hanswered : (choices 0).rpc = .answered) :
    MakesAccess impl g choices (g.home c key) (.exists key) («exists» c key)
      StoreResult.ok := by
  refine ⟨_, _, accessed_runStore hhome (choices 0).clock (.exists key), ?_⟩
  unfold «exists»
  rw [if_neg hkey, Prog.alone_untimed_bind (onNodeRead_eq hnode _) rfl]
  simp only [hopen, Bool.false_eq_true, if_false]
  refine alone_at_owner hnode (fun _ hself => ?_) (fun _ haddr => ?_)
  · rw [hself] at hhome ⊢
    rw [Prog.alone_perform_bind (exec_store hhome _)]
    rfl
  · rw [haddr] at hhome ⊢
    rw [Prog.alone_bind_of_eq (alone_remoteExists hhome hopen' hanswered)]
    rfl

theorem alone_ttl (hnode : g.nodes c = some n) (hopen : n.closed = false)
    (hkey : key ≠ []) :
    MakesAccess impl g choices c (.ttl key) (ttl c key) StoreResult.ttl := by
  refine ⟨_, _, accessed_runStore hnode (choices 0).clock (.ttl key), ?_⟩
  unfold ttl
  rw [if_neg hkey, Prog.alone_untimed_bind (onNodeRead_eq hnode _) rfl]
  simp only [hopen, Bool.false_eq_true, if_false]
  rw [Prog.alone_perform_bind (exec_store hnode _)]
  rfl

/-- A counter as a cache returns it that finds the owner at `addr`, its own
store being meant by the empty address. -/
def countFrom (addr : GoString) (count : Except GoString Int64) :
    Except CacheError Int64 :=
  if addr = [] then count.mapError .plain
  else (remoteCount addr count).mapError .plain

theorem alone_incrBy (hnode : g.nodes c = some n) (hopen : n.closed = false)
    (hkey : key ≠ []) (hhome : g.nodes (g.home c key) = some m)
    (hopen' : m.closed = false)
    (hanswered : (choices 0).rpc = .answered) (delta : Int64) :
    MakesAccess impl g choices (g.home c key)
      (.incr key delta m.config.defaultTTL) (incrBy c key delta)
      fun result => countFrom (n.frame.ownerAddr key) result.count := by
  refine ⟨_, _, accessed_runStore hhome (choices 0).clock
    (.incr key delta m.config.defaultTTL), ?_⟩
  unfold incrBy countFrom
  rw [if_neg hkey, Prog.alone_untimed_bind (onNodeRead_eq hnode _) rfl]
  simp only [hopen, Bool.false_eq_true, if_false]
  refine alone_at_owner hnode (fun hlocal hself => ?_) (fun hlocal haddr => ?_)
  · rw [hself] at hhome ⊢
    obtain rfl : n = m := Option.some.inj (hnode.symm.trans hhome)
    rw [if_pos hlocal, Prog.alone_untimed_bind (onNodeRead_eq hnode _) rfl]
    rw [Prog.alone_perform_bind (exec_store hnode _)]
    rfl
  · rw [haddr] at hhome ⊢
    rw [if_neg hlocal, Prog.alone_bind_of_eq
      (alone_remoteIncr hhome hopen' hanswered delta)]
    rfl

/-! ## Partitioned caches -/

theorem alone_distributedSet_partitioned (hnode : g.nodes c = some n)
    (hmode : n.config.mode = .partitioned)
    (hhome : g.nodes (g.home c key) = some m) (hopen : m.closed = false)
    (hanswered : (choices 0).rpc = .answered) (data : Bytes)
    (ttl : Duration) :
    MakesAccess impl g choices (g.home c key) (.set key data ttl)
      (distributedSet c key data ttl []) fun _ => none := by
  refine ⟨_, _, accessed_runStore hhome (choices 0).clock
    (.set key data ttl), ?_⟩
  unfold distributedSet
  rw [Prog.alone_untimed_bind (onNodeRead_eq hnode _) rfl]
  simp only [hmode]
  refine alone_at_owner hnode (fun _ hself => ?_) (fun _ haddr => ?_)
  · rw [hself] at hhome ⊢
    rw [Prog.alone_perform_bind (exec_store hhome _)]
    rfl
  · rw [haddr] at hhome ⊢
    rw [alone_remoteSet hhome hopen hanswered]

theorem alone_distributedGet_partitioned (hnode : g.nodes c = some n)
    (hmode : n.config.mode = .partitioned)
    (hhome : g.nodes (g.home c key) = some m) (hopen : m.closed = false)
    (hanswered : (choices 0).rpc = .answered) :
    MakesAccess impl g choices (g.home c key) (.get key)
      (distributedGet c key) StoreResult.found := by
  refine ⟨_, _, accessed_runStore hhome (choices 0).clock (.get key), ?_⟩
  unfold distributedGet
  rw [Prog.alone_untimed_bind (onNodeRead_eq hnode _) rfl]
  simp only [hmode]
  refine alone_at_owner hnode (fun _ hself => ?_) (fun _ haddr => ?_)
  · rw [hself] at hhome ⊢
    rw [Prog.alone_perform_bind (exec_store hhome _)]
    rfl
  · rw [haddr] at hhome ⊢
    rw [Prog.alone_bind_of_eq (alone_remoteGet hhome hopen hanswered)]
    cases (m.runStore impl (choices 0).clock (.get key)).1.found <;> rfl

theorem alone_distributedDelete_partitioned (hnode : g.nodes c = some n)
    (hmode : n.config.mode = .partitioned)
    (hhome : g.nodes (g.home c key) = some m) (hopen : m.closed = false)
    (hanswered : (choices 0).rpc = .answered) :
    MakesAccess impl g choices (g.home c key) (.delete key)
      (distributedDelete c key) fun _ => () := by
  unfold MakesAccess distributedDelete
  rw [Prog.alone_untimed_bind (onNodeRead_eq hnode _) rfl]
  simp only [hmode]
  rw [Prog.alone_bind_of_eq (alone_ownerAddr hnode)]
  by_cases hlocal : n.frame.ownerAddr key = []
  · rw [home_eq_self hnode hlocal] at hhome ⊢
    refine ⟨_, _, accessed_runStore hhome (choices 0).clock (.delete key),
      ?_⟩
    rw [if_neg (by simpa using hlocal),
      Prog.alone_perform_bind (exec_store hhome _)]
    rfl
  · rw [home_eq_addr hnode hlocal] at hhome ⊢
    obtain ⟨after, halone, haccess⟩ :=
      @alone_remoteDelete σ impl g _ key m choices hhome hopen hanswered
    refine ⟨_, after, haccess, ?_⟩
    rw [if_pos hlocal, Prog.alone_bind_of_eq halone]
    rfl

section PartitionedCalls

variable (hnode : g.nodes c = some n) (hopen : n.closed = false)
  (hmode : n.config.mode = .partitioned)
  (hhome : g.nodes (g.home c key) = some m) (hopen' : m.closed = false)
  (hanswered : (choices 0).rpc = .answered) (hkey : key ≠ [])

include hnode hopen hmode hhome hopen' hanswered hkey

theorem alone_set_partitioned (hdata : z.serialize value = .ok data)
    (ttl : Duration) :
    MakesAccess impl g choices (g.home c key)
      (.set key data (n.config.effectiveTTL ttl)) (set z c key value ttl)
      fun _ => none :=
  MakesAccess.set hnode hopen hkey hdata
    (alone_distributedSet_partitioned hnode hmode hhome hopen' hanswered _ _)

theorem alone_get_partitioned (dest : Dest D) :
    MakesAccess impl g choices (g.home c key) (.get key) (get z c key dest)
      fun result =>
        result.found.bind fun data => (z.deserialize data dest).toOption :=
  MakesAccess.get hnode hopen hkey dest
    (alone_distributedGet_partitioned hnode hmode hhome hopen' hanswered)

theorem alone_delete_partitioned :
    ∃ result final,
      Accessed impl g (g.home c key) ((choices 0).clock, .delete key) result
        final ∧
      final.Untagged c key ∧
      (delete c key).alone (machine impl) Op.timed choices g =
        some ((), later choices, final) :=
  MakesAccess.delete hnode hopen hkey
    (alone_distributedDelete_partitioned hnode hmode hhome hopen' hanswered)

end PartitionedCalls

/-! ## Replicated and near caches -/

theorem alone_distributedGet_replicated (hnode : g.nodes c = some n)
    (hmode : n.config.mode = .replicated) :
    MakesAccess impl g choices c (.get key) (distributedGet c key)
      StoreResult.found := by
  refine ⟨_, _, accessed_runStore hnode (choices 0).clock (.get key), ?_⟩
  unfold distributedGet
  rw [Prog.alone_untimed_bind (onNodeRead_eq hnode _) rfl]
  simp only [hmode]
  rw [Prog.alone_perform_bind (exec_store hnode _)]
  rfl

/-- The ways a Get takes at a near cache with the frame `f`: a hit in its own
store, a miss there and nobody else to ask, a miss at the owner, or a value
from the owner, which is stored for next time. -/
inductive NearGet (impl : StoreImpl σ) (g : Grid σ) (c key : GoString)
    (f : Frame) (choices : ℕ → Choice) : Option Bytes → Grid σ → Prop where
  | hit {result : StoreResult} {final : Grid σ} {data : Bytes}
      (hfirst : Accessed impl g c ((choices 0).clock, .get key) result final)
      (hfound : result.found = some data) :
      NearGet impl g c key f choices (some data) final
  | alone {result : StoreResult} {final : Grid σ}
      (hfirst : Accessed impl g c ((choices 0).clock, .get key) result final)
      (hfound : result.found = none) (hlocal : f.ownerAddr key = []) :
      NearGet impl g c key f choices none final
  | absent {result fetched : StoreResult} {middle final : Grid σ}
      (hfirst : Accessed impl g c ((choices 0).clock, .get key) result
        middle)
      (hfound : result.found = none) (hremote : f.ownerAddr key ≠ [])
      (hsecond : Accessed impl middle (g.home c key)
        ((choices 1).clock, .get key) fetched final)
      (hfetched : fetched.found = none) :
      NearGet impl g c key f choices none final
  | filled {result fetched stored : StoreResult} {middle asked final : Grid σ}
      {data : Bytes}
      (hfirst : Accessed impl g c ((choices 0).clock, .get key) result
        middle)
      (hfound : result.found = none) (hremote : f.ownerAddr key ≠ [])
      (hsecond : Accessed impl middle (g.home c key)
        ((choices 1).clock, .get key) fetched asked)
      (hfetched : fetched.found = some data)
      (hthird : Accessed impl asked c
        ((choices 2).clock, .set key data f.config.defaultTTL) stored final) :
      NearGet impl g c key f choices (some data) final

theorem NearGet.frame_eq {f : Frame} {found : Option Bytes}
    (hget : NearGet impl g c key f choices found after) :
    after.frame = g.frame := by
  cases hget with
  | hit hfirst _ => exact hfirst.frame_eq
  | alone hfirst _ _ => exact hfirst.frame_eq
  | absent hfirst _ _ hsecond _ =>
    exact hsecond.frame_eq.trans hfirst.frame_eq
  | filled hfirst _ _ hsecond _ hthird =>
    exact hthird.frame_eq.trans (hsecond.frame_eq.trans hfirst.frame_eq)

theorem alone_distributedGet_nearCache (hnode : g.nodes c = some n)
    (hmode : n.config.mode = .nearCache)
    (hhome : g.nodes (g.home c key) = some m) (hopen : m.closed = false)
    (hanswered : (choices 1).rpc = .answered) :
    ∃ found rest final, NearGet impl g c key n.frame choices found final ∧
      (distributedGet c key).alone (machine impl) Op.timed choices g =
        some (found, rest, final) := by
  have hfirst : Accessed impl g c ((choices 0).clock, .get key) _ _ :=
    accessed_runStore hnode _ _
  unfold distributedGet
  rw [Prog.alone_untimed_bind (onNodeRead_eq hnode _) rfl]
  simp only [hmode]
  rw [Prog.alone_perform_bind (exec_store hnode _)]
  simp only [Op.timed, if_true]
  cases hfound : (n.runStore impl (choices 0).clock (.get key)).1.found with
  | some data => exact ⟨_, _, _, .hit hfirst hfound, rfl⟩
  | none =>
    obtain ⟨n₁, hnode₁, hframe₁⟩ :=
      node_of_frame_eq hfirst.frame_eq hnode
    simp only
    rw [Prog.alone_bind_of_eq (alone_ownerAddr hnode₁), hframe₁]
    by_cases hlocal : n.frame.ownerAddr key = []
    · rw [if_neg (by simpa using hlocal)]
      exact ⟨_, _, _, .alone hfirst hfound hlocal, rfl⟩
    · obtain ⟨m₁, hhome₁, hframe⟩ :=
        node_of_frame_eq hfirst.frame_eq hhome
      have hopen₁ : m₁.closed = false :=
        (congrArg Frame.closed hframe).trans hopen
      have hsecond : Accessed impl _ (g.home c key)
          ((choices 1).clock, .get key) _ _ :=
        accessed_runStore hhome₁ _ _
      rw [if_pos hlocal, ← home_eq_addr hnode hlocal,
        Prog.alone_bind_of_eq (alone_remoteGet hhome₁ hopen₁ hanswered)]
      simp only [later_apply, Nat.zero_add]
      cases hfetched : (m₁.runStore impl (choices 1).clock
          (.get key)).1.found with
      | none =>
        exact ⟨_, _, _, .absent hfirst hfound hlocal hsecond hfetched,
          rfl⟩
      | some data =>
        obtain ⟨n₂, hnode₂, hframe₂⟩ :=
          node_of_frame_eq hsecond.frame_eq hnode₁
        have hconfig : n₂.config = n.config :=
          congrArg Frame.config (hframe₂.trans hframe₁)
        simp only [Option.getD_some, Option.isSome_some]
        rw [Prog.alone_untimed_bind (onNodeRead_eq hnode₂ _) rfl]
        rw [Prog.alone_perform_bind (exec_store hnode₂ _), hconfig]
        exact ⟨_, _, _, .filled hfirst hfound hlocal hsecond hfetched
          (accessed_runStore hnode₂ _ _), rfl⟩

theorem alone_distributedSet_nearCache (hnode : g.nodes c = some n)
    (hmode : n.config.mode = .nearCache)
    (hhome : g.nodes (g.home c key) = some m) (hopen : m.closed = false)
    (hanswered : (choices 1).rpc = .answered) (data : Bytes)
    (ttl : Duration) :
    ∃ result middle final rest,
      Accessed impl g c ((choices 0).clock, .set key data ttl) result
        middle ∧
      (n.frame.ownerAddr key = [] ∧ final = middle ∨
        n.frame.ownerAddr key ≠ [] ∧ ∃ result',
          Accessed impl middle (g.home c key)
            ((choices 1).clock, .set key data ttl) result' final) ∧
      (distributedSet c key data ttl []).alone (machine impl) Op.timed
        choices g = some (none, rest, final) := by
  have hfirst : Accessed impl g c ((choices 0).clock, .set key data ttl) _ _ :=
    accessed_runStore hnode _ _
  obtain ⟨n₁, hnode₁, hframe₁⟩ := node_of_frame_eq hfirst.frame_eq hnode
  unfold distributedSet
  rw [Prog.alone_untimed_bind (onNodeRead_eq hnode _) rfl]
  simp only [hmode]
  rw [Prog.alone_perform_bind (exec_store hnode _)]
  simp only [Op.timed, if_true]
  rw [Prog.alone_bind_of_eq (alone_ownerAddr hnode₁), hframe₁]
  by_cases hlocal : n.frame.ownerAddr key = []
  · rw [if_neg (by simpa using hlocal)]
    exact ⟨_, _, _, _, hfirst, Or.inl ⟨hlocal, rfl⟩, rfl⟩
  · obtain ⟨m₁, hhome₁, hframe⟩ := node_of_frame_eq hfirst.frame_eq hhome
    have hopen₁ : m₁.closed = false :=
      (congrArg Frame.closed hframe).trans hopen
    refine ⟨_, _, _, later (later choices), hfirst,
      Or.inr ⟨hlocal, _, accessed_runStore hhome₁ _ _⟩, ?_⟩
    rw [if_pos hlocal, ← home_eq_addr hnode hlocal]
    exact alone_remoteSet hhome₁ hopen₁ hanswered data ttl

/-! ## Caches without a cluster -/

theorem ownerAddr_local (hlocal : n.topology = none) (key : GoString) :
    n.frame.ownerAddr key = [] := by
  simp [Frame.ownerAddr, CacheNode.frame, hlocal]

section Local

variable (hnode : g.nodes c = some n) (hlocal : n.topology = none)

include hnode hlocal

theorem alone_ownerAddr_local :
    (ownerAddr c key).alone (machine impl) Op.timed choices g =
      some ([], choices, g) := by
  rw [alone_ownerAddr hnode, ownerAddr_local hlocal]

theorem alone_replicate_local (req : Transport.Request) :
    (replicate c req).alone (machine impl) Op.timed choices g =
      some ((), choices, g) := by
  unfold replicate
  rw [Prog.alone_perform_bind (onNodeRead_eq hnode _)]
  simp only [hlocal, Option.map_none]
  rfl

theorem Accessed.node_local {clock : Readings} {result : StoreResult}
    (haccess : Accessed impl g c (clock, op) result after) :
    ∃ n', after.nodes c = some n' ∧ n'.topology = none := by
  obtain ⟨n', hnode', hframe'⟩ := node_of_frame_eq haccess.frame_eq hnode
  exact ⟨n', hnode', (congrArg Frame.topology hframe').trans hlocal⟩

/-- Without a cluster, all modes come to the same. -/
theorem alone_distributedSet_local (data : Bytes) (ttl : Duration) :
    MakesAccess impl g choices c (.set key data ttl)
      (distributedSet c key data ttl []) fun _ => none := by
  have haccess := @accessed_runStore σ impl g c n hnode (choices 0).clock
    (.set key data ttl)
  refine ⟨_, _, haccess, ?_⟩
  obtain ⟨n', hnode', hlocal'⟩ := haccess.node_local hnode hlocal
  unfold distributedSet
  rw [Prog.alone_untimed_bind (onNodeRead_eq hnode _) rfl]
  cases n.config.mode with
  | replicated =>
    simp only
    rw [Prog.alone_perform_bind (exec_store hnode _),
      Prog.alone_bind_of_eq (alone_replicate_local hnode' hlocal' _)]
    rfl
  | nearCache =>
    simp only
    rw [Prog.alone_perform_bind (exec_store hnode _),
      Prog.alone_bind_of_eq (alone_ownerAddr_local hnode' hlocal')]
    rfl
  | partitioned =>
    simp only
    rw [Prog.alone_bind_of_eq (alone_ownerAddr_local hnode hlocal)]
    simp only [ne_eq, not_true_eq_false, if_false]
    rw [Prog.alone_perform_bind (exec_store hnode _)]
    rfl

theorem alone_distributedGet_local :
    MakesAccess impl g choices c (.get key) (distributedGet c key)
      StoreResult.found := by
  have haccess := @accessed_runStore σ impl g c n hnode (choices 0).clock
    (.get key)
  refine ⟨_, _, haccess, ?_⟩
  obtain ⟨n', hnode', hlocal'⟩ := haccess.node_local hnode hlocal
  unfold distributedGet
  rw [Prog.alone_untimed_bind (onNodeRead_eq hnode _) rfl]
  cases n.config.mode with
  | replicated =>
    simp only
    rw [Prog.alone_perform_bind (exec_store hnode _)]
    rfl
  | nearCache =>
    simp only
    rw [Prog.alone_perform_bind (exec_store hnode _)]
    cases (n.runStore impl (choices 0).clock (.get key)).1.found with
    | some data => rfl
    | none =>
      simp only
      rw [Prog.alone_bind_of_eq (alone_ownerAddr_local hnode' hlocal')]
      rfl
  | partitioned =>
    simp only
    rw [Prog.alone_bind_of_eq (alone_ownerAddr_local hnode hlocal)]
    simp only [ne_eq, not_true_eq_false, if_false]
    rw [Prog.alone_perform_bind (exec_store hnode _)]
    rfl

theorem alone_distributedDelete_local :
    MakesAccess impl g choices c (.delete key) (distributedDelete c key)
      fun _ => () := by
  have haccess := @accessed_runStore σ impl g c n hnode (choices 0).clock
    (.delete key)
  refine ⟨_, _, haccess, ?_⟩
  obtain ⟨n', hnode', hlocal'⟩ := haccess.node_local hnode hlocal
  unfold distributedDelete
  rw [Prog.alone_untimed_bind (onNodeRead_eq hnode _) rfl]
  cases n.config.mode with
  | replicated =>
    simp only
    rw [Prog.alone_perform_bind (exec_store hnode _)]
    exact alone_replicate_local hnode' hlocal' _
  | nearCache =>
    simp only
    rw [Prog.alone_perform_bind (exec_store hnode _),
      Prog.alone_bind_of_eq (alone_ownerAddr_local hnode' hlocal')]
    rfl
  | partitioned =>
    simp only
    rw [Prog.alone_bind_of_eq (alone_ownerAddr_local hnode hlocal)]
    simp only [ne_eq, not_true_eq_false, if_false]
    rw [Prog.alone_perform_bind (exec_store hnode _)]
    rfl

variable (hopen : n.closed = false) (hkey : key ≠ [])

include hopen hkey

theorem alone_set_local {value : GoValue V} {data : Bytes}
    (hdata : z.serialize value = .ok data) (ttl : Duration) :
    MakesAccess impl g choices c (.set key data (n.config.effectiveTTL ttl))
      (set z c key value ttl) fun _ => none :=
  MakesAccess.set hnode hopen hkey hdata
    (alone_distributedSet_local hnode hlocal _ _)

theorem alone_get_local (dest : Dest D) :
    MakesAccess impl g choices c (.get key) (get z c key dest) fun result =>
      result.found.bind fun data => (z.deserialize data dest).toOption :=
  MakesAccess.get hnode hopen hkey dest
    (alone_distributedGet_local hnode hlocal)

theorem alone_delete_local :
    ∃ result final,
      Accessed impl g c ((choices 0).clock, .delete key) result final ∧
      final.Untagged c key ∧
      (delete c key).alone (machine impl) Op.timed choices g =
        some ((), later choices, final) :=
  MakesAccess.delete hnode hopen hkey
    (alone_distributedDelete_local hnode hlocal)

theorem alone_exists_local :
    MakesAccess impl g choices c (.exists key) («exists» c key)
      StoreResult.ok := by
  refine ⟨_, _, accessed_runStore hnode (choices 0).clock (.exists key), ?_⟩
  unfold «exists»
  rw [if_neg hkey, Prog.alone_untimed_bind (onNodeRead_eq hnode _) rfl]
  simp only [hopen, Bool.false_eq_true, if_false]
  rw [Prog.alone_bind_of_eq (alone_ownerAddr_local hnode hlocal)]
  simp only [ne_eq, not_true_eq_false, if_false]
  rw [Prog.alone_perform_bind (exec_store hnode _)]
  rfl

end Local

end Grid

end CacheGrid
