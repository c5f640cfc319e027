import CacheGrid.TagHistory

/-!
# Namespaces

`WithNamespace` returns a view of a cache whose methods put the name of the
namespace and a colon in front of every key and every tag, and call the cache.
Nothing is escaped, so two namespaces share keys as soon as one name, with the
colon, begins the other.  The tag index is shared too: InvalidateTag deletes
whatever key the index holds under the tag, in whichever namespace it is.
-/

namespace CacheGrid

open InterleavedPrograms SequentialRuns TimedMap

structure NamespacedCache where
  cache : GoString
  «namespace» : GoString

def withNamespace (c «namespace» : GoString) : NamespacedCache :=
  ⟨c, «namespace»⟩

def NamespacedCache.prefixKey (nc : NamespacedCache) (key : GoString) :
    GoString :=
  nc.namespace ++ ascii ":" ++ key

def NamespacedCache.prefixTag (nc : NamespacedCache) (tag : GoString) :
    GoString :=
  nc.namespace ++ ascii ":" ++ tag

inductive NamespacedCall (V D : Type) where
  | set (key : GoString) (value : GoValue V) (ttl : Duration)
  | get (key : GoString) (dest : Dest D)
  | delete (key : GoString)
  | exists (key : GoString)
  | ttl (key : GoString)
  | getOrSet (key : GoString) (dest : Dest D) (ttl : Duration)
      (fn : Except GoString (GoValue V))
  | incr (key : GoString) (delta : Int64)
  | decr (key : GoString) (delta : Int64)
  | setWithTags (key : GoString) (value : GoValue V) (ttl : Duration)
      (tags : List GoString)
  | invalidateTag (tag : GoString) (order : MapOrder)

def NamespacedCall.onCache {V D : Type} (nc : NamespacedCache) :
    NamespacedCall V D → CompoundCall V D
  | .set key value lifetime =>
    .basic (.set (nc.prefixKey key) value lifetime)
  | .get key dest => .basic (.get (nc.prefixKey key) dest)
  | .delete key => .basic (.delete (nc.prefixKey key))
  | .exists key => .basic (.exists (nc.prefixKey key))
  | .ttl key => .basic (.ttl (nc.prefixKey key))
  | .getOrSet key dest lifetime fn =>
    .getOrSet (nc.prefixKey key) dest lifetime fn
  | .incr key delta => .basic (.incr (nc.prefixKey key) delta)
  | .decr key delta => .basic (.decr (nc.prefixKey key) delta)
  | .setWithTags key value lifetime tags =>
    .setWithTags (nc.prefixKey key) value lifetime (tags.map nc.prefixTag)
  | .invalidateTag tag order => .invalidateTag (nc.prefixTag tag) order

def NamespacedCall.reads {V D : Type} : NamespacedCall V D → Bool
  | .get _ _ => true
  | .exists _ => true
  | .ttl _ => true
  | _ => false

/-- A key can be in both namespaces. -/
def NamespacedCache.Overlap (nc other : NamespacedCache) : Prop :=
  nc.namespace ++ ascii ":" <+: other.namespace ++ ascii ":" ∨
    other.namespace ++ ascii ":" <+: nc.namespace ++ ascii ":"

namespace NamespacedCache

variable {nc other : NamespacedCache}

theorem prefixKey_ne_nil (nc : NamespacedCache) (key : GoString) :
    nc.prefixKey key ≠ [] := by
  simp [prefixKey, ascii]

theorem overlap_iff :
    nc.Overlap other ↔ ∃ key key', nc.prefixKey key = other.prefixKey key' := by
  constructor
  · rintro (⟨key, heq⟩ | ⟨key, heq⟩)
    · exact ⟨key, [], heq.trans (List.append_nil _).symm⟩
    · exact ⟨[], key, (List.append_nil _).trans heq.symm⟩
  · rintro ⟨key, key', heq⟩
    have hleft := List.prefix_append (nc.namespace ++ ascii ":") key
    have hright := List.prefix_append (other.namespace ++ ascii ":") key'
    unfold prefixKey at heq
    rw [heq] at hleft
    exact List.prefix_or_prefix_of_prefix hleft hright

end NamespacedCache

namespace Grid

structure NamespacedStep (V D : Type) where
  call : NamespacedCall V D
  timeline : Timeline

variable {σ V D : Type}

def namespacedStep (impl : StoreImpl σ) (z : Serializer V D)
    (nc : NamespacedCache) (g : Grid σ) (s : NamespacedStep V D) :
    Option (CompoundReply V) × Grid σ :=
  compoundStep impl z g ⟨nc.cache, s.call.onCache nc, s.timeline⟩

variable {impl : StoreImpl σ} {z : Serializer V D} {good : σ → Prop}
  {contents : σ → Contents GoString Bytes} {start g after : Grid σ}
  {n : CacheNode σ} {nc other : NamespacedCache} {c key : GoString}

/-! ## Closed caches -/

section Closed

variable {choices : ℕ → Choice} (hnode : g.nodes c = some n)
  (hclosed : n.closed = true)

include hnode hclosed

theorem alone_set_closed (value : GoValue V) (ttl : Duration) :
    ∃ error, (set z c key value ttl).alone (machine impl) Op.timed choices g =
      some (some error, choices, g) := by
  unfold set
  split
  · exact ⟨_, rfl⟩
  · rw [alone_checked_closed hnode hclosed]
    exact ⟨_, rfl⟩

theorem alone_setWithTags_closed (value : GoValue V) (ttl : Duration)
    (tags : List GoString) :
    ∃ error, (setWithTags z c key value ttl tags).alone (machine impl)
      Op.timed choices g = some (some error, choices, g) := by
  obtain ⟨error, hset⟩ := @alone_set_closed σ V D impl z g n c key choices
    hnode hclosed value ttl
  refine ⟨error, ?_⟩
  unfold setWithTags
  rw [Prog.alone_bind_of_eq hset]
  rfl

theorem alone_incrBy_closed (key : GoString) (delta : Int64) :
    ∃ result, (incrBy c key delta).alone (machine impl) Op.timed choices g =
      some (result, choices, g) := by
  unfold incrBy
  split
  · exact ⟨_, rfl⟩
  · rw [alone_checked_closed hnode hclosed]
    exact ⟨_, rfl⟩

theorem alone_call_closed (call : CacheCall V D) :
    ∃ reply, (call.program z c).alone (machine impl) Op.timed choices g =
      some (reply, choices, g) := by
  cases call with
  | set key value ttl =>
    obtain ⟨_, halone⟩ := @alone_set_closed σ V D impl z g n c key choices
      hnode hclosed value ttl
    exact ⟨_, Prog.alone_map_of_eq halone⟩
  | get key dest =>
    have halone : (get z c key dest).alone (machine impl) Op.timed choices
        g = some (none, choices, g) := by
      unfold get
      split
      · rfl
      · rw [alone_checked_closed hnode hclosed]
        rfl
    exact ⟨_, Prog.alone_map_of_eq halone⟩
  | delete key =>
    exact ⟨_, Prog.alone_map_of_eq (alone_delete_closed hnode hclosed key)⟩
  | «exists» key =>
    have halone : («exists» c key).alone (machine impl) Op.timed choices
        g = some (false, choices, g) := by
      unfold «exists»
      split
      · rfl
      · rw [alone_checked_closed hnode hclosed]
        rfl
    exact ⟨_, Prog.alone_map_of_eq halone⟩
  | ttl key =>
    have halone : (ttl c key).alone (machine impl) Op.timed choices g =
        some (0, choices, g) := by
      unfold ttl
      split
      · rfl
      · rw [alone_checked_closed hnode hclosed]
        rfl
    exact ⟨_, Prog.alone_map_of_eq halone⟩
  | mget keys =>
    have halone : (mget c keys).alone (machine impl) Op.timed choices g =
        some ([], choices, g) := by
      unfold mget
      rw [alone_checked_closed hnode hclosed]
      rfl
    exact ⟨_, Prog.alone_map_of_eq halone⟩
  | incr key delta =>
    obtain ⟨_, halone⟩ := @alone_incrBy_closed σ impl g n c choices hnode
      hclosed key delta
    exact ⟨_, Prog.alone_map_of_eq halone⟩
  | decr key delta =>
    obtain ⟨_, halone⟩ := @alone_incrBy_closed σ impl g n c choices hnode
      hclosed key (-delta)
    exact ⟨_, Prog.alone_map_of_eq halone⟩

end Closed

theorem compoundStep_closed {s : CompoundStep V D}
    (hnode : g.nodes s.c = some n) (hclosed : n.closed = true) :
    (compoundStep impl z g s).2 = g := by
  suffices halone : ∃ reply, (s.call.program z s.c).alone (machine impl)
      Op.timed s.timeline.choice g = some (reply, s.timeline.choice, g) by
    obtain ⟨reply, halone⟩ := halone
    rw [compoundStep_of_alone halone]
  cases s.call with
  | basic call =>
    obtain ⟨_, halone⟩ := @alone_call_closed σ V D impl z g n s.c
      s.timeline.choice hnode hclosed call
    exact ⟨_, Prog.alone_map_of_eq halone⟩
  | setWithTags key value ttl tags =>
    obtain ⟨_, halone⟩ := @alone_setWithTags_closed σ V D impl z g n s.c key
      s.timeline.choice hnode hclosed value ttl tags
    exact ⟨_, Prog.alone_map_of_eq halone⟩
  | invalidateTag tag order =>
    have halone : (invalidateTag s.c tag order).alone (machine impl)
        Op.timed s.timeline.choice g =
        some ((), s.timeline.choice, g) := by
      unfold invalidateTag
      rw [Prog.alone_perform_bind (onNodeRead_eq hnode _)]
      exact alone_deleteAll_closed hnode hclosed _
    exact ⟨_, Prog.alone_map_of_eq halone⟩
  | getOrSet key dest ttl fn =>
    have halone : ∃ result, (getOrSet z s.c key dest ttl fn).alone
        (machine impl) Op.timed s.timeline.choice g =
        some (result, s.timeline.choice, g) := by
      unfold getOrSet
      split
      · exact ⟨_, rfl⟩
      · rw [alone_checked_closed hnode hclosed]
        exact ⟨_, rfl⟩
    obtain ⟨_, halone⟩ := halone
    exact ⟨_, Prog.alone_map_of_eq halone⟩

/-! ## Reads -/

/-- The two agree about the records that the namespace can read. -/
structure SameView (good : σ → Prop) (contents : σ → Contents GoString Bytes)
    (nc : NamespacedCache) (g g' : Grid σ) : Prop where
  frame_eq : g'.frame nc.cache = g.frame nc.cache
  held_eq : ∀ key, g'.held contents (nc.prefixKey key) nc.cache =
    g.held contents (nc.prefixKey key) nc.cache
  good_store : ∀ {d s}, g.stores d = some s → good s
  good_store' : ∀ {d s}, g'.stores d = some s → good s

theorem Accessed.result_eq {codec : Msgpack} {clock : Readings}
    {op : StoreOp} {result : StoreResult}
    (haccess : Accessed impl g c (clock, op) result after)
    (hlaw : KeepsLedger impl codec good contents)
    (hgood : ∀ {c s}, g.stores c = some s → good s)
    (hkey : op.key? = some key) :
    result = (cellStep codec clock op (g.held contents key c)).1 := by
  obtain ⟨s, hs, hresult, _⟩ := haccess.cases
  rw [hresult, hlaw.result_eq (hgood hs) hkey, held, hs, Option.bind_some]

variable {s : NamespacedStep V D}

/-- A read is one access to the store, and its reply depends only on what the
store answers. -/
theorem namespacedStep_read (impl : StoreImpl σ) (z : Serializer V D)
    (nc : NamespacedCache) (hread : s.call.reads = true) :
    ∃ op key, ∃ reply : StoreResult → CompoundReply V,
      op.key? = some (nc.prefixKey key) ∧
      ∀ {g : Grid σ} {n}, g.nodes nc.cache = some n → n.topology = none →
        n.closed = false → ∃ result after,
          Accessed impl g nc.cache ((s.timeline.choice 0).clock, op) result
            after ∧
          namespacedStep impl z nc g s = (some (reply result), after) := by
  obtain ⟨call, timeline⟩ := s
  cases call with
  | get key dest =>
    refine ⟨.get (nc.prefixKey key), key, fun result =>
      .basic (.got (result.found.bind fun data =>
        (z.deserialize data dest).toOption)), rfl, ?_⟩
    intro g n hnode hlocal hopen
    obtain ⟨result, after, haccess, halone⟩ := @alone_get_local σ V D impl
      z g nc.cache (nc.prefixKey key) n timeline.choice hnode hlocal hopen
      (nc.prefixKey_ne_nil key) dest
    exact ⟨result, after, haccess, compoundStep_of_alone
      (Prog.alone_map_of_eq (f := CompoundReply.basic)
        (Prog.alone_map_of_eq (f := CacheReply.got) halone))⟩
  | «exists» key =>
    refine ⟨.exists (nc.prefixKey key), key, fun result =>
      .basic (.present result.ok), rfl, ?_⟩
    intro g n hnode hlocal hopen
    obtain ⟨result, after, haccess, halone⟩ := @alone_exists_local σ impl g
      nc.cache (nc.prefixKey key) n timeline.choice hnode hlocal hopen
      (nc.prefixKey_ne_nil key)
    exact ⟨result, after, haccess, compoundStep_of_alone
      (Prog.alone_map_of_eq (f := CompoundReply.basic)
        (Prog.alone_map_of_eq (f := CacheReply.present) halone))⟩
  | ttl key =>
    refine ⟨.ttl (nc.prefixKey key), key, fun result =>
      .basic (.remaining result.ttl), rfl, ?_⟩
    intro g n hnode _ hopen
    obtain ⟨result, after, haccess, halone⟩ := @alone_ttl σ impl g nc.cache
      (nc.prefixKey key) n timeline.choice hnode hopen
      (nc.prefixKey_ne_nil key)
    exact ⟨result, after, haccess, compoundStep_of_alone
      (Prog.alone_map_of_eq (f := CompoundReply.basic)
        (Prog.alone_map_of_eq (f := CacheReply.remaining) halone))⟩
  | _ => contradiction

section Reads

variable (hlaw : KeepsLedger impl z.toMsgpack good contents)

include hlaw

theorem SameView.step {g g' : Grid σ} (hsame : SameView good contents nc g g')
    (hready : LocalReady nc.cache nc.cache g) (hread : s.call.reads = true) :
    (namespacedStep impl z nc g' s).1 = (namespacedStep impl z nc g s).1 ∧
      SameView good contents nc (namespacedStep impl z nc g s).2
        (namespacedStep impl z nc g' s).2 ∧
      LocalReady nc.cache nc.cache (namespacedStep impl z nc g s).2 := by
  obtain ⟨op, key, reply, hop, hstep⟩ := namespacedStep_read impl z nc hread
  have hready' := hready
  obtain ⟨_, f, hf, hlocal, hopen⟩ := hready
  obtain ⟨n, hnode, rfl⟩ := Option.map_eq_some_iff.mp hf
  obtain ⟨n', hnode', hframe'⟩ :=
    Option.map_eq_some_iff.mp (hsame.frame_eq.trans hf)
  have hlocal' : n'.topology = none :=
    (congrArg Frame.topology hframe').trans hlocal
  have hopen' : n'.closed = false :=
    (congrArg Frame.closed hframe').trans hopen
  obtain ⟨result, after, haccess, heq⟩ := hstep hnode hlocal hopen
  obtain ⟨result', after', haccess', heq'⟩ := hstep hnode' hlocal' hopen'
  rw [heq, heq']
  refine ⟨?_, ⟨?_, fun k => ?_, ?_, ?_⟩, ?_⟩
  · rw [haccess.result_eq hlaw hsame.good_store hop,
      haccess'.result_eq hlaw hsame.good_store' hop, hsame.held_eq key]
  · rw [haccess.frame_eq, haccess'.frame_eq, hsame.frame_eq]
  · rw [haccess.held_eq hlaw hsame.good_store hop,
      haccess'.held_eq hlaw hsame.good_store' hop, hsame.held_eq key,
      hsame.held_eq k]
  · have hsettles : Settles good g g := ⟨rfl, hsame.good_store⟩
    exact fun {_ _} hs =>
      (hsettles.accessed hlaw.lossy haccess).good_store hs
  · have hsettles : Settles good g' g' := ⟨rfl, hsame.good_store'⟩
    exact fun {_ _} hs =>
      (hsettles.accessed hlaw.lossy haccess').good_store hs
  · exact (homed_local impl z nc.cache).of_frame_eq hready' haccess.frame_eq

theorem SameView.run {g g' : Grid σ}
    (hsame : SameView good contents nc g g')
    (hready : LocalReady nc.cache nc.cache g)
    {reads : List (NamespacedStep V D)}
    (hreads : ∀ s ∈ reads, s.call.reads = true) :
    (SequentialRuns.run (namespacedStep impl z nc) g' reads).1 =
      (SequentialRuns.run (namespacedStep impl z nc) g reads).1 := by
  induction reads generalizing g g' with
  | nil => rfl
  | cons s reads ih =>
    obtain ⟨hresult, hsame', hready'⟩ :=
      hsame.step hlaw hready (hreads s List.mem_cons_self)
    have hrest := ih hsame' hready'
      fun s' hs' => hreads s' (List.mem_cons_of_mem s hs')
    simp only [SequentialRuns.run, hresult, hrest]

end Reads

/-! ## Changes -/

/-- A key of the namespace `other` with a record at the start. -/
def Owned (contents : σ → Contents GoString Bytes) (c : GoString)
    (other : NamespacedCache) (start : Grid σ) (key : GoString) : Prop :=
  (∃ key', key = other.prefixKey key') ∧ start.held contents key c ≠ none

/-- An access to a key outside the namespace `other`, or a Delete of a key
without a record. -/
def Foreign (contents : σ → Contents GoString Bytes) (c : GoString)
    (other : NamespacedCache) (start : Grid σ)
    (call : Readings × StoreOp) : Prop :=
  ∃ key, call.2.key? = some key ∧
    ((∀ key', key ≠ other.prefixKey key') ∨
      call.2 = .delete key ∧ start.held contents key c = none)

/-- The namespace `other` has its records as at the start, and none of them is
in the index under a tag of `nc`. -/
structure Isolated (good : σ → Prop) (contents : σ → Contents GoString Bytes)
    (nc other : NamespacedCache) (start g : Grid σ) : Prop
    extends Settles good start g where
  held_eq : ∀ key, g.held contents (other.prefixKey key) nc.cache =
    start.held contents (other.prefixKey key) nc.cache
  untagged : ∀ n, g.nodes nc.cache = some n → ∀ tag,
    ∀ key ∈ n.tags.getKeysByTag (nc.prefixTag tag),
      ¬Owned contents nc.cache other start key

section Changes

variable (hlaw : KeepsLedger impl z.toMsgpack good contents)

include hlaw

theorem Isolated.alone {α : Type} {program : Program α}
    (hisolated : Isolated good contents nc other start g)
    (hperforms : program.Performs (Consistent (g.frame nc.cache) nc.cache)
      (Op.Confined (fun _ => Owned contents nc.cache other start)
        fun _ => Foreign contents nc.cache other start) fun _ => True)
    {choices rest : ℕ → Choice} {value : α}
    (halone : program.alone (machine impl) Op.timed choices g =
      some (value, rest, after)) :
    Isolated good contents nc other start after := by
  obtain ⟨hevolves, hagree⟩ := alone_evolves hperforms halone
  refine ⟨hisolated.toSettles.evolves hlaw.lossy hevolves, ?_, ?_⟩
  · intro key
    rw [← hisolated.held_eq key]
    refine stores_bind_eq hevolves.frame_eq ?_
    intro s' hs'
    obtain ⟨s, hs, hreached⟩ := hevolves.reached hs'
    refine ⟨s, hs, hreached.contents_eq hlaw.lossy
      (hisolated.good_store hs) ?_⟩
    rintro middle ⟨clock, op⟩ hmiddle hsame ⟨touched, hop, hforeign⟩
    by_cases htouched : touched = other.prefixKey key
    · obtain ⟨rfl, hnone⟩ :=
        hforeign.resolve_left fun h => h key htouched
      subst htouched
      have habsent := hisolated.held_eq key
      rw [hnone, held, hs, Option.bind_some, ← hsame] at habsent
      rw [hlaw.contents_eq hmiddle hop, Function.update_self, habsent]
      rfl
    · exact hlaw.contents_of_ne hmiddle hop htouched
  · intro n' hnode' tag key hmem howned
    obtain ⟨n, hnode, hagrees⟩ := hagree nc.cache n' hnode'
    rw [hagrees.mem_iff key howned] at hmem
    exact hisolated.untagged n hnode tag key hmem howned

/-- The keys under a tag of the namespace are its own or have no record. -/
theorem Isolated.invalidateTag
    (hisolated : Isolated good contents nc other start g)
    (hnode : g.nodes nc.cache = some n) {tag : GoString} {order : MapOrder}
    {choices rest : ℕ → Choice} {reply : CompoundReply V}
    (halone : (CompoundCall.program z nc.cache
      (.invalidateTag (nc.prefixTag tag) order)).alone (machine impl)
        Op.timed choices g = some (reply, rest, after)) :
    Isolated good contents nc other start after := by
  have hread : (CompoundCall.program z nc.cache
      (.invalidateTag (nc.prefixTag tag) order)).alone (machine impl)
        Op.timed choices g =
      ((fun _ => CompoundReply.basic .done) <$> deleteAll nc.cache
        (order.visit (n.tags.getKeysByTag (nc.prefixTag tag)))).alone
          (machine impl) Op.timed choices g :=
    Prog.alone_perform_bind (onNodeRead_eq hnode _)
  have hunowned : ∀ key ∈ order.visit
      (n.tags.getKeysByTag (nc.prefixTag tag)),
      ¬Owned contents nc.cache other start key := by
    intro key hkey
    rw [order.mem_visit] at hkey
    exact hisolated.untagged n hnode tag key hkey
  rw [hread] at halone
  refine hisolated.alone hlaw ((performs_deleteAll
    (fun key hkey _ => hunowned key hkey) ?_).map fun _ _ => trivial) halone
  intro key hkey _ clock
  refine ⟨key, rfl, ?_⟩
  by_cases hother : ∃ key', key = other.prefixKey key'
  · right
    refine ⟨rfl, ?_⟩
    by_contra hheld
    exact hunowned key hkey ⟨hother, hheld⟩
  · left
    exact not_exists.mp hother

end Changes

section Apart

variable (hapart : ¬nc.Overlap other)

include hapart

theorem ne_prefixKey_of_apart (key key' : GoString) :
    nc.prefixKey key ≠ other.prefixKey key' := fun heq =>
  hapart (NamespacedCache.overlap_iff.mpr ⟨key, key', heq⟩)

theorem not_owned_of_apart (key : GoString) :
    ¬Owned contents c other start (nc.prefixKey key) := by
  rintro ⟨⟨key', heq⟩, _⟩
  exact ne_prefixKey_of_apart hapart key key' heq

theorem foreign_of_apart {key : GoString} {call : Readings × StoreOp}
    (hkey : call.2.key? = some (nc.prefixKey key)) :
    Foreign contents c other start call :=
  ⟨_, hkey, Or.inl (ne_prefixKey_of_apart hapart key)⟩

theorem performs_apart {frame : Option Frame} {call : CacheCall V D}
    {key : GoString} (hkeys : call.keys = [nc.prefixKey key]) :
    (call.program z c).Performs (Consistent frame c)
      (Op.Confined (fun _ => Owned contents c other start)
        fun _ => Foreign contents c other start) fun _ => True := by
  refine performs_confined ?_ ?_
  · rintro touched rfl _
    obtain rfl : touched = nc.prefixKey key := List.singleton_inj.mp hkeys
    exact not_owned_of_apart hapart key
  · intro touched htouched _ storeCall hop
    rw [hkeys, List.mem_singleton] at htouched
    exact foreign_of_apart hapart (htouched ▸ hop)

theorem Isolated.step (hlaw : KeepsLedger impl z.toMsgpack good contents)
    (hisolated : Isolated good contents nc other start g)
    (hnode : g.nodes nc.cache = some n) (hchange : s.call.reads = false) :
    Isolated good contents nc other start (namespacedStep impl z nc g s).2 := by
  unfold namespacedStep compoundStep
  split
  · exact hisolated
  · rename_i reply rest after halone
    have hbasic : ∀ {call : CacheCall V D} {key},
        call.keys = [nc.prefixKey key] →
        (CompoundCall.program z nc.cache (.basic call)).alone (machine impl)
          Op.timed s.timeline.choice g = some (reply, rest, after) →
        Isolated good contents nc other start after := fun hkeys halone =>
      hisolated.alone hlaw ((performs_apart hapart hkeys).map
        fun _ _ => trivial) halone
    have hforeign : ∀ {key} (d : GoString) (storeCall : Readings × StoreOp),
        storeCall.2.key? = some (nc.prefixKey key) →
        Foreign contents nc.cache other start storeCall :=
      fun _ _ hkey => foreign_of_apart hapart hkey
    obtain ⟨call, timeline⟩ := s
    cases call with
    | set key value lifetime => exact hbasic rfl halone
    | delete key => exact hbasic rfl halone
    | incr key delta => exact hbasic rfl halone
    | decr key delta => exact hbasic rfl halone
    | getOrSet key dest lifetime fn =>
      exact hisolated.alone hlaw
        ((performs_getOrSet hforeign).map fun _ _ => trivial) halone
    | setWithTags key value lifetime tags =>
      exact hisolated.alone hlaw ((performs_setWithTags hforeign
        (not_owned_of_apart hapart key)).map fun _ _ => trivial) halone
    | invalidateTag tag order =>
      exact hisolated.invalidateTag hlaw hnode halone
    | get key dest => contradiction
    | «exists» key => contradiction
    | ttl key => contradiction

theorem Isolated.run (hlaw : KeepsLedger impl z.toMsgpack good contents)
    (hruns : start.nodes nc.cache = some n)
    (hisolated : Isolated good contents nc other start g)
    {changes : List (NamespacedStep V D)}
    (hchanges : ∀ s ∈ changes, s.call.reads = false) :
    Isolated good contents nc other start
      (SequentialRuns.run (namespacedStep impl z nc) g changes).2 := by
  induction changes generalizing g with
  | nil => exact hisolated
  | cons s changes ih =>
    obtain ⟨m, hnode, _⟩ := node_of_frame_eq hisolated.frame_eq hruns
    exact ih (hisolated.step hapart hlaw hnode
        (hchanges s List.mem_cons_self))
      fun s' hs' => hchanges s' (List.mem_cons_of_mem s hs')

end Apart

/-! ## Namespaces that notice each other -/

section Converse

variable (hlaw : KeepsLedger impl z.toMsgpack good contents)
  (hgood : ∀ {d s}, g.stores d = some s → good s)
  (hready : LocalReady nc.cache nc.cache g)

include hlaw hgood hready

theorem namespacedStep_exists (key : GoString) (t : ℤ) :
    (namespacedStep impl z nc g ⟨.exists key, .instant t⟩).1 =
      some (.basic (.present
        (g.copyAt contents t nc.cache (nc.prefixKey key)).isSome)) := by
  obtain ⟨_, f, hf, hlocal, hopen⟩ := hready
  obtain ⟨n, hnode, rfl⟩ := Option.map_eq_some_iff.mp hf
  obtain ⟨result, after, haccess, halone⟩ := @alone_exists_local σ impl g
    nc.cache (nc.prefixKey key) n (Timeline.instant t).choice hnode hlocal
    hopen (nc.prefixKey_ne_nil key)
  have hstep : namespacedStep impl z nc g ⟨.exists key, .instant t⟩ =
      (some (.basic (.present result.ok)), after) :=
    compoundStep_of_alone (Prog.alone_map_of_eq (f := CompoundReply.basic)
      (Prog.alone_map_of_eq (f := CacheReply.present) halone))
  rw [hstep, haccess.result_eq hlaw hgood rfl, copyAt_eq_filter]
  cases hcell : g.held contents (nc.prefixKey key) nc.cache with
  | none => rfl
  | some r =>
    by_cases hdead : r.dead t = true
    · simp [Timeline.instant, cellStep, Option.filter, hdead]
      rfl
    · simp [Timeline.instant, cellStep, Option.filter, hdead]
      rfl

theorem noticed_of_isSome_ne (hsettles : Settles good g after)
    {key : GoString} {t : ℤ}
    (hne : (after.copyAt contents t nc.cache (nc.prefixKey key)).isSome ≠
      (g.copyAt contents t nc.cache (nc.prefixKey key)).isSome) :
    (namespacedStep impl z nc after ⟨.exists key, .instant t⟩).1 ≠
      (namespacedStep impl z nc g ⟨.exists key, .instant t⟩).1 := by
  have hafter : LocalReady nc.cache nc.cache after :=
    (homed_local impl z nc.cache).of_frame_eq hready hsettles.frame_eq
  rw [namespacedStep_exists hlaw hgood hready,
    namespacedStep_exists hlaw hsettles.good_store hafter]
  intro heq
  injection heq with heq
  injection heq with heq
  injection heq with heq
  exact hne heq

theorem namespacedStep_set (key : GoString) (t : ℤ) :
    let final := (namespacedStep impl z nc g
      ⟨.set key (.bytes []) 0, .instant t⟩).2
    Settles good g final ∧ (final.copyAt contents t nc.cache
      (nc.prefixKey key)).isSome = true := by
  obtain ⟨_, f, hf, hlocal, hopen⟩ := hready
  obtain ⟨n, hnode, rfl⟩ := Option.map_eq_some_iff.mp hf
  obtain ⟨result, after, haccess, halone⟩ := @alone_set_local σ V D impl z g
    nc.cache (nc.prefixKey key) n (Timeline.instant t).choice hnode hlocal
    hopen (nc.prefixKey_ne_nil key) (.bytes []) [] rfl 0
  have hstep : namespacedStep impl z nc g
      ⟨.set key (.bytes []) 0, .instant t⟩ =
      (some (.basic (.stored none)), after) :=
    compoundStep_of_alone (Prog.alone_map_of_eq (f := CompoundReply.basic)
      (Prog.alone_map_of_eq (f := CacheReply.stored) halone))
  have halive : (⟨[], deadlineOf t (n.config.effectiveTTL 0)⟩ :
      Record Bytes).dead t = false := by
    unfold deadlineOf
    split
    · simp only [Record.dead, decide_eq_false_iff_not]
      omega
    · rfl
  have hsettles : Settles good g g := ⟨rfl, hgood⟩
  rw [hstep]
  refine ⟨hsettles.accessed hlaw.lossy haccess, ?_⟩
  rw [copyAt_eq_filter, haccess.held_eq hlaw hgood rfl, if_pos ⟨rfl, rfl⟩]
  simp [Timeline.instant, Readings.instant, cellStep, Option.filter, halive]

theorem namespacedStep_deletes (hnode : g.nodes nc.cache = some n)
    (htagging : (s.call.onCache nc).tagging = true)
    (hwritten : (s.call.onCache nc).written? z = none) {key : GoString}
    (hkey : key ∈ (s.call.onCache nc).deleted n.tags) (hne : key ≠ []) :
    let final := (namespacedStep impl z nc g s).2
    Settles good g final ∧
      ∀ t, (final.copyAt contents t nc.cache key).isSome = false := by
  have hsettles : Settles good g g := ⟨rfl, hgood⟩
  have hdropped := (homed_local impl z nc.cache).compoundStep_deleted hlaw
    (s := ⟨nc.cache, s.call.onCache nc, s.timeline⟩) hready trivial hsettles
    hnode htagging hwritten
  refine ⟨hdropped.toSettles, fun t => ?_⟩
  rw [copyAt_eq_filter]
  have hnone := hdropped.held_none key hkey hne
  simp only [namespacedStep, hnone]
  rfl

/-- Two namespaces that share a key notice each other. -/
theorem exists_noticed_of_overlap (hcache : other.cache = nc.cache)
    (hoverlap : nc.Overlap other) :
    ∃ change read : NamespacedStep V D, change.call.reads = false ∧
      read.call.reads = true ∧
      (namespacedStep impl z other (namespacedStep impl z nc g change).2
        read).1 ≠ (namespacedStep impl z other g read).1 := by
  obtain ⟨key, key', heq⟩ := NamespacedCache.overlap_iff.mp hoverlap
  obtain ⟨n, hnode, _⟩ := (homed_local impl z nc.cache).node hready
  have hready' : LocalReady other.cache other.cache g := hcache ▸ hready
  -- the shared key is deleted if it can be read, and set otherwise
  by_cases hpresent :
      (g.copyAt contents 0 nc.cache (nc.prefixKey key)).isSome = true
  · obtain ⟨hsettles, hgone⟩ := namespacedStep_deletes (V := V) (D := D)
      hlaw hgood hready (s := ⟨.delete key, .instant 0⟩) hnode rfl rfl
      (List.mem_singleton_self _) (nc.prefixKey_ne_nil key)
    refine ⟨⟨.delete key, .instant 0⟩, ⟨.exists key', .instant 0⟩, rfl, rfl,
      noticed_of_isSome_ne hlaw hgood hready' hsettles ?_⟩
    rw [hcache, ← heq, hgone 0, hpresent]
    decide
  · obtain ⟨hsettles, hset⟩ := namespacedStep_set (V := V) (D := D) hlaw
      hgood hready key 0
    refine ⟨⟨.set key (.bytes []) 0, .instant 0⟩,
      ⟨.exists key', .instant 0⟩, rfl, rfl,
      noticed_of_isSome_ne hlaw hgood hready' hsettles ?_⟩
    rw [hcache, ← heq, hset]
    exact fun h => hpresent h.symm

/-- A record of one namespace that the index has under a tag of the other does
not survive InvalidateTag. -/
theorem exists_noticed_of_tag (hcache : other.cache = nc.cache)
    (hnode : g.nodes nc.cache = some n) {tag key : GoString}
    (hkey : other.prefixKey key ∈ n.tags.getKeysByTag (nc.prefixTag tag))
    (hheld : g.held contents (other.prefixKey key) nc.cache ≠ none) :
    ∃ change read : NamespacedStep V D, change.call.reads = false ∧
      read.call.reads = true ∧
      (namespacedStep impl z other (namespacedStep impl z nc g change).2
        read).1 ≠ (namespacedStep impl z other g read).1 := by
  have hready' : LocalReady other.cache other.cache g := hcache ▸ hready
  obtain ⟨r, hr⟩ := Option.ne_none_iff_exists'.mp hheld
  obtain ⟨t, halive⟩ : ∃ t, r.dead t = false := by
    cases hdeadline : r.deadline with
    | none => exact ⟨0, by simp [Record.dead, hdeadline]⟩
    | some deadline => exact ⟨deadline, by simp [Record.dead, hdeadline]⟩
  obtain ⟨order⟩ : Nonempty MapOrder := ⟨.of [] List.nodup_nil⟩
  obtain ⟨hsettles, hgone⟩ := namespacedStep_deletes (V := V) (D := D)
    hlaw hgood hready (s := ⟨.invalidateTag tag order, .instant t⟩) hnode rfl
    rfl ((order.mem_visit _ _).mpr hkey) (other.prefixKey_ne_nil key)
  refine ⟨⟨.invalidateTag tag order, .instant t⟩,
    ⟨.exists key, .instant t⟩, rfl, rfl,
    noticed_of_isSome_ne hlaw hgood hready' hsettles ?_⟩
  rw [hcache, hgone t, copyAt_eq_filter, hr]
  simp [Option.filter, halive]

end Converse

theorem run_closed (hnode : g.nodes nc.cache = some n)
    (hclosed : n.closed = true) (steps : List (NamespacedStep V D)) :
    (SequentialRuns.run (namespacedStep impl z nc) g steps).2 = g := by
  induction steps with
  | nil => rfl
  | cons s steps ih =>
    have hstep : (namespacedStep impl z nc g s).2 = g :=
      compoundStep_closed hnode hclosed
    simp only [SequentialRuns.run, hstep, ih]

/-- A local cache whose store keeps all records.  The changes made through one
namespace are never noticed by Get, Exists and TTL through another one exactly
if the cache is closed or the names do not overlap and no record of the second
is in the index under a tag of the first. -/
theorem namespace_isolated_iff
    (hlaw : KeepsLedger impl z.toMsgpack good contents)
    (hgood : ∀ {d s}, g.stores d = some s → good s)
    (hnode : g.nodes c = some n) (hlocal : n.topology = none)
    (a b : GoString) :
    (∀ changes reads : List (NamespacedStep V D),
      (∀ s ∈ changes, s.call.reads = false) →
      (∀ s ∈ reads, s.call.reads = true) →
      (SequentialRuns.run (namespacedStep impl z (withNamespace c b))
        (SequentialRuns.run (namespacedStep impl z (withNamespace c a)) g
          changes).2 reads).1 =
        (SequentialRuns.run (namespacedStep impl z (withNamespace c b)) g
          reads).1) ↔
      n.closed = true ∨
        ¬(withNamespace c a).Overlap (withNamespace c b) ∧
          ∀ tag key, (withNamespace c b).prefixKey key ∈
              n.tags.getKeysByTag ((withNamespace c a).prefixTag tag) →
            g.held contents ((withNamespace c b).prefixKey key) c = none := by
  constructor
  · intro hisolated
    by_contra hviolated
    rw [not_or, not_and_or, not_not] at hviolated
    obtain ⟨hopen, hshared⟩ := hviolated
    have hready : LocalReady c c g :=
      ⟨rfl, n.frame, frame_of_node hnode, hlocal,
        Bool.not_eq_true _ ▸ hopen⟩
    have hnoticed : ∃ change read : NamespacedStep V D,
        change.call.reads = false ∧ read.call.reads = true ∧
        (namespacedStep impl z (withNamespace c b)
          (namespacedStep impl z (withNamespace c a) g change).2 read).1 ≠
          (namespacedStep impl z (withNamespace c b) g read).1 := by
      rcases hshared with hoverlap | htagged
      · exact exists_noticed_of_overlap hlaw hgood hready rfl hoverlap
      · push Not at htagged
        obtain ⟨tag, key, hkey, hheld⟩ := htagged
        exact exists_noticed_of_tag hlaw hgood hready rfl hnode hkey hheld
    obtain ⟨change, read, hchange, hread, hne⟩ := hnoticed
    have heq := hisolated [change] [read] (by simpa using hchange)
      (by simpa using hread)
    exact hne (List.cons.inj heq).1
  · intro hcondition changes reads hchanges hreads
    by_cases hclosed : n.closed = true
    · rw [run_closed hnode hclosed changes]
    · obtain ⟨hapart, huntagged⟩ := hcondition.resolve_left hclosed
      have hinitial : Isolated good contents (withNamespace c a)
          (withNamespace c b) g g := by
        refine ⟨⟨rfl, hgood⟩, fun _ => rfl, ?_⟩
        rintro m hm tag _ hkey ⟨⟨key, rfl⟩, hheld⟩
        obtain rfl : n = m := Option.some.inj (hnode.symm.trans hm)
        exact hheld (huntagged tag key hkey)
      have hisolated := hinitial.run hapart hlaw hnode hchanges
      have hview : SameView good contents (withNamespace c b) g
          (SequentialRuns.run (namespacedStep impl z (withNamespace c a)) g
            changes).2 :=
        ⟨congrFun hisolated.frame_eq c, hisolated.held_eq, hgood,
          hisolated.good_store⟩
      refine hview.run hlaw ?_ hreads
      exact ⟨rfl, n.frame, frame_of_node hnode, hlocal,
        Bool.not_eq_true _ ▸ hclosed⟩

/-- Two names neither of which begins the other. -/
theorem namespace_isolated_users :
    let g := launchLocal ⟨.partitioned, 0⟩
      (MemoryStore.new 1 (by decide) 0 true true)
    let reads : List (NamespacedStep Empty Empty) :=
      [⟨.get (ascii "k") .int64, .instant 1⟩]
    (SequentialRuns.run (namespacedStep (MemoryStore.impl .int64) .basic
        (withNamespace [] (ascii "v")))
      (SequentialRuns.run (namespacedStep (MemoryStore.impl .int64) .basic
        (withNamespace [] (ascii "u"))) g
        [⟨.set (ascii "k") (.int64 7) 0, .instant 0⟩]).2 reads).1 =
      (SequentialRuns.run (namespacedStep (MemoryStore.impl .int64) .basic
        (withNamespace [] (ascii "v"))) g reads).1 := by
  intro g reads
  have hgood : ∀ {d s}, g.stores d = some s → MemoryStore.Unlimited s := by
    intro d s hs
    obtain ⟨n, hnode, rfl⟩ := Option.map_eq_some_iff.mp hs
    rw [(launchLocal_nodes hnode).2]
    exact MemoryStore.unlimited_new 1 (by decide) le_rfl true true
  have hnode : g.nodes [] = some (newNode none [] ⟨.partitioned, 0⟩
      (MemoryStore.new 1 (by decide) 0 true true)) := by
    simp [g, launchLocal]
  have hapart : ¬(withNamespace [] (ascii "u")).Overlap
      (withNamespace [] (ascii "v")) := by
    unfold NamespacedCache.Overlap
    decide
  have hiff := namespace_isolated_iff (z := .basic)
    (MemoryStore.keepsLedger .int64) hgood hnode rfl (ascii "u") (ascii "v")
  have hempty : ∀ tag key, (withNamespace [] (ascii "v")).prefixKey key ∈
      (TagIndex.new).getKeysByTag
        ((withNamespace [] (ascii "u")).prefixTag tag) →
      g.held MemoryStore.contents
        ((withNamespace [] (ascii "v")).prefixKey key) [] = none :=
    fun _ _ hmem => absurd hmem List.not_mem_nil
  exact hiff.mpr (Or.inr ⟨hapart, hempty⟩) _ reads (by simp; rfl)
    (by simp [reads]; rfl)

/-- One name begins the other: the key `1:k` of the first is the key `k` of
the second. -/
theorem namespace_noticed_nested :
    let g := launchLocal ⟨.partitioned, 0⟩
      (MemoryStore.new 1 (by decide) 0 true true)
    let reads : List (NamespacedStep Empty Empty) :=
      [⟨.exists (ascii "k"), .instant 1⟩]
    ascii "u" ≠ ascii "u:1" ∧
      (SequentialRuns.run (namespacedStep (MemoryStore.impl .int64) .basic
          (withNamespace [] (ascii "u:1")))
        (SequentialRuns.run (namespacedStep (MemoryStore.impl .int64) .basic
          (withNamespace [] (ascii "u"))) g
          [⟨.set (ascii "1:k") (.int64 7) 0, .instant 0⟩]).2 reads).1 ≠
        (SequentialRuns.run (namespacedStep (MemoryStore.impl .int64) .basic
          (withNamespace [] (ascii "u:1"))) g reads).1 := by
  decide +kernel

end Grid

end CacheGrid
