import CacheGrid.GridEvolution
import CacheGrid.CallOutcomes

/-!
# Calls made of calls

SetWithTags, InvalidateTag and GetOrSet are written in terms of Set, Get and
Delete.  SetWithTags records the tags in the index of the cache it is called
on; InvalidateTag deletes the keys that this index holds under the tag.

A tag index changes only where an operation names one of its keys, so a run of
operations that name none of some keys leaves the tags of those keys as they
are, at every cache.
-/

namespace CacheGrid

open InterleavedPrograms SequentialRuns

/-- The order in which a range loop visits the keys of a map. -/
structure MapOrder where
  visit : Finset GoString → List GoString
  mem_visit : ∀ keys key, key ∈ visit keys ↔ key ∈ keys
  nodup : ∀ keys, (visit keys).Nodup

/-- The order that visits a map with exactly these keys in this order. -/
noncomputable def MapOrder.of (keys : List GoString) (hnodup : keys.Nodup) :
    MapOrder where
  visit := fun found => if found = keys.toFinset then keys else found.toList
  mem_visit := by
    intro found key
    split
    · rename_i heq
      rw [heq, List.mem_toFinset]
    · exact Finset.mem_toList
  nodup := by
    intro found
    split
    · exact hnodup
    · exact Finset.nodup_toList found

namespace Grid

section Programs

variable {V D : Type} (z : Serializer V D)

def setWithTags (c key : GoString) (value : GoValue V) (ttl : Duration)
    (tags : List GoString) : Program (Option CacheError) := do
  match ← set z c key value ttl with
  | some err => pure (some err)
  | none =>
    if 0 < tags.length then do
      perform (.tagsAdd c key tags)
      pure none
    else pure none

def deleteAll (c : GoString) : List GoString → Program Unit
  | [] => pure ()
  | key :: keys => do
    delete c key
    deleteAll c keys

def invalidateTag (c tag : GoString) (order : MapOrder) : Program Unit := do
  let keys ← perform (.tagsGetKeys c tag)
  deleteAll c (order.visit keys)

/-- `fn` is what the caller's function returns. -/
def getOrSet (c key : GoString) (dest : Dest D) (ttl : Duration)
    (fn : Except GoString (GoValue V)) :
    Program (Except CacheError (GoValue V)) := do
  if key = [] then pure (.error .keyEmpty)
  else if ← perform (.loadClosed c) then pure (.error .shutdown)
  else
    match ← get z c key dest with
    | some value => pure (.ok value)
    | none =>
      match fn with
      | .error err => pure (.error (.plain err))
      | .ok value => do
        match ← set z c key value ttl with
        | some err => pure (.error err)
        | none =>
          match z.serialize value with
          | .error cause => pure (.error (.serializationFailed cause))
          | .ok data =>
            pure ((z.deserialize data dest).mapError .plain)

end Programs

theorem alone_setWithTags_tagged {σ V D : Type} {impl : StoreImpl σ}
    {z : Serializer V D} {g after : Grid σ} {c key : GoString}
    {n : CacheNode σ} {value : GoValue V} {ttl : Duration}
    {tags : List GoString} {choices rest : ℕ → Choice} (htags : tags ≠ [])
    (hnode : after.nodes c = some n)
    (halone : (set z c key value ttl).alone (machine impl) Op.timed choices g =
      some (none, rest, after)) :
    (setWithTags z c key value ttl tags).alone (machine impl) Op.timed choices
      g = some (none, rest,
        after.setNode c { n with tags := n.tags.add key tags }) := by
  have hadd : (machine impl).exec after (.tagsAdd c key tags) (rest 0) =
      some ((), after.setNode c { n with tags := n.tags.add key tags }) :=
    onNode_eq hnode _
  unfold setWithTags
  rw [Prog.alone_bind_of_eq halone]
  simp only [List.length_pos_iff.mpr htags, if_true]
  rw [Prog.alone_perform_bind hadd]
  rfl

/-! ## Closed caches -/

section Closed

variable {σ : Type} {impl : StoreImpl σ} {g : Grid σ} {c : GoString}
  {n : CacheNode σ} {choices : ℕ → Choice} (hnode : g.nodes c = some n)
  (hclosed : n.closed = true)

include hnode hclosed

theorem alone_checked_closed {α : Type} {closed next : Program α} :
    (do if ← perform (.loadClosed c) then closed else next).alone
      (machine impl) Op.timed choices g =
      closed.alone (machine impl) Op.timed choices g := by
  rw [Prog.alone_perform_bind (onNodeRead_eq hnode _)]
  simp only [hclosed, Op.timed, Bool.false_eq_true, if_false, if_true]

theorem alone_delete_closed (key : GoString) :
    (delete c key).alone (machine impl) Op.timed choices g =
      some ((), choices, g) := by
  unfold delete
  split
  · rfl
  · rw [alone_checked_closed hnode hclosed]
    rfl

theorem alone_deleteAll_closed (keys : List GoString) :
    (deleteAll c keys).alone (machine impl) Op.timed choices g =
      some ((), choices, g) := by
  induction keys with
  | nil => rfl
  | cons key keys ih =>
    unfold deleteAll
    rw [Prog.alone_bind_of_eq (alone_delete_closed hnode hclosed key), ih]

end Closed

end Grid

/-! ## Steps -/

inductive CompoundCall (V D : Type) where
  | basic (call : CacheCall V D)
  | setWithTags (key : GoString) (value : GoValue V) (ttl : Duration)
      (tags : List GoString)
  | invalidateTag (tag : GoString) (order : MapOrder)
  | getOrSet (key : GoString) (dest : Dest D) (ttl : Duration)
      (fn : Except GoString (GoValue V))

inductive CompoundReply (V : Type) where
  | basic (reply : CacheReply V)
  /-- `GetOrSet`: an error, or the value in the destination. -/
  | filled (result : Except CacheError (GoValue V))
  deriving DecidableEq

def CompoundCall.program {V D : Type} (z : Serializer V D) (c : GoString) :
    CompoundCall V D → Grid.Program (CompoundReply V)
  | .basic call => CompoundReply.basic <$> call.program z c
  | .setWithTags key value ttl tags =>
    (fun error => CompoundReply.basic (.stored error)) <$>
      Grid.setWithTags z c key value ttl tags
  | .invalidateTag tag order =>
    (fun _ => CompoundReply.basic .done) <$> Grid.invalidateTag c tag order
  | .getOrSet key dest ttl fn =>
    CompoundReply.filled <$> Grid.getOrSet z c key dest ttl fn

namespace Grid

structure CompoundStep (V D : Type) where
  c : GoString
  call : CompoundCall V D
  timeline : Timeline

/-- A call runs from its beginning to its end. -/
def compoundStep {σ V D : Type} (impl : StoreImpl σ) (z : Serializer V D)
    (g : Grid σ) (s : CompoundStep V D) : Option (CompoundReply V) × Grid σ :=
  match (s.call.program z s.c).alone (machine impl) Op.timed
      s.timeline.choice g with
  | none => (none, g)
  | some (reply, _, after) => (some reply, after)

end Grid

/-! ## Tag indexes that agree on some keys -/

/-- The tags of the keys in `P` are the same in both. -/
structure TagIndex.Agrees (P : GoString → Prop) (ti after : TagIndex) : Prop
    where
  lookup_eq : ∀ key, P key →
    after.keyToTags.lookup key = ti.keyToTags.lookup key
  mem_iff : ∀ key, P key → ∀ tag,
    key ∈ after.getKeysByTag tag ↔ key ∈ ti.getKeysByTag tag
  wellFormed : ti.WellFormed → after.WellFormed

namespace TagIndex

variable {P : GoString → Prop} {ti middle after : TagIndex} {key : GoString}

theorem Agrees.refl (ti : TagIndex) : Agrees P ti ti :=
  ⟨fun _ _ => rfl, fun _ _ _ => Iff.rfl, id⟩

theorem Agrees.trans (hfirst : Agrees P ti middle)
    (hsecond : Agrees P middle after) : Agrees P ti after where
  lookup_eq key hkey :=
    (hsecond.lookup_eq key hkey).trans (hfirst.lookup_eq key hkey)
  mem_iff key hkey tag :=
    (hsecond.mem_iff key hkey tag).trans (hfirst.mem_iff key hkey tag)
  wellFormed := fun hwell => hsecond.wellFormed (hfirst.wellFormed hwell)

theorem Agrees.tagsOf_eq (hagrees : Agrees P ti after) (hkey : P key) :
    after.tagsOf key = ti.tagsOf key := by
  unfold tagsOf
  rw [hagrees.lookup_eq key hkey]

theorem ne_of_not (hkey : ¬P key) {other : GoString} (hother : P other) :
    other ≠ key := by
  rintro rfl
  exact hkey hother

theorem agrees_add (hkey : ¬P key) (ti : TagIndex) {tags : List GoString}
    (htags : tags ≠ []) : Agrees P ti (ti.add key tags) where
  lookup_eq _ hother := ti.lookup_add_of_ne (ne_of_not hkey hother) tags
  mem_iff _ hother tag :=
    ti.mem_getKeysByTag_add_of_ne (ne_of_not hkey hother) tags tag
  wellFormed := fun hwell => hwell.add key htags

theorem agrees_remove (hkey : ¬P key) (ti : TagIndex) :
    Agrees P ti (ti.remove key) where
  lookup_eq _ hother := ti.lookup_remove_of_ne (ne_of_not hkey hother)
  mem_iff _ hother tag :=
    ti.mem_getKeysByTag_remove_of_ne (ne_of_not hkey hother) tag
  wellFormed := fun hwell => hwell.remove key

end TagIndex

namespace CacheNode

variable {σ : Type} {impl : StoreImpl σ} {P : GoString → Prop}

theorem handleMGet_tags (clock : Readings) (keys : List GoString)
    (n : CacheNode σ) : (handleMGet impl clock keys n).2.tags = n.tags := by
  induction keys generalizing n with
  | nil => rfl
  | cons key keys ih =>
    simp only [handleMGet]
    split
    · exact ih _
    · split
      · exact ih _
      · exact ih _

/-- Whoever asks, only a Set with tags and a Delete reach the tag index. -/
theorem processRequest_agrees {clock : Readings} (random : Fin 16 → UInt8)
    {req : Transport.Request}
    (hset : req.op = Transport.opSet → req.tags ≠ [] → ¬P req.key)
    (hdelete : req.op = Transport.opDelete → ¬P req.key) (n : CacheNode σ) :
    n.tags.Agrees P
      (Transport.processRequest (handler impl clock random) req n).2.tags := by
  refine Transport.processRequest_state
    (fun n' : CacheNode σ => n.tags.Agrees P n'.tags) (fun _ => .refl _) ?_ ?_
    (fun _ => .refl _) ?_ ?_ ?_ (.refl _) (.refl _) (.refl _)
  · intro hsets
    change n.tags.Agrees P
      (handleSet impl clock req.key req.value req.ttl req.tags n).tags
    unfold handleSet
    split
    · have htags : req.tags ≠ [] := List.length_pos_iff.mp ‹_›
      exact TagIndex.agrees_add (hset hsets htags) n.tags htags
    · exact .refl _
  · intro hdeletes
    exact TagIndex.agrees_remove (hdelete hdeletes) n.tags
  · intro _
    change n.tags.Agrees P (handleMGet impl clock req.keys n).2.tags
    rw [handleMGet_tags]
    exact .refl _
  · intro _
    change n.tags.Agrees P
      (handleIncr impl clock req.key req.delta n).2.tags
    unfold handleIncr
    simp only
    split <;> exact .refl _
  · change n.tags.Agrees P
      (handleLockAcquire clock random req.key req.ttl n).2.tags
    unfold handleLockAcquire
    simp only
    split <;> exact .refl _

end CacheNode

namespace Grid

variable {σ V D : Type} {impl : StoreImpl σ} {z : Serializer V D}
  {P : GoString → GoString → Prop} {g middle after : Grid σ}

/-- Every cache has kept the tags of its keys in `P`. -/
def TagsAgree (P : GoString → GoString → Prop) (g after : Grid σ) : Prop :=
  ∀ c n', after.nodes c = some n' →
    ∃ n, g.nodes c = some n ∧ n.tags.Agrees (P c) n'.tags

theorem TagsAgree.refl (g : Grid σ) : TagsAgree P g g :=
  fun _ n' hnode => ⟨n', hnode, .refl _⟩

theorem TagsAgree.trans (hfirst : TagsAgree P g middle)
    (hsecond : TagsAgree P middle after) : TagsAgree P g after := by
  intro c n' hnode'
  obtain ⟨m, hmiddle, hagrees⟩ := hsecond c n' hnode'
  obtain ⟨n, hnode, hagrees'⟩ := hfirst c m hmiddle
  exact ⟨n, hnode, hagrees'.trans hagrees⟩

theorem tagsAgree_setNode {c : GoString} {n n' : CacheNode σ}
    (hnode : g.nodes c = some n) (hagrees : n.tags.Agrees (P c) n'.tags) :
    TagsAgree P g (g.setNode c n') := by
  intro d m hd
  by_cases heq : d = c
  · subst heq
    simp only [setNode, Function.update_self, Option.some.injEq] at hd
    exact ⟨n, hnode, hd ▸ hagrees⟩
  · simp only [setNode, Function.update_of_ne heq] at hd
    exact ⟨m, hd, .refl _⟩

theorem onNode_tagsAgree {α : Type} {c : GoString}
    {method : CacheNode σ → α × CacheNode σ} {answer : α}
    (hexec : g.onNode c method = some (answer, after))
    (hmethod : ∀ n : CacheNode σ, n.tags.Agrees (P c) (method n).2.tags) :
    TagsAgree P g after := by
  obtain ⟨n, hnode, _, rfl⟩ := onNode_cases hexec
  exact tagsAgree_setNode hnode (hmethod n)

theorem onNodeRead_tagsAgree {α : Type} {c : GoString}
    {method : CacheNode σ → α} {answer : α}
    (hexec : g.onNodeRead c method = some (answer, after)) :
    TagsAgree P g after := by
  obtain ⟨_, _, _, rfl⟩ := onNodeRead_cases hexec
  exact .refl after

/-- The operation changes the tags of no key in `P`. -/
def Op.SparesTags (P : GoString → GoString → Prop) : Op → Prop
  | .tagsRemove c key => ¬P c key
  | .tagsAdd c key tags => ¬P c key ∧ tags ≠ []
  | .call addr req =>
    (req.op = Transport.opSet → req.tags ≠ [] → ¬P addr req.key) ∧
      (req.op = Transport.opDelete → ¬P addr req.key)
  | _ => True

theorem exec_tagsAgree {op : Op} {choice : Choice} {answer : op.Answer}
    (hop : op.SparesTags P)
    (hexec : (machine impl).exec g op choice = some (answer, after)) :
    TagsAgree P g after := by
  cases op with
  | loadClosed c => exact onNodeRead_tagsAgree hexec
  | loadConfig c => exact onNodeRead_tagsAgree hexec
  | ringGetNode c key => exact onNodeRead_tagsAgree hexec
  | selfName c => exact onNodeRead_tagsAgree hexec
  | stateGetNode c name => exact onNodeRead_tagsAgree hexec
  | liveNodes c => exact onNodeRead_tagsAgree hexec
  | store c op => exact onNode_tagsAgree hexec fun _ => .refl _
  | tagsRemove c key =>
    exact onNode_tagsAgree hexec fun n => TagIndex.agrees_remove hop n.tags
  | tagsAdd c key tags =>
    exact onNode_tagsAgree hexec fun n =>
      TagIndex.agrees_add hop.1 n.tags hop.2
  | tagsGetKeys c tag => exact onNodeRead_tagsAgree hexec
  | broker c call => exact onNode_tagsAgree hexec fun _ => .refl _
  | call addr req =>
    rcases exec_call_cases hexec with ⟨_, rfl, _⟩ | ⟨n, _, hnode, rfl, _⟩
    · exact .refl after
    · exact tagsAgree_setNode hnode
        (CacheNode.processRequest_agrees choice.random hop.1 hop.2 n)
  | goCall addr req =>
    simp only [machine, exec, Option.some.injEq, Prod.mk.injEq] at hexec
    exact hexec.2 ▸ fun c n' hnode => ⟨n', hnode, .refl _⟩

theorem Op.sparesTags_of_plain {op : Op} (hplain : op.plain = true) :
    op.SparesTags P := by
  cases op with
  | tagsRemove c key => contradiction
  | tagsAdd c key tags => contradiction
  | call addr req => contradiction
  | _ => trivial

/-- The operation leads to store calls that are allowed and changes the tags
of no key in `P`. -/
def Op.Confined (P : GoString → GoString → Prop)
    (allowed : GoString → Readings × StoreOp → Prop) (op : Op) : Prop :=
  op.SparesTags P ∧ ∀ clock, op.Within allowed clock

section Confined

variable {allowed : GoString → Readings × StoreOp → Prop} {c : GoString}

theorem Op.confined_of_plain {op : Op} (hplain : op.plain = true) :
    op.Confined P allowed :=
  ⟨Op.sparesTags_of_plain hplain, fun _ =>
    Op.within_of_quiet (Op.quiet_of_plain hplain)⟩

theorem performed_sparesTags {f : Frame} {call : CacheCall V D}
    (htags : ∀ key, call = .delete key → ∀ d, ¬P d key) {op : Op}
    (hop : Performed z f c call op) : op.SparesTags P := by
  have hfetches : ∀ {key}, Fetches f c key op → op.SparesTags P := by
    rintro key (rfl | ⟨_, rfl⟩ | ⟨data, rfl⟩)
    · trivial
    · exact ⟨nofun, nofun⟩
    · trivial
  have hcounts : ∀ {key delta}, Counts f c key delta op →
      op.SparesTags P := by
    rintro key delta (rfl | ⟨_, rfl⟩)
    · trivial
    · exact ⟨nofun, nofun⟩
  cases call with
  | set key value lifetime =>
    obtain ⟨data, _, rfl | ⟨_, rfl⟩⟩ := hop
    · trivial
    · exact ⟨fun _ hne => absurd rfl hne, nofun⟩
  | get key dest => exact hfetches hop
  | delete key =>
    obtain rfl | ⟨_, rfl⟩ := hop
    · trivial
    · exact ⟨nofun, fun _ => htags key rfl _⟩
  | «exists» key =>
    obtain rfl | ⟨_, rfl⟩ := hop
    · trivial
    · exact ⟨nofun, nofun⟩
  | ttl key =>
    obtain rfl := hop
    trivial
  | mget keys =>
    obtain ⟨key, _, hfetch⟩ := hop
    exact hfetches hfetch
  | incr key delta => exact hcounts hop
  | decr key delta => exact hcounts hop

/-- A call touches the records of its keys, and the tags of the key it
deletes. -/
theorem performed_confined {f : Frame} {call : CacheCall V D}
    (htags : ∀ key, call = .delete key → ∀ d, ¬P d key)
    (hkeys : ∀ key ∈ call.keys, ∀ d storeCall,
      storeCall.2.key? = some key → allowed d storeCall) {op : Op}
    (hop : Performed z f c call op) : op.Confined P allowed := by
  refine ⟨performed_sparesTags htags hop, fun clock => ?_⟩
  obtain ⟨key, hkey, haccess⟩ := hop.accesses
  exact haccess.within fun d storeOp => hkeys key hkey d (clock, storeOp)

theorem performs_confined {frame : Option Frame} {call : CacheCall V D}
    (htags : ∀ key, call = .delete key → ∀ d, ¬P d key)
    (hkeys : ∀ key ∈ call.keys, ∀ d storeCall,
      storeCall.2.key? = some key → allowed d storeCall) :
    (call.program z c).Performs (Consistent frame c)
      (Op.Confined P allowed) fun _ => True :=
  performs_call Op.confined_of_plain
    (fun key hdelete => ⟨htags key hdelete c, fun _ => trivial⟩)
    fun _ _ _ hop => performed_confined htags hkeys hop

section OneKey

variable {frame : Option Frame} {key : GoString} {value : GoValue V}
  {ttl : Duration}
  (hkeys : ∀ d storeCall, storeCall.2.key? = some key → allowed d storeCall)

include hkeys

theorem performs_set_confined :
    (set z c key value ttl).Performs (Consistent frame c)
      (Op.Confined P allowed) fun _ => True :=
  performs_set Op.confined_of_plain fun _ _ _ hop =>
    performed_confined nofun
      (fun _ hother => List.mem_singleton.mp hother ▸ hkeys) hop

theorem performs_get_confined {dest : Dest D} :
    (get z c key dest).Performs (Consistent frame c)
      (Op.Confined P allowed) fun _ => True :=
  performs_get Op.confined_of_plain fun f _ op hfetch =>
    have hop : Performed z f c (.get key dest) op := hfetch
    performed_confined nofun
      (fun _ hother => List.mem_singleton.mp hother ▸ hkeys) hop

theorem performs_setWithTags {tags : List GoString} (hkey : ¬P c key) :
    (setWithTags z c key value ttl tags).Performs (Consistent frame c)
      (Op.Confined P allowed) fun _ => True := by
  unfold setWithTags
  refine (performs_set_confined hkeys).bind ?_
  intro error _
  cases error with
  | some err => trivial
  | none =>
    simp only
    split
    · have hne : tags ≠ [] := List.length_pos_iff.mp ‹_›
      exact (Prog.performs_perform
        ⟨⟨hkey, hne⟩, fun _ => trivial⟩).bind fun _ _ => trivial
    · trivial

theorem performs_getOrSet {dest : Dest D}
    {fn : Except GoString (GoValue V)} :
    (getOrSet z c key dest ttl fn).Performs (Consistent frame c)
      (Op.Confined P allowed) fun _ => True := by
  unfold getOrSet
  split
  · trivial
  · refine performs_checked Op.confined_of_plain trivial fun f _ => ?_
    refine (performs_get_confined hkeys).bind ?_
    intro found _
    cases found with
    | some value => trivial
    | none =>
      cases fn with
      | error err => trivial
      | ok value =>
        refine (performs_set_confined hkeys).bind ?_
        intro error _
        cases error with
        | some err => trivial
        | none =>
          simp only
          split <;> trivial

end OneKey

theorem performs_deleteAll {frame : Option Frame} {keys : List GoString}
    (htags : ∀ key ∈ keys, ∀ d, ¬P d key)
    (hkeys : ∀ key ∈ keys, ∀ d clock, allowed d (clock, .delete key)) :
    (deleteAll c keys).Performs (Consistent frame c) (Op.Confined P allowed)
      fun _ => True := by
  induction keys with
  | nil => trivial
  | cons key keys ih =>
    have hdelete : (delete c key).Performs (Consistent frame c)
        (Op.Confined P allowed) fun _ => True := by
      refine performs_delete Op.confined_of_plain
        ⟨htags key List.mem_cons_self c, fun _ => trivial⟩ ?_
      rintro f _ op (rfl | ⟨_, rfl⟩)
      · exact ⟨trivial, fun clock => hkeys key List.mem_cons_self c clock⟩
      · refine ⟨⟨nofun, fun _ => htags key List.mem_cons_self _⟩, ?_⟩
        intro clock op hleads
        cases hleads with
        | delete _ => exact hkeys key List.mem_cons_self _ clock
        | get hop => exact absurd hop (by decide : Transport.opDelete ≠ _)
        | set hop => exact absurd hop (by decide : Transport.opDelete ≠ _)
        | «exists» hop =>
          exact absurd hop (by decide : Transport.opDelete ≠ _)
        | mget hop _ =>
          exact absurd hop (by decide : Transport.opDelete ≠ _)
        | incr hop _ =>
          exact absurd hop (by decide : Transport.opDelete ≠ _)
    unfold deleteAll
    exact hdelete.bind fun _ _ =>
      ih (fun k hk => htags k (List.mem_cons_of_mem _ hk))
        fun k hk => hkeys k (List.mem_cons_of_mem _ hk)

theorem alone_evolves {α : Type} {program : Program α} {post : α → Prop}
    (hperforms : program.Performs (Consistent (g.frame c) c)
      (Op.Confined P allowed) post)
    {choices rest : ℕ → Choice} {value : α}
    (halone : program.alone (machine impl) Op.timed choices g =
      some (value, rest, after)) :
    Evolves impl allowed g after ∧ TagsAgree P g after := by
  refine hperforms.alone_invariant
    (fun g' => Evolves impl allowed g g' ∧ TagsAgree P g g') ?_
    ⟨.refl g, .refl g⟩ halone
  intro g' op choice answer after' hg' hop hexec
  have hconsistent := exec_consistent c hexec
  rw [hg'.1.frame_eq] at hconsistent
  exact ⟨hconsistent, hg'.1.trans (exec_evolves (hop.2 choice.clock) hexec),
    hg'.2.trans (exec_tagsAgree hop.1 hexec)⟩

end Confined

end Grid

end CacheGrid
