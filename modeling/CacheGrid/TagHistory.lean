import CacheGrid.TagCalls
import CacheGrid.GridReads

/-!
# The index and the history of writes

In a cache without a cluster the tag index is compared with the history: the
tags of the most recent write of a key.  They agree for every key that is in
the store, as long as a write without tags never meets a key that still has
tags: such a write stores the value and leaves the index as it is.
-/

namespace CacheGrid

open InterleavedPrograms SequentialRuns TimedMap

/-! ## The history -/

/-- The key and the tags that a call writes, if it succeeds on a running
cache. -/
def CompoundCall.written? {V D : Type} (z : Serializer V D) :
    CompoundCall V D → Option (GoString × List GoString)
  | .basic (.set key value _) =>
    if key ≠ [] ∧ (z.serialize value).isOk then some (key, []) else none
  | .setWithTags key value _ tags =>
    if key ≠ [] ∧ (z.serialize value).isOk then some (key, tags) else none
  | _ => none

theorem CompoundCall.cases_of_written {V D : Type} {z : Serializer V D}
    {call : CompoundCall V D} {key : GoString} {tags : List GoString}
    (hwritten : call.written? z = some (key, tags)) :
    ∃ value lifetime data, key ≠ [] ∧ z.serialize value = .ok data ∧
      (call = .basic (.set key value lifetime) ∧ tags = [] ∨
        call = .setWithTags key value lifetime tags) := by
  have hdata : ∀ {value : GoValue V}, (z.serialize value).isOk = true →
      ∃ data, z.serialize value = .ok data := by
    intro value hvalue
    cases h : z.serialize value with
    | error cause => simp [h, Except.isOk, Except.toBool] at hvalue
    | ok data => exact ⟨data, rfl⟩
  cases call with
  | basic call =>
    cases call with
    | set k value lifetime =>
      obtain ⟨⟨hkey, hvalue⟩, heq⟩ := Option.ite_none_right_eq_some.mp
        hwritten
      obtain ⟨data, hvalue⟩ := hdata hvalue
      cases heq
      exact ⟨value, lifetime, data, hkey, hvalue, Or.inl ⟨rfl, rfl⟩⟩
    | _ => contradiction
  | setWithTags k value lifetime ts =>
    obtain ⟨⟨hkey, hvalue⟩, heq⟩ := Option.ite_none_right_eq_some.mp hwritten
    obtain ⟨data, hvalue⟩ := hdata hvalue
    cases heq
    exact ⟨value, lifetime, data, hkey, hvalue, Or.inr rfl⟩
  | invalidateTag tag order => contradiction
  | getOrSet k dest ttl fn => contradiction

def CompoundCall.tagging {V D : Type} : CompoundCall V D → Bool
  | .basic (.set _ _ _) => true
  | .basic (.delete _) => true
  | .setWithTags _ _ _ _ => true
  | .invalidateTag _ _ => true
  | _ => false

/-- The key that a call writes without tags. -/
def CompoundCall.untagged? {V D : Type} :
    CompoundCall V D → Option GoString
  | .basic (.set key _ _) => some key
  | .setWithTags key _ _ [] => some key
  | _ => none

/-- The keys that a call deletes on a cache with this index. -/
def CompoundCall.deleted {V D : Type} (ti : TagIndex) :
    CompoundCall V D → List GoString
  | .basic (.delete key) => [key]
  | .invalidateTag tag order => order.visit (ti.getKeysByTag tag)
  | _ => []

namespace Grid

variable {σ V D : Type}

/-- For every key, the cache and the tags of its most recent write. -/
abbrev History := GoString → Option (GoString × List GoString)

def remember (z : Serializer V D) (history : History)
    (s : CompoundStep V D) : History :=
  match s.call.written? z with
  | none => history
  | some (key, tags) => Function.update history key (some (s.c, tags))

def History.tags (history : History) (key : GoString) : List GoString :=
  ((history key).map Prod.snd).getD []

def historyOf (z : Serializer V D) (steps : List (CompoundStep V D)) :
    History :=
  steps.foldl (remember z) fun _ => none

/-! ## Calls that reach the home of their key -/

/-- A cache that is ready carries out Set and Delete on the record at the home
of the key, along any timeline that is `ok`. -/
structure Homed (impl : StoreImpl σ) (z : Serializer V D)
    (home : GoString → GoString) (ready : GoString → Grid σ → Prop)
    (ok : (ℕ → Choice) → Prop) : Prop where
  of_frame_eq : ∀ {c g after}, ready c g → after.frame = g.frame →
    ready c after
  ok_later : ∀ {choices}, ok choices → ok (later choices)
  node : ∀ {c g}, ready c g →
    ∃ n, g.nodes c = some n ∧ n.closed = false
  set : ∀ {c g choices key value data}, ready c g → ok choices → key ≠ [] →
    z.serialize value = .ok data → ∀ lifetime, ∃ ttl result final,
      Accessed impl g (home key) ((choices 0).clock, .set key data ttl)
        result final ∧
      (Grid.set z c key value lifetime).alone (machine impl) Op.timed choices
        g = some (none, later choices, final)
  delete : ∀ {c g choices key}, ready c g → ok choices → key ≠ [] →
    ∃ result final,
      Accessed impl g (home key) ((choices 0).clock, .delete key) result
        final ∧
      final.Untagged c key ∧
      (Grid.delete c key).alone (machine impl) Op.timed choices g =
        some ((), later choices, final)

section Effects

variable {impl : StoreImpl σ} {z : Serializer V D} {good : σ → Prop}
  {contents : σ → Contents GoString Bytes} {home : GoString → GoString}
  {ready : GoString → Grid σ → Prop} {ok : (ℕ → Choice) → Prop}
  {start g after : Grid σ} {c key : GoString} {choices : ℕ → Choice}

structure WroteTags (good : σ → Prop)
    (contents : σ → Contents GoString Bytes) (home : GoString → GoString)
    (start g : Grid σ) (c key : GoString) (tags : List GoString)
    (after : Grid σ) : Prop extends Settles good start after where
  held_other : ∀ other, other ≠ key →
    after.held contents other (home other) =
      g.held contents other (home other)
  agrees : TagsAgree (fun d other => ¬(d = c ∧ other = key)) g after
  recorded : tags ≠ [] → ∀ n, after.nodes c = some n →
    n.tags.tagsOf key = tags
  unrecorded : tags = [] → TagsAgree (fun _ _ => True) g after

structure DroppedKeys (good : σ → Prop)
    (contents : σ → Contents GoString Bytes) (home : GoString → GoString)
    (start g : Grid σ) (keys : List GoString) (after : Grid σ) : Prop
    extends Settles good start after where
  held_none : ∀ key ∈ keys, key ≠ [] →
    after.held contents key (home key) = none
  held_kept : ∀ key, key ∉ keys ∨ key = [] →
    after.held contents key (home key) = g.held contents key (home key)
  agrees : TagsAgree (fun _ key => key ∉ keys) g after

theorem TagsAgree.mono {P Q : GoString → GoString → Prop}
    (hagree : TagsAgree P g after) (hle : ∀ d key, Q d key → P d key) :
    TagsAgree Q g after := by
  intro d n' hnode'
  obtain ⟨n, hnode, hagrees⟩ := hagree d n' hnode'
  exact ⟨n, hnode, fun key hkey => hagrees.lookup_eq key (hle d key hkey),
    fun key hkey => hagrees.mem_iff key (hle d key hkey),
    hagrees.wellFormed⟩

theorem alone_set_tagsAgree {value : GoValue V} {lifetime : Duration}
    {error : Option CacheError} {rest : ℕ → Choice}
    (halone : (set z c key value lifetime).alone (machine impl) Op.timed
      choices g = some (error, rest, after)) :
    TagsAgree (fun _ _ => True) g after := by
  have hperforms : (CacheCall.program z c (.set key value lifetime)).Performs
      (Consistent (g.frame c) c)
      (Op.Confined (fun _ _ => True) fun _ _ => True) fun _ => True :=
    performs_confined nofun fun _ _ _ _ _ => trivial
  exact (alone_evolves hperforms (Prog.alone_map_of_eq halone)).2

theorem alone_delete_tagsAgree {rest : ℕ → Choice}
    (halone : (delete c key).alone (machine impl) Op.timed choices g =
      some ((), rest, after)) :
    TagsAgree (fun _ other => other ≠ key) g after := by
  have hperforms : (delete c key).Performs (Consistent (g.frame c) c)
      (Op.Confined (fun _ other => other ≠ key) fun _ _ => True)
      fun _ => True := by
    refine performs_delete Op.confined_of_plain
      ⟨fun h => h rfl, fun _ => trivial⟩ ?_
    rintro f _ op (rfl | ⟨_, rfl⟩)
    · exact ⟨trivial, fun _ => trivial⟩
    · exact ⟨⟨nofun, fun _ h => h rfl⟩, fun _ _ _ => trivial⟩
  exact (alone_evolves hperforms halone).2

theorem DroppedKeys.cons {middle : Grid σ} {keys : List GoString}
    (hfirst : DroppedKeys good contents home start g [key] middle)
    (hrest : DroppedKeys good contents home start middle keys after) :
    DroppedKeys good contents home start g (key :: keys) after where
  toSettles := hrest.toSettles
  held_none := by
    intro other hmem hne
    by_cases hlater : other ∈ keys
    · exact hrest.held_none other hlater hne
    · rw [hrest.held_kept other (Or.inl hlater)]
      have hother : other = key := (List.mem_cons.mp hmem).resolve_right hlater
      exact hfirst.held_none other (List.mem_singleton.mpr hother) hne
  held_kept := by
    intro other hother
    rw [List.mem_cons, not_or] at hother
    rw [hrest.held_kept other (hother.imp_left And.right),
      hfirst.held_kept other (hother.imp_left fun h =>
        fun hmem => h.1 (List.mem_singleton.mp hmem))]
  agrees := by
    refine TagsAgree.trans (hfirst.agrees.mono ?_) (hrest.agrees.mono ?_)
    · exact fun _ other hother hmem =>
        hother (List.mem_cons.mpr (Or.inl (List.mem_singleton.mp hmem)))
    · exact fun _ other hother hmem =>
        hother (List.mem_cons_of_mem _ hmem)

variable (hhomed : Homed impl z home ready ok)
  (hlaw : KeepsLedger impl z.toMsgpack good contents)

include hhomed hlaw

theorem Homed.alone_set (hready : ready c g) (hok : ok choices)
    (hsettles : Settles good start g) (hkey : key ≠ []) {value : GoValue V}
    {data : Bytes} (hdata : z.serialize value = .ok data)
    (lifetime : Duration) :
    ∃ final, WroteTags good contents home start g c key [] final ∧
      (Grid.set z c key value lifetime).alone (machine impl) Op.timed choices
        g = some (none, later choices, final) := by
  obtain ⟨ttl, result, final, haccess, halone⟩ :=
    hhomed.set hready hok hkey hdata lifetime
  have hsame := alone_set_tagsAgree halone
  refine ⟨final, ⟨hsettles.accessed hlaw.lossy haccess, ?_,
    hsame.mono fun _ _ _ => trivial, fun hne => absurd rfl hne,
    fun _ => hsame⟩, halone⟩
  intro other hother
  rw [haccess.held_eq hlaw hsettles.good_store rfl,
    if_neg (fun h => hother h.2)]

theorem Homed.alone_setWithTags (hready : ready c g) (hok : ok choices)
    (hsettles : Settles good start g) (hkey : key ≠ []) {value : GoValue V}
    {data : Bytes} (hdata : z.serialize value = .ok data)
    (lifetime : Duration) (tags : List GoString) :
    ∃ final, WroteTags good contents home start g c key tags final ∧
      (setWithTags z c key value lifetime tags).alone (machine impl) Op.timed
        choices g = some (none, later choices, final) := by
  obtain ⟨middle, hwrote, halone⟩ :=
    hhomed.alone_set hlaw hready hok hsettles hkey hdata lifetime
  by_cases htags : tags = []
  · subst htags
    refine ⟨middle, hwrote, ?_⟩
    unfold setWithTags
    rw [Prog.alone_bind_of_eq halone]
    rfl
  · have hframe : middle.frame = g.frame :=
      hwrote.frame_eq.trans hsettles.frame_eq.symm
    obtain ⟨n, hnode, _⟩ := hhomed.node (hhomed.of_frame_eq hready hframe)
    have hadd : (machine impl).exec middle (.tagsAdd c key tags)
        (later choices 0) = some ((), middle.setNode c
          { n with tags := n.tags.add key tags }) := onNode_eq hnode _
    have hkept : Same middle
        (middle.setNode c { n with tags := n.tags.add key tags }) :=
      same_setNode hnode rfl rfl
    have hspares : (Op.tagsAdd c key tags).SparesTags
        fun d other => ¬(d = c ∧ other = key) :=
      ⟨fun h => h ⟨rfl, rfl⟩, htags⟩
    refine ⟨_, ⟨hwrote.toSettles.same hkept, ?_,
      hwrote.agrees.trans (exec_tagsAgree hspares hadd), ?_,
      fun hnil => absurd hnil htags⟩,
      alone_setWithTags_tagged htags hnode halone⟩
    · intro other hother
      rw [← hwrote.held_other other hother]
      simp only [held, hkept.stores_eq]
    · intro _ n' hnode'
      simp only [setNode, Function.update_self, Option.some.injEq] at hnode'
      rw [← hnode']
      exact n.tags.tagsOf_add key tags

theorem Homed.alone_delete (hready : ready c g) (hok : ok choices)
    (hsettles : Settles good start g) (key : GoString) :
    ∃ rest final, ok rest ∧
      DroppedKeys good contents home start g [key] final ∧
      (Grid.delete c key).alone (machine impl) Op.timed choices g =
        some ((), rest, final) := by
  by_cases hkey : key = []
  · -- a Delete of the empty key does nothing
    subst hkey
    refine ⟨choices, g, hok, ⟨hsettles, fun key hmem hne => ?_,
      fun _ _ => rfl, .refl g⟩, rfl⟩
    exact absurd (List.mem_singleton.mp hmem) hne
  · obtain ⟨result, final, haccess, _, halone⟩ :=
      hhomed.delete hready hok hkey
    refine ⟨_, final, hhomed.ok_later hok,
      ⟨hsettles.accessed hlaw.lossy haccess, fun other hmem _ => ?_,
        fun other hother => ?_, ?_⟩, halone⟩
    · rw [List.mem_singleton.mp hmem,
        haccess.held_eq hlaw hsettles.good_store rfl, if_pos ⟨rfl, rfl⟩]
      rfl
    · have hne : other ≠ key := by
        rintro rfl
        exact hother.elim (fun h => h (List.mem_singleton_self _)) hkey
      rw [haccess.held_eq hlaw hsettles.good_store rfl,
        if_neg (fun h => hne h.2)]
    · refine (alone_delete_tagsAgree halone).mono ?_
      rintro _ other hother rfl
      exact hother (List.mem_singleton_self _)

theorem Homed.alone_deleteAll (hready : ready c g) (hok : ok choices)
    (hsettles : Settles good start g) (keys : List GoString) :
    ∃ rest final, DroppedKeys good contents home start g keys final ∧
      (deleteAll c keys).alone (machine impl) Op.timed choices g =
        some ((), rest, final) := by
  induction keys generalizing g choices with
  | nil =>
    exact ⟨choices, g, ⟨hsettles, nofun, fun _ _ => rfl, .refl g⟩, rfl⟩
  | cons key keys ih =>
    obtain ⟨middleRest, middle, hmiddle, hfirst, halone⟩ :=
      hhomed.alone_delete hlaw hready hok hsettles key
    have hframe : middle.frame = g.frame :=
      hfirst.frame_eq.trans hsettles.frame_eq.symm
    obtain ⟨rest, final, hdropped, hrest⟩ :=
      ih (hhomed.of_frame_eq hready hframe) hmiddle hfirst.toSettles
    refine ⟨rest, final, hfirst.cons hdropped, ?_⟩
    unfold deleteAll
    rw [Prog.alone_bind_of_eq halone, hrest]

theorem Homed.alone_invalidateTag (hready : ready c g) (hok : ok choices)
    (hsettles : Settles good start g) {n : CacheNode σ}
    (hnode : g.nodes c = some n) (tag : GoString) (order : MapOrder) :
    ∃ rest final, DroppedKeys good contents home start g
        (order.visit (n.tags.getKeysByTag tag)) final ∧
      (invalidateTag c tag order).alone (machine impl) Op.timed choices g =
        some ((), rest, final) := by
  obtain ⟨rest, final, hdropped, halone⟩ := hhomed.alone_deleteAll hlaw
    hready hok hsettles (order.visit (n.tags.getKeysByTag tag))
  refine ⟨rest, final, hdropped, ?_⟩
  unfold invalidateTag
  rw [Prog.alone_perform_bind (onNodeRead_eq hnode _)]
  exact halone

end Effects

/-! ## Steps -/

section Steps

variable {impl : StoreImpl σ} {z : Serializer V D} {good : σ → Prop}
  {contents : σ → Contents GoString Bytes} {home : GoString → GoString}
  {ready : GoString → Grid σ → Prop} {ok : (ℕ → Choice) → Prop}
  {start g : Grid σ} {n : CacheNode σ} {s : CompoundStep V D}

theorem compoundStep_of_alone {reply : CompoundReply V} {rest : ℕ → Choice}
    {after : Grid σ}
    (halone : (s.call.program z s.c).alone (machine impl) Op.timed
      s.timeline.choice g = some (reply, rest, after)) :
    compoundStep impl z g s = (some reply, after) := by
  simp only [compoundStep, halone]

theorem droppedKeys_nil (hsettles : Settles good start g) :
    DroppedKeys good contents home start g [] g :=
  ⟨hsettles, nofun, fun _ _ => rfl, .refl g⟩

theorem alone_set_fails {c key : GoString} {choices : ℕ → Choice}
    (hnode : g.nodes c = some n) (hopen : n.closed = false)
    {value : GoValue V} (lifetime : Duration)
    (hfails : ¬(key ≠ [] ∧ (z.serialize value).isOk = true)) :
    ∃ error, (set z c key value lifetime).alone (machine impl) Op.timed
      choices g = some (some error, choices, g) := by
  by_cases hkey : key = []
  · subst hkey
    exact ⟨.keyEmpty, rfl⟩
  · cases hdata : z.serialize value with
    | error cause =>
      exact ⟨_, alone_set_unserializable hnode hopen hkey hdata lifetime⟩
    | ok data =>
      rw [hdata] at hfails
      exact absurd ⟨hkey, rfl⟩ hfails

variable (hhomed : Homed impl z home ready ok)
  (hlaw : KeepsLedger impl z.toMsgpack good contents)
  (hready : ready s.c g) (hok : ok s.timeline.choice)
  (hsettles : Settles good start g) (hnode : g.nodes s.c = some n)

include hhomed hlaw hready hok hsettles hnode

theorem Homed.compoundStep_written {key : GoString} {tags : List GoString}
    (hwritten : s.call.written? z = some (key, tags)) :
    WroteTags good contents home start g s.c key tags
      (compoundStep impl z g s).2 := by
  obtain ⟨c, call, timeline⟩ := s
  obtain ⟨value, lifetime, data, hkey, hdata, ⟨rfl, rfl⟩ | rfl⟩ :=
    CompoundCall.cases_of_written hwritten
  · obtain ⟨final, hwrote, halone⟩ := hhomed.alone_set hlaw hready hok
      hsettles hkey hdata lifetime
    rw [compoundStep_of_alone
      (Prog.alone_map_of_eq (Prog.alone_map_of_eq halone))]
    exact hwrote
  · obtain ⟨final, hwrote, halone⟩ := hhomed.alone_setWithTags hlaw hready
      hok hsettles hkey hdata lifetime tags
    rw [compoundStep_of_alone (Prog.alone_map_of_eq halone)]
    exact hwrote

theorem Homed.compoundStep_deleted (htagging : s.call.tagging = true)
    (hwritten : s.call.written? z = none) :
    DroppedKeys good contents home start g (s.call.deleted n.tags)
      (compoundStep impl z g s).2 := by
  obtain ⟨m, hnode', hopen⟩ := hhomed.node hready
  obtain rfl : n = m := Option.some.inj (hnode.symm.trans hnode')
  obtain ⟨c, call, timeline⟩ := s
  cases call with
  | basic call =>
    cases call with
    | set key value lifetime =>
      obtain ⟨error, halone⟩ := @alone_set_fails σ V D impl z g n c key
        timeline.choice hnode hopen value lifetime
        (fun hgood => by simp [CompoundCall.written?, hgood] at hwritten)
      rw [compoundStep_of_alone
        (Prog.alone_map_of_eq (Prog.alone_map_of_eq halone))]
      exact droppedKeys_nil hsettles
    | delete key =>
      obtain ⟨rest, final, _, hdropped, halone⟩ := hhomed.alone_delete
        hlaw hready hok hsettles key
      rw [compoundStep_of_alone
        (Prog.alone_map_of_eq (Prog.alone_map_of_eq halone))]
      exact hdropped
    | _ => contradiction
  | setWithTags key value lifetime tags =>
    obtain ⟨error, halone⟩ := @alone_set_fails σ V D impl z g n c key
      timeline.choice hnode hopen value lifetime
      (fun hgood => by simp [CompoundCall.written?, hgood] at hwritten)
    have halone' : (setWithTags z c key value lifetime tags).alone
        (machine impl) Op.timed timeline.choice g =
        some (some error, timeline.choice, g) := by
      unfold setWithTags
      rw [Prog.alone_bind_of_eq halone]
      rfl
    rw [compoundStep_of_alone (Prog.alone_map_of_eq halone')]
    exact droppedKeys_nil hsettles
  | invalidateTag tag order =>
    obtain ⟨rest, final, hdropped, halone⟩ := hhomed.alone_invalidateTag
      hlaw hready hok hsettles hnode tag order
    rw [compoundStep_of_alone (Prog.alone_map_of_eq halone)]
    exact hdropped
  | getOrSet key dest ttl fn => contradiction

end Steps

/-! ## Caches without a cluster -/

section Local

variable {impl : StoreImpl σ} {z : Serializer V D} {good : σ → Prop}
  {contents : σ → Contents GoString Bytes} {start g : Grid σ}
  {a : GoString} {history : History} {s : CompoundStep V D}

def LocalReady (a c : GoString) (g : Grid σ) : Prop :=
  c = a ∧ ∃ f, g.frame c = some f ∧ f.topology = none ∧ f.closed = false

theorem homed_local (impl : StoreImpl σ) (z : Serializer V D)
    (a : GoString) :
    Homed impl z (fun _ => a) (LocalReady a) fun _ => True where
  of_frame_eq := by
    rintro c g after ⟨rfl, f, hf, hlocal⟩ hframe
    exact ⟨rfl, f, hframe ▸ hf, hlocal⟩
  ok_later := fun _ => trivial
  node := by
    rintro c g ⟨_, f, hf, _, hopen⟩
    obtain ⟨n, hnode, rfl⟩ := Option.map_eq_some_iff.mp hf
    exact ⟨n, hnode, hopen⟩
  set := by
    rintro c g choices key value data ⟨rfl, f, hf, hlocal, hopen⟩ _ hkey
      hdata lifetime
    obtain ⟨n, hnode, rfl⟩ := Option.map_eq_some_iff.mp hf
    obtain ⟨result, final, haccess, halone⟩ := alone_set_local hnode hlocal
      hopen hkey hdata lifetime
    exact ⟨_, result, final, haccess, halone⟩
  delete := by
    rintro c g choices key ⟨rfl, f, hf, hlocal, hopen⟩ _ hkey
    obtain ⟨n, hnode, rfl⟩ := Option.map_eq_some_iff.mp hf
    exact alone_delete_local hnode hlocal hopen hkey

/-- The index has, for every key in the store, the tags of its most recent
write. -/
structure Indexed (good : σ → Prop) (contents : σ → Contents GoString Bytes)
    (start : Grid σ) (a : GoString) (history : History) (g : Grid σ) : Prop
    extends Settles good start g where
  wellFormed : ∀ n, g.nodes a = some n → n.tags.WellFormed
  tags_eq : ∀ n key, g.nodes a = some n → g.held contents key a ≠ none →
    n.tags.tagsOf key = history.tags key
  empty_none : g.held contents [] a = none

/-- A write without tags meets a key without tags. -/
def Cleared (g : Grid σ) (s : CompoundStep V D) : Prop :=
  ∀ key ∈ s.call.untagged?, g.Untagged s.c key

theorem History.tags_remember_of_ne {key other : GoString}
    {tags : List GoString}
    (hwritten : s.call.written? z = some (key, tags)) (hne : other ≠ key) :
    (remember z history s).tags other = history.tags other := by
  simp only [remember, hwritten, History.tags, Function.update_of_ne hne]

theorem History.tags_remember_self {key : GoString} {tags : List GoString}
    (hwritten : s.call.written? z = some (key, tags)) :
    (remember z history s).tags key = tags := by
  simp only [remember, hwritten, History.tags, Function.update_self]
  rfl

theorem untagged_of_written {key : GoString}
    (hwritten : s.call.written? z = some (key, [])) :
    key ∈ s.call.untagged? := by
  obtain ⟨c, call, timeline⟩ := s
  obtain ⟨value, lifetime, data, _, _, ⟨rfl, _⟩ | rfl⟩ :=
    CompoundCall.cases_of_written hwritten
  · rfl
  · rfl

theorem Indexed.wrote (hindexed : Indexed good contents start a history g)
    {key : GoString} {tags : List GoString} {after : Grid σ}
    (hwritten : s.call.written? z = some (key, tags))
    (hwrote : WroteTags good contents (fun _ => a) start g a key tags after)
    (huntagged : tags = [] → g.Untagged a key) (hkey : key ≠ []) :
    Indexed good contents start a (remember z history s) after where
  toSettles := hwrote.toSettles
  wellFormed n' hnode' := by
    obtain ⟨n, hnode, hagrees⟩ := hwrote.agrees a n' hnode'
    exact hagrees.wellFormed (hindexed.wellFormed n hnode)
  tags_eq n' other hnode' hheld := by
    by_cases hother : other = key
    · subst hother
      rw [History.tags_remember_self hwritten]
      by_cases htags : tags = []
      · obtain ⟨n, hnode, hagrees⟩ := hwrote.unrecorded htags a n' hnode'
        rw [hagrees.tagsOf_eq trivial, TagIndex.tagsOf,
          huntagged htags n hnode, htags]
        rfl
      · exact hwrote.recorded htags n' hnode'
    · obtain ⟨n, hnode, hagrees⟩ := hwrote.agrees a n' hnode'
      rw [hwrote.held_other other hother] at hheld
      rw [History.tags_remember_of_ne hwritten hother,
        hagrees.tagsOf_eq (fun h => hother h.2)]
      exact hindexed.tags_eq n other hnode hheld
  empty_none := by
    rw [hwrote.held_other [] hkey.symm]
    exact hindexed.empty_none

theorem Indexed.dropped (hindexed : Indexed good contents start a history g)
    {keys : List GoString} {after : Grid σ}
    (hdropped : DroppedKeys good contents (fun _ => a) start g keys after) :
    Indexed good contents start a history after where
  toSettles := hdropped.toSettles
  wellFormed n' hnode' := by
    obtain ⟨n, hnode, hagrees⟩ := hdropped.agrees a n' hnode'
    exact hagrees.wellFormed (hindexed.wellFormed n hnode)
  empty_none := by
    rw [hdropped.held_kept [] (Or.inr rfl)]
    exact hindexed.empty_none
  tags_eq n' key hnode' hheld := by
    have hkept : key ∉ keys := by
      intro hmem
      by_cases hkey : key = []
      · rw [hkey, hdropped.held_kept [] (Or.inr rfl),
          hindexed.empty_none] at hheld
        exact hheld rfl
      · exact hheld (hdropped.held_none key hmem hkey)
    obtain ⟨n, hnode, hagrees⟩ := hdropped.agrees a n' hnode'
    rw [hdropped.held_kept key (Or.inl hkept)] at hheld
    rw [hagrees.tagsOf_eq hkept]
    exact hindexed.tags_eq n key hnode hheld

theorem Indexed.step (hlaw : KeepsLedger impl z.toMsgpack good contents)
    (hlocal : LocalReady a a start)
    (hindexed : Indexed good contents start a history g) (hs : s.c = a)
    (htagging : s.call.tagging = true) (hcleared : Cleared g s) :
    Indexed good contents start a (remember z history s)
      (compoundStep impl z g s).2 := by
  have hhomed := homed_local impl z a
  have hready : LocalReady a s.c g :=
    hs.symm ▸ hhomed.of_frame_eq hlocal hindexed.frame_eq
  obtain ⟨n, hnode, _⟩ := hhomed.node hready
  cases hwritten : s.call.written? z with
  | some entry =>
    obtain ⟨key, tags⟩ := entry
    have hwrote := hhomed.compoundStep_written hlaw hready trivial
      hindexed.toSettles hnode hwritten
    obtain ⟨_, _, _, hkey, _⟩ := CompoundCall.cases_of_written hwritten
    rw [hs] at hwrote
    refine hindexed.wrote hwritten hwrote ?_ hkey
    rintro rfl
    exact hs ▸ hcleared key (untagged_of_written hwritten)
  | none =>
    have hdropped := hhomed.compoundStep_deleted hlaw hready trivial
      hindexed.toSettles hnode htagging hwritten
    simp only [remember, hwritten]
    exact hindexed.dropped hdropped

theorem Indexed.run (hlaw : KeepsLedger impl z.toMsgpack good contents)
    (hlocal : LocalReady a a start)
    (hindexed : Indexed good contents start a history g)
    {steps : List (CompoundStep V D)}
    (hsteps : ∀ s ∈ steps, s.c = a ∧ s.call.tagging = true)
    (hmeets : Meets (compoundStep impl z) Cleared g steps) :
    Indexed good contents start a (steps.foldl (remember z) history)
      (SequentialRuns.run (compoundStep impl z) g steps).2 := by
  induction steps generalizing g history with
  | nil => exact hindexed
  | cons s steps ih =>
    obtain ⟨hs, htagging⟩ := hsteps s List.mem_cons_self
    exact ih (hindexed.step hlaw hlocal hs htagging hmeets.1)
      (fun s' hs' => hsteps s' (List.mem_cons_of_mem s hs')) hmeets.2

/-- Which keys InvalidateTag removes, when the index agrees with the
history. -/
theorem Indexed.invalidateTag
    (hlaw : KeepsLedger impl z.toMsgpack good contents)
    (hlocal : LocalReady a a start)
    (hindexed : Indexed good contents start a history g) (tag : GoString)
    (order : MapOrder) (timeline : Timeline) (key : GoString) :
    (compoundStep impl z g
      ⟨a, .invalidateTag tag order, timeline⟩).2.held contents key a =
      if tag ∈ history.tags key then none else g.held contents key a := by
  have hhomed := homed_local impl z a
  have hready : LocalReady a a g :=
    hhomed.of_frame_eq hlocal hindexed.frame_eq
  obtain ⟨n, hnode, _⟩ := hhomed.node hready
  have hdropped := @Homed.compoundStep_deleted _ _ _ _ _ _ _ _ _ _ _ g n
    ⟨a, .invalidateTag tag order, timeline⟩ hhomed hlaw hready trivial
    hindexed.toSettles hnode rfl rfl
  have hmem : key ∈ order.visit (n.tags.getKeysByTag tag) ↔
      tag ∈ n.tags.tagsOf key := by
    rw [order.mem_visit, (hindexed.wellFormed n hnode).mem_iff]
  by_cases hheld : g.held contents key a = none
  · -- a key that is absent stays absent
    have habsent : (compoundStep impl z g
        ⟨a, .invalidateTag tag order, timeline⟩).2.held contents key a =
        none := by
      by_cases hdrop : key ∈ order.visit (n.tags.getKeysByTag tag) ∧ key ≠ []
      · exact hdropped.held_none key hdrop.1 hdrop.2
      · rw [not_and_or, not_not] at hdrop
        exact (hdropped.held_kept key hdrop).trans hheld
    rw [habsent, hheld, ite_self]
  · have hkey : key ≠ [] := by
      rintro rfl
      exact hheld hindexed.empty_none
    rw [hindexed.tags_eq n key hnode hheld] at hmem
    split
    · rename_i htag
      exact hdropped.held_none key (hmem.mpr htag) hkey
    · rename_i htag
      exact hdropped.held_kept key (Or.inl fun h => htag (hmem.mp h))

theorem launchLocal_nodes {config : CacheConfig} {store : σ} {c : GoString}
    {n : CacheNode σ} (hnode : (launchLocal config store).nodes c = some n) :
    c = [] ∧ n = newNode none [] config store := by
  simp only [launchLocal] at hnode
  split at hnode
  · rename_i hc
    exact ⟨hc, (Option.some.inj hnode).symm⟩
  · contradiction

theorem launchLocal_ready (config : CacheConfig) (store : σ) :
    LocalReady [] [] (launchLocal config store) := by
  have hnode : (launchLocal config store).nodes [] =
      some (newNode none [] config store) := by
    simp [launchLocal]
  exact ⟨rfl, _, frame_of_node hnode, rfl, rfl⟩

theorem launchLocal_indexed {config : CacheConfig} {store : σ}
    (hgood : good store) (hempty : contents store = fun _ => none) :
    Indexed good contents (launchLocal config store) []
      (fun _ => none) (launchLocal config store) where
  frame_eq := rfl
  good_store := by
    intro c s hs
    obtain ⟨n, hnode, rfl⟩ := Option.map_eq_some_iff.mp hs
    rw [(launchLocal_nodes hnode).2]
    exact hgood
  wellFormed := by
    intro n hnode
    rw [(launchLocal_nodes hnode).2]
    exact TagIndex.wellFormed_new
  tags_eq := by
    intro n key hnode hheld
    rw [(launchLocal_nodes hnode).2]
    rfl
  empty_none := by
    simp [held, stores, launchLocal, newNode, hempty]

/-- A cache without a cluster and with an empty store.  After any sequence of
Set, SetWithTags, Delete and InvalidateTag calls in which a write without tags
never meets a key that still has tags, InvalidateTag removes exactly the keys
whose most recent write carried the tag, and touches no other record. -/
theorem invalidateTag_removes_exactly
    (hlaw : KeepsLedger impl z.toMsgpack good contents)
    {config : CacheConfig} {store : σ} (hgood : good store)
    (hempty : contents store = fun _ => none)
    {steps : List (CompoundStep V D)}
    (hsteps : ∀ s ∈ steps, s.c = [] ∧ s.call.tagging = true)
    (hmeets : Meets (compoundStep impl z) Cleared (launchLocal config store)
      steps)
    (tag : GoString) (order : MapOrder) (timeline : Timeline)
    (key : GoString) :
    let g := (SequentialRuns.run (compoundStep impl z)
      (launchLocal config store) steps).2
    (compoundStep impl z g
      ⟨[], .invalidateTag tag order, timeline⟩).2.held contents key [] =
      if tag ∈ (historyOf z steps).tags key then none
      else g.held contents key [] := by
  have hready := @launchLocal_ready σ config store
  exact ((launchLocal_indexed hgood hempty).run hlaw hready hsteps
    hmeets).invalidateTag hlaw hready tag order timeline key

/-- Two keys, one of them written again with another tag. -/
theorem invalidateTag_removes_exactly_retagged :
    let steps : List (CompoundStep Empty Empty) :=
      [⟨[], .setWithTags (ascii "k") (.int64 1) 0 [ascii "t"], .instant 0⟩,
        ⟨[], .setWithTags (ascii "l") (.int64 2) 0 [ascii "t"], .instant 1⟩,
        ⟨[], .setWithTags (ascii "k") (.int64 3) 0 [ascii "u"], .instant 2⟩]
    let g := (SequentialRuns.run
      (compoundStep (MemoryStore.impl .int64) .basic)
      (launchLocal ⟨.partitioned, 0⟩
        (MemoryStore.new 1 (by decide) 0 true true)) steps).2
    (compoundStep (MemoryStore.impl .int64) .basic g
      ⟨[], .invalidateTag (ascii "t") (.of [ascii "l"] (by decide)),
        .instant 3⟩).2.held MemoryStore.contents (ascii "k") [] =
      g.held MemoryStore.contents (ascii "k") [] := by
  intro steps g
  have hsteps : ∀ s ∈ steps, s.c = [] ∧ s.call.tagging = true := by
    simp [steps, CompoundCall.tagging]
  have hmeets : Meets (compoundStep (MemoryStore.impl .int64) .basic) Cleared
      (launchLocal ⟨.partitioned, 0⟩
        (MemoryStore.new 1 (by decide) 0 true true)) steps :=
    ⟨nofun, nofun, nofun, trivial⟩
  have hexact := invalidateTag_removes_exactly
    (MemoryStore.keepsLedger .int64)
    (MemoryStore.unlimited_new 1 (by decide) le_rfl true true)
    (MemoryStore.contents_new 1 (by decide) 0 true true) hsteps hmeets
    (ascii "t") (.of [ascii "l"] (by decide)) (.instant 3) (ascii "k")
  exact hexact.trans (if_neg (by decide))

/-- A value with a tag, overwritten by a Set without one: the index still has
the tag, and InvalidateTag removes the new value. -/
theorem invalidateTag_removes_untagged :
    let steps : List (CompoundStep Empty Empty) :=
      [⟨[], .setWithTags (ascii "k") (.int64 1) 0 [ascii "t"], .instant 0⟩,
        ⟨[], .basic (.set (ascii "k") (.int64 2) 0), .instant 1⟩]
    let g := (SequentialRuns.run
      (compoundStep (MemoryStore.impl .int64) .basic)
      (launchLocal ⟨.partitioned, 0⟩
        (MemoryStore.new 1 (by decide) 0 true true)) steps).2
    (historyOf .basic steps).tags (ascii "k") = [] ∧
      g.held MemoryStore.contents (ascii "k") [] ≠ none ∧
      (compoundStep (MemoryStore.impl .int64) .basic g
        ⟨[], .invalidateTag (ascii "t") (.of [ascii "k"] (by decide)),
          .instant 2⟩).2.held MemoryStore.contents (ascii "k") [] = none := by
  decide +kernel

end Local

end Grid

end CacheGrid
