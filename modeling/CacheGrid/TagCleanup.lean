import CacheGrid.LocalSessions
import CacheGrid.TagHistory

/-!
# Tags and late callbacks

When a record is evicted or swept, the callback that cleans the tag index up
runs later, at any time, and knows only the key.  If the key has been written
again in the meantime, the callback for the old record removes the tags of the
new one.  As long as no callback runs while its key is in the store, the index
has the tags of every record that SetWithTags wrote last.
-/

namespace CacheGrid

open InterleavedPrograms SequentialRuns TimedMap

namespace Grid

variable {σ V D : Type}

/-! ## Writes and their tags -/

def tagsOrReads : CompoundCall V D → Prop
  | .setWithTags _ _ _ _ => True
  | .basic (.get _ _) => True
  | _ => False

instance decidableTagsOrReads :
    ∀ call : CompoundCall V D, Decidable (tagsOrReads call)
  | .setWithTags _ _ _ _ => inferInstanceAs (Decidable True)
  | .basic (.get _ _) => inferInstanceAs (Decidable True)
  | .basic (.set _ _ _) => inferInstanceAs (Decidable False)
  | .basic (.delete _) => inferInstanceAs (Decidable False)
  | .basic (.exists _) => inferInstanceAs (Decidable False)
  | .basic (.ttl _) => inferInstanceAs (Decidable False)
  | .basic (.mget _) => inferInstanceAs (Decidable False)
  | .basic (.incr _ _) => inferInstanceAs (Decidable False)
  | .basic (.decr _ _) => inferInstanceAs (Decidable False)
  | .invalidateTag _ _ => inferInstanceAs (Decidable False)
  | .getOrSet _ _ _ _ => inferInstanceAs (Decidable False)

def noteWrite (last : GoString → Option (List GoString)) :
    CompoundCall V D × CompoundReply V → GoString → Option (List GoString)
  | (.setWithTags key _ _ tags, .basic (.stored none)) =>
    Function.update last key (some tags)
  | _ => last

/-- For every key, the tags of the most recent SetWithTags that has returned
without an error. -/
def lastTags (completed : List (CompoundCall V D × CompoundReply V)) :
    GoString → Option (List GoString) :=
  completed.foldl noteWrite fun _ => none

theorem lastTags_append
    (completed : List (CompoundCall V D × CompoundReply V))
    (entry : CompoundCall V D × CompoundReply V) :
    lastTags (completed ++ [entry]) = noteWrite (lastTags completed) entry := by
  simp [lastTags]

/-- The ghost state holds the tags that the index has to have for the key.
Between the store and the index, it has to have none in particular. -/
def tagDiscipline (c : GoString) :
    Discipline signature (GoString → Option (List GoString)) where
  guard := fun _ (op : Op) => op.plain = true ∨
    (∃ key, op = .store c (.get key)) ∨
    (∃ key data ttl, key ≠ [] ∧ op = .store c (.set key data ttl)) ∨
    ∃ key tags, key ≠ [] ∧ tags ≠ [] ∧ op = .tagsAdd c key tags
  update := fun last op _ =>
    match op with
    | .store _ (.set key _ _) => Function.update last key (some [])
    | .tagsAdd _ key tags => Function.update last key (some tags)
    | _ => last

section Outlines

variable {z : Serializer V D} {f : Frame} {c : GoString}
  {last : GoString → Option (List GoString)}

theorem tagDiscipline_localTo {op : Op}
    (hguard : (tagDiscipline c).guard last op) : op.LocalTo c := by
  rcases hguard with hplain | ⟨_, rfl⟩ | ⟨_, _, _, _, rfl⟩ | ⟨_, _, _, _, rfl⟩
  · exact Op.localTo_of_plain hplain c
  · exact rfl
  · exact rfl
  · exact rfl

theorem tagDiscipline_plain (last : GoString → Option (List GoString))
    {op : Op} (hplain : op.plain = true) :
    Neutral (tagDiscipline c) last op := by
  refine ⟨Or.inl hplain, fun _ => ?_⟩
  cases op with
  | store d op => contradiction
  | tagsAdd d key tags => contradiction
  | _ => rfl

theorem followsUnder_setWithTags (hlocal : f.topology = none)
    {key : GoString} {value : GoValue V} {ttl : Duration}
    {tags : List GoString} :
    FollowsUnder (Consistent (some f) c) (tagDiscipline c)
      (fun last' error => error = none ∧
          last' = Function.update last key (some tags) ∨
        error ≠ none ∧ last' = last) last
      (setWithTags z c key value ttl tags) := by
  unfold setWithTags
  refine (followsUnder_set tagDiscipline_plain hlocal
    (fun hkey data ttl => Or.inr (Or.inr (Or.inl
      ⟨key, data, ttl, hkey, rfl⟩))) fun _ _ _ => rfl).bind ?_
  rintro _ error (⟨rfl, hkey, rfl⟩ | ⟨herror, rfl⟩)
  · simp only
    by_cases htags : tags = []
    · subst htags
      exact Or.inl ⟨rfl, rfl⟩
    · rw [if_pos (List.length_pos_iff.mpr htags)]
      refine followsUnder_perform (Or.inr (Or.inr (Or.inr
        ⟨key, tags, hkey, htags, rfl⟩))) fun _ _ => Or.inl ⟨rfl, ?_⟩
      exact Function.update_idem _ _ _
  · cases error with
    | none => contradiction
    | some err => exact Or.inr ⟨nofun, rfl⟩

theorem followsUnder_tagsOrReads (hlocal : f.topology = none)
    (completed : List (CompoundCall V D × CompoundReply V))
    {call : CompoundCall V D} (hcall : tagsOrReads call) :
    FollowsUnder (Consistent (some f) c) (tagDiscipline c)
      (fun last reply => last = lastTags (completed ++ [(call, reply)]))
      (lastTags completed) (call.program z c) := by
  simp only [lastTags_append]
  cases call with
  | setWithTags key value ttl tags =>
    refine (followsUnder_setWithTags hlocal).map ?_
    rintro _ error (⟨rfl, rfl⟩ | ⟨herror, rfl⟩)
    · rfl
    · cases error with
      | none => contradiction
      | some err => rfl
  | basic call =>
    cases call with
    | get key dest =>
      have hget : Neutral (tagDiscipline c) (lastTags completed)
          (.store c (.get key)) :=
        ⟨Or.inr (Or.inl ⟨key, rfl⟩), fun _ => rfl⟩
      have hreads : FollowsUnder (Consistent (some f) c) (tagDiscipline c)
          (fun last _ => last = lastTags completed) (lastTags completed)
          (CacheCall.program z c (.get key dest)) :=
        (followsUnder_get tagDiscipline_plain hlocal hget).map
          fun _ _ hlast => hlast
      exact hreads.map fun _ _ hlast => hlast
    | _ => contradiction
  | invalidateTag tag order => contradiction
  | getOrSet key dest ttl fn => contradiction

end Outlines

/-! ## The index and the store -/

/-- The index has the last tags of every key in the store. -/
structure Recorded (good : σ → Prop) (contents : σ → Contents GoString Bytes)
    (last : GoString → Option (List GoString)) (v : LocalView σ) : Prop where
  good_store : good v.store
  wellFormed : v.tags.WellFormed
  tags_eq : ∀ key tags, last key = some tags → tags ≠ [] →
    contents v.store key ≠ none → v.tags.tagsOf key = tags
  nonempty : last [] = none

/-- A callback runs only while its key is not in the store. -/
def CallbackOfAbsent (contents : σ → Contents GoString Bytes)
    (v : LocalView σ) (i : ℕ) : Prop :=
  ∀ callback ∈ v.pending[i]?, contents v.store callback.key = none

instance decidableCallbackOfAbsent (contents : σ → Contents GoString Bytes)
    (v : LocalView σ) (i : ℕ) : Decidable (CallbackOfAbsent contents v i) :=
  inferInstanceAs (Decidable (∀ callback ∈ v.pending[i]?, _))

section Recorded

variable {impl : StoreImpl σ} {codec : Msgpack} {good : σ → Prop}
  {contents : σ → Contents GoString Bytes} {v : LocalView σ}
  {last last' : GoString → Option (List GoString)}

theorem Recorded.call (hlaw : LossyLedger impl codec good contents)
    (hrecorded : Recorded good contents last v) {clock : Readings}
    {op : StoreOp}
    (hlast : ∀ key tags, last' key = some tags → tags ≠ [] →
      last key = some tags ∧ (op.key? ≠ some key ∨ op.reads = true))
    (hnonempty : last' [] = none) :
    Recorded good contents last' (v.call impl clock op) where
  good_store := hlaw.good_call hrecorded.good_store _
  wellFormed := hrecorded.wellFormed
  tags_eq := by
    intro key tags hkey htags hheld
    obtain ⟨hbefore, hop⟩ := hlast key tags hkey htags
    obtain ⟨r, hr⟩ := Option.ne_none_iff_exists'.mp hheld
    have hkept := hlaw.kept hrecorded.good_store hop hr
    exact hrecorded.tags_eq key tags hbefore htags (by rw [hkept]; nofun)
  nonempty := hnonempty

theorem Recorded.add (hrecorded : Recorded good contents last v)
    {key : GoString} {tags : List GoString} (hkey : key ≠ [])
    (htags : tags ≠ []) :
    Recorded good contents (Function.update last key (some tags))
      { v with tags := v.tags.add key tags } where
  good_store := hrecorded.good_store
  wellFormed := hrecorded.wellFormed.add key htags
  tags_eq := by
    intro other ts hlast hts hheld
    by_cases hother : other = key
    · subst hother
      rw [Function.update_self, Option.some.injEq] at hlast
      rw [← hlast]
      exact v.tags.tagsOf_add other tags
    · rw [Function.update_of_ne hother] at hlast
      have hsame := hrecorded.tags_eq other ts hlast hts hheld
      unfold TagIndex.tagsOf at hsame ⊢
      rwa [v.tags.lookup_add_of_ne hother tags]
  nonempty := by
    rw [Function.update_of_ne (Ne.symm hkey)]
    exact hrecorded.nonempty

theorem Recorded.exec (hlaw : LossyLedger impl codec good contents)
    (hrecorded : Recorded good contents last v) {c : GoString} {op : Op}
    {clock : Readings} {answer : op.Answer}
    (hguard : (tagDiscipline c).guard last op) :
    Recorded good contents ((tagDiscipline c).update last op answer)
      (v.exec impl clock op) := by
  rcases hguard with hplain | ⟨key, rfl⟩ | ⟨key, data, ttl, hkey, rfl⟩ |
    ⟨key, tags, hkey, htags, rfl⟩
  · cases op with
    | store d op => contradiction
    | tagsRemove d key => contradiction
    | tagsAdd d key tags => contradiction
    | _ => exact hrecorded
  · exact hrecorded.call hlaw
      (fun _ _ hlast _ => ⟨hlast, Or.inr rfl⟩) hrecorded.nonempty
  · refine hrecorded.call hlaw ?_ ?_
    · intro other ts hlast hts
      by_cases hother : other = key
      · subst hother
        simp only [tagDiscipline, Function.update_self,
          Option.some.injEq] at hlast
        exact absurd hlast.symm hts
      · simp only [tagDiscipline, Function.update_of_ne hother] at hlast
        refine ⟨hlast, Or.inl ?_⟩
        simpa [StoreOp.key?] using Ne.symm hother
    · simp only [tagDiscipline, Function.update_of_ne (Ne.symm hkey)]
      exact hrecorded.nonempty
  · exact hrecorded.add hkey htags

theorem Recorded.callback (hrecorded : Recorded good contents last v)
    {i : ℕ} (hok : CallbackOfAbsent contents v i) :
    Recorded good contents last (v.callback i) := by
  unfold LocalView.callback
  split
  · exact hrecorded
  · rename_i callback hpending
    refine ⟨hrecorded.good_store, hrecorded.wellFormed.remove _, ?_,
      hrecorded.nonempty⟩
    intro key tags hlast htags hheld
    have hne : key ≠ callback.key := by
      rintro rfl
      exact hheld (hok callback hpending)
    have hsame := hrecorded.tags_eq key tags hlast htags hheld
    unfold TagIndex.tagsOf at hsame ⊢
    rwa [v.tags.lookup_remove_of_ne hne]

end Recorded

/-! ## InvalidateTag on a store that loses records -/

section Invalidation

variable {impl : StoreImpl σ} {z : Serializer V D} {good : σ → Prop}
  {contents : σ → Contents GoString Bytes} {start g : Grid σ}
  {c : GoString} {choices : ℕ → Choice}

theorem alone_deleteAll_local
    (hlaw : LossyLedger impl z.toMsgpack good contents)
    (hready : LocalReady c c g)
    (hgood : ∀ {s}, g.stores c = some s → good s) (keys : List GoString) :
    ∃ rest final, (deleteAll c keys).alone (machine impl) Op.timed choices g =
        some ((), rest, final) ∧
      ∀ key, key ∈ keys ∧ key ≠ [] ∨ g.held contents key c = none →
        final.held contents key c = none := by
  induction keys generalizing g choices with
  | nil =>
    exact ⟨choices, g, rfl, fun key hkey =>
      hkey.elim (fun h => absurd h.1 List.not_mem_nil) id⟩
  | cons key keys ih =>
    unfold deleteAll
    by_cases hkey : key = []
    · -- a Delete of the empty key does nothing
      subst hkey
      obtain ⟨rest, final, halone, hnone⟩ := @ih g choices hready hgood
      refine ⟨rest, final, halone, fun other hother => hnone other ?_⟩
      refine hother.imp_left fun hmem => ⟨?_, hmem.2⟩
      exact (List.mem_cons.mp hmem.1).resolve_left hmem.2
    · have hready' := hready
      obtain ⟨_, f, hf, hlocal, hopen⟩ := hready'
      obtain ⟨n, hnode, rfl⟩ := Option.map_eq_some_iff.mp hf
      obtain ⟨result, middle, haccess, _, halone⟩ := @alone_delete_local σ
        impl g c key n choices hnode hlocal hopen hkey
      have hmiddle : ∀ {s}, middle.stores c = some s → good s := by
        intro s' hs'
        obtain ⟨s, hs, _, hcases⟩ := haccess.cases
        rcases hcases hs' with ⟨_, rfl⟩ | ⟨hne, _⟩
        · exact hlaw.good_call (hgood hs) _
        · exact absurd rfl hne
      obtain ⟨rest, final, hrest, hnone⟩ := @ih middle (later choices)
        ((homed_local impl z c).of_frame_eq hready haccess.frame_eq) hmiddle
      refine ⟨rest, final, ?_, fun other hother => hnone other ?_⟩
      · rw [Prog.alone_bind_of_eq halone, hrest]
      · by_cases hlater : other ∈ keys ∧ other ≠ []
        · exact Or.inl hlater
        · right
          refine haccess.held_deleted hlaw hgood ?_
          refine hother.imp_left fun hmem => ?_
          exact (List.mem_cons.mp hmem.1).resolve_right
            fun h => hlater ⟨h, hmem.2⟩

theorem invalidateTag_held_none
    (hlaw : LossyLedger impl z.toMsgpack good contents)
    (hready : LocalReady c c g)
    (hgood : ∀ {s}, g.stores c = some s → good s) {n : CacheNode σ}
    (hnode : g.nodes c = some n) {tag key : GoString}
    (hkey : key ∈ n.tags.getKeysByTag tag) (hne : key ≠ [])
    (order : MapOrder) (timeline : Timeline) :
    (compoundStep impl z g ⟨c, .invalidateTag tag order, timeline⟩).2.held
      contents key c = none := by
  obtain ⟨rest, final, halone, hnone⟩ := @alone_deleteAll_local σ V D impl z
    good contents g c timeline.choice hlaw hready hgood
    (order.visit (n.tags.getKeysByTag tag))
  have hstep : compoundStep impl z g
      ⟨c, .invalidateTag tag order, timeline⟩ =
      (some (.basic .done), final) := by
    have hinvalidate : (invalidateTag c tag order).alone (machine impl)
        Op.timed timeline.choice g = some ((), rest, final) := by
      unfold invalidateTag
      rw [Prog.alone_perform_bind (onNodeRead_eq hnode _)]
      exact halone
    exact compoundStep_of_alone (Prog.alone_map_of_eq hinvalidate)
  rw [hstep]
  exact hnone key (Or.inl ⟨(order.mem_visit _ _).mpr hkey, hne⟩)

end Invalidation

/-! ## Runs -/

section Runs

variable {impl : StoreImpl σ} {z : Serializer V D} {good : σ → Prop}
  {contents : σ → Contents GoString Bytes} {start : Grid σ} {c : GoString}

/-- A local cache with any store that may lose records, one client that makes
calls of SetWithTags and Get, and sweeps and callbacks at any time.  If
callbacks run only while their key is not in the store, then between the calls
the index has every key in the store under the tags of its last write, and
InvalidateTag deletes it. -/
theorem tagged_while_present
    (hlaw : LossyLedger impl z.toMsgpack good contents)
    (hready : LocalReady c c start)
    (hgood : ∀ {s}, start.stores c = some s → good s)
    (hwell : ∀ n, start.nodes c = some n → n.tags.WellFormed)
    {labels : List (SessionStep Choice (Env σ) (CompoundCall V D))}
    (hmeets : Meets (clientStep impl z c)
      (ClientObeys c tagsOrReads (fun _ _ _ => True)
        (CallbackOfAbsent contents)) (Session.start start) labels)
    {final : Session signature (Grid σ) (CompoundCall V D)
      (CompoundReply V)}
    (hfinal : (SequentialRuns.run (clientStep impl z c)
      (Session.start start) labels).2 = final)
    (hidle : final.current = none) {key tag : GoString}
    {tags : List GoString}
    (hlast : lastTags final.completed key = some tags) (htag : tag ∈ tags)
    (hpresent : final.shared.held contents key c ≠ none) :
    (∀ n, final.shared.nodes c = some n → key ∈ n.tags.getKeysByTag tag) ∧
      ∀ order timeline, (compoundStep impl z final.shared
        ⟨c, .invalidateTag tag order, timeline⟩).2.held contents key c =
        none := by
  subst hfinal
  obtain ⟨_, f, hf, hlocal, hopen⟩ := hready
  obtain ⟨n, hnode, hframe⟩ := Option.map_eq_some_iff.mp hf
  have hinitial : Holds c f (Recorded good contents)
      (lastTags ([] : List (CompoundCall V D × CompoundReply V))) start :=
    ⟨n, hnode, hframe, hgood (stores_of_node hnode), hwell n hnode, nofun,
      rfl⟩
  obtain ⟨n', hnode', hframe', hrecorded⟩ := run_idle_view
    (fun completed call hcall =>
      followsUnder_tagsOrReads (z := z) hlocal completed hcall)
    tagDiscipline_localTo (fun hrecorded hguard _ => hrecorded.exec hlaw hguard)
    (fun clock hrecorded => hrecorded.call hlaw
      (fun _ _ hlast _ => ⟨hlast, Or.inl nofun⟩) hrecorded.nonempty)
    (fun hrecorded hok => hrecorded.callback hok) hinitial hmeets hidle
  have hstored : contents n'.store key ≠ none := by
    rwa [held, stores_of_node hnode', Option.bind_some] at hpresent
  have hindexed : key ∈ n'.tags.getKeysByTag tag := by
    have htags : n'.tags.tagsOf key = tags := hrecorded.tags_eq key tags
      hlast (List.ne_nil_of_mem htag) hstored
    have hwellFormed : n'.tags.WellFormed := hrecorded.wellFormed
    rw [hwellFormed.mem_iff, htags]
    exact htag
  have hne : key ≠ [] := by
    rintro rfl
    rw [hrecorded.nonempty] at hlast
    contradiction
  constructor
  · intro m hm
    obtain rfl : n' = m := Option.some.inj (hnode'.symm.trans hm)
    exact hindexed
  · refine invalidateTag_held_none hlaw ?_ ?_ hnode' hindexed hne
    · exact ⟨rfl, f, hframe' ▸ frame_of_node hnode', hlocal, hopen⟩
    · intro s hs
      rw [stores_of_node hnode', Option.some.injEq] at hs
      exact hs ▸ hrecorded.good_store

end Runs

/-- The write of `l` evicts `k`, and the write of `k` evicts `l`. -/
def rewrittenSteps : List (SessionStep Choice (Env MemoryStore)
    (CompoundCall Empty Empty)) :=
  callAt 0 8 (.setWithTags (ascii "k") (.bytes []) 0 [ascii "t"]) ++
    callAt 1 8 (.setWithTags (ascii "l") (.bytes []) 0 [ascii "t"])

/-- The callback for the first record under `k` runs before `k` is written
again. -/
theorem tagged_while_present_rewritten :
    let start := launchLocal ⟨.partitioned, 0⟩
      (MemoryStore.new 1 (by decide) 200 true true)
    let labels := rewrittenSteps ++ [.env (.callback [] 0)] ++
      callAt 2 8 (.setWithTags (ascii "k") (.bytes []) 0 [ascii "t"])
    (compoundStep (MemoryStore.impl .int64) .basic
      (SequentialRuns.run (clientStep (MemoryStore.impl .int64) .basic [])
        (Session.start start) labels).2.shared
      ⟨[], .invalidateTag (ascii "t") (.of [ascii "k"] (by decide)),
        .instant 3⟩).2.held MemoryStore.contents (ascii "k") [] = none := by
  intro start labels
  have hgood : ∀ {s}, start.stores [] = some s → MemoryStore.Sound s := by
    intro s hs
    obtain ⟨n, hnode, rfl⟩ := Option.map_eq_some_iff.mp hs
    rw [(launchLocal_nodes hnode).2]
    exact MemoryStore.sound_new 1 (by decide) 200 true true
  have hwell : ∀ n, start.nodes [] = some n → n.tags.WellFormed := by
    intro n hnode
    rw [(launchLocal_nodes hnode).2]
    exact TagIndex.wellFormed_new
  have hmeets : Meets (clientStep (MemoryStore.impl .int64) .basic [])
      (ClientObeys [] tagsOrReads (fun _ _ _ => True)
        (CallbackOfAbsent MemoryStore.contents)) (Session.start start)
      labels := by
    decide +kernel
  have hidle : (SequentialRuns.run
      (clientStep (MemoryStore.impl .int64) .basic [])
      (Session.start start) labels).2.current = none :=
    Option.isNone_iff_eq_none.mp (by decide +kernel)
  have hlast : lastTags (SequentialRuns.run
      (clientStep (MemoryStore.impl .int64) .basic [])
      (Session.start start) labels).2.completed (ascii "k") =
      some [ascii "t"] := by
    decide +kernel
  have hpresent : (SequentialRuns.run
      (clientStep (MemoryStore.impl .int64) .basic [])
      (Session.start start) labels).2.shared.held MemoryStore.contents
        (ascii "k") [] ≠ none := by
    decide +kernel
  have hready : LocalReady [] [] start := launchLocal_ready _ _
  exact (tagged_while_present (z := .basic) (MemoryStore.lossyLedger .int64)
    hready hgood hwell hmeets rfl hidle hlast
    (List.mem_singleton_self _) hpresent).2 _ _

/-- The callback for the first record under `k` runs after `k` has been
written again: the record is there, and the index does not have it. -/
theorem untagged_while_present :
    let start := launchLocal ⟨.partitioned, 0⟩
      (MemoryStore.new 1 (by decide) 200 true true)
    let labels := rewrittenSteps ++
      callAt 2 8 (.setWithTags (ascii "k") (.bytes []) 0 [ascii "t"]) ++
      [.env (.callback [] 0)]
    let final := (SequentialRuns.run
      (clientStep (MemoryStore.impl .int64) .basic [])
      (Session.start start) labels).2
    final.current.isNone = true ∧
      lastTags final.completed (ascii "k") = some [ascii "t"] ∧
      final.shared.held MemoryStore.contents (ascii "k") [] ≠ none ∧
      (final.shared.nodes []).any (fun n =>
        decide (ascii "k" ∉ n.tags.getKeysByTag (ascii "t"))) = true := by
  decide +kernel

end Grid

end CacheGrid
