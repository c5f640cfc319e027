import CacheGrid.LocalSessions
import CacheGrid.StoreAnnouncements
import CacheGrid.TagHistory

/-!
# The tag index and the records that leave the store

A record that is deleted takes its tags along, and one that is evicted or
swept leaves a callback behind that does.  A record that a read finds lapsed
leaves neither, and its tags stay.  They also stay if the record is evicted by
the write that tags it and the callback runs before the tags are added.  In
every other case each key in the index is in the store or has a callback on
its way.
-/

namespace CacheGrid

open InterleavedPrograms SequentialRuns TimedMap

theorem TagIndex.WellFormed.lookup_ne_none {ti : TagIndex}
    (hwell : ti.WellFormed) {key : GoString} (hrecords : ti.Records key) :
    ti.keyToTags.lookup key ≠ none := by
  rcases hrecords with hlookup | ⟨tag, htag⟩
  · exact hlookup
  · intro hnone
    rw [hwell.mem_iff, TagIndex.tagsOf, hnone] at htag
    exact absurd htag List.not_mem_nil

namespace Grid

variable {σ V D : Type}

/-! ## What the calls do -/

/-- The ghost state is the key that a Delete has taken from the store and not
yet from the index. -/
def cleanupDiscipline (c : GoString) :
    Discipline signature (Option GoString) where
  guard := fun deleting (op : Op) => op.LocalTo c ∧
    match op with
    | .store _ (.delete _) => deleting = none
    | .tagsRemove _ key => deleting = some key
    | .tagsAdd _ _ tags => tags ≠ []
    | _ => True
  update := fun deleting op _ =>
    match op with
    | .store _ (.delete key) => some key
    | .tagsRemove _ _ => none
    | _ => deleting

section Outlines

variable {z : Serializer V D} {f : Frame} {c : GoString}

theorem cleanupDiscipline_plain (deleting : Option GoString) {op : Op}
    (hplain : op.plain = true) :
    Neutral (cleanupDiscipline c) deleting op := by
  have hlocal := Op.localTo_of_plain hplain c
  cases op with
  | store d op => contradiction
  | tagsRemove d key => contradiction
  | tagsAdd d key tags => contradiction
  | _ => exact ⟨⟨hlocal, trivial⟩, fun _ => rfl⟩

def Undeleting (c : GoString) (op : Op) : Prop :=
  ∃ storeOp, op = .store c storeOp ∧ ∀ key, storeOp ≠ .delete key

theorem Undeleting.neutral {op : Op} (hop : Undeleting c op) :
    Neutral (cleanupDiscipline c) none op := by
  obtain ⟨storeOp, rfl, hne⟩ := hop
  cases storeOp with
  | delete key => exact absurd rfl (hne key)
  | _ => exact ⟨⟨rfl, trivial⟩, fun _ => rfl⟩

theorem fetches_undeleting (hlocal : f.topology = none) {key : GoString}
    {op : Op} (hop : Fetches f c key op) : Undeleting c op := by
  rcases hop with rfl | ⟨haddr, _⟩ | ⟨data, rfl⟩
  · exact ⟨_, rfl, nofun⟩
  · exact absurd (Frame.ownerAddr_local hlocal key) haddr
  · exact ⟨_, rfl, nofun⟩

theorem counts_undeleting (hlocal : f.topology = none) {key : GoString}
    {delta : Int64} {op : Op} (hop : Counts f c key delta op) :
    Undeleting c op := by
  rcases hop with rfl | ⟨haddr, _⟩
  · exact ⟨_, rfl, nofun⟩
  · exact absurd (Frame.ownerAddr_local hlocal key) haddr

theorem performed_undeleting (hlocal : f.topology = none)
    {call : CacheCall V D} (hcall : ∀ key, call ≠ .delete key) {op : Op}
    (hop : Performed z f c call op) : Undeleting c op := by
  cases call with
  | set key value lifetime =>
    obtain ⟨data, _, rfl | ⟨haddr, _⟩⟩ := hop
    · exact ⟨_, rfl, nofun⟩
    · exact absurd (Frame.ownerAddr_local hlocal key) haddr
  | get key dest => exact fetches_undeleting hlocal hop
  | delete key => exact absurd rfl (hcall key)
  | «exists» key =>
    rcases hop with rfl | ⟨haddr, _⟩
    · exact ⟨_, rfl, nofun⟩
    · exact absurd (Frame.ownerAddr_local hlocal key) haddr
  | ttl key => exact ⟨_, hop, nofun⟩
  | mget keys =>
    obtain ⟨key, _, hfetch⟩ := hop
    exact fetches_undeleting hlocal hfetch
  | incr key delta => exact counts_undeleting hlocal hop
  | decr key delta => exact counts_undeleting hlocal hop

theorem cleanup_delete (hlocal : f.topology = none) (key : GoString) :
    FollowsUnder (Consistent (some f) c) (cleanupDiscipline c)
      (fun deleting _ => deleting = none) none (delete c key) :=
  followsUnder_delete cleanupDiscipline_plain hlocal ⟨rfl, rfl⟩
    (fun _ => rfl) ⟨rfl, rfl⟩ fun _ => rfl

theorem cleanup_basic (hlocal : f.topology = none) (call : CacheCall V D) :
    FollowsUnder (Consistent (some f) c) (cleanupDiscipline c)
      (fun deleting _ => deleting = none) none (call.program z c) := by
  by_cases hdelete : ∃ key, call = .delete key
  · obtain ⟨key, rfl⟩ := hdelete
    exact (cleanup_delete hlocal key).map fun _ _ hnone => hnone
  · have hne : ∀ key, call ≠ .delete key := fun key heq => hdelete ⟨key, heq⟩
    have hperforms : (call.program z c).Performs (Consistent (some f) c)
        (fun op : Op => op.plain = true ∨ Undeleting c op) fun _ => True := by
      refine performs_call Or.inl (fun key heq => absurd heq (hne key)) ?_
      rintro _ ⟨⟩ op hop
      exact Or.inr (performed_undeleting hlocal hne hop)
    exact (followsUnder_of_performs cleanupDiscipline_plain hperforms
      fun _ hop => hop.neutral).mono fun _ _ hnone => hnone.1

theorem cleanup_set (hlocal : f.topology = none) {key : GoString}
    {value : GoValue V} {ttl : Duration} :
    FollowsUnder (Consistent (some f) c) (cleanupDiscipline c)
      (fun deleting _ => deleting = none) none (set z c key value ttl) :=
  (followsUnder_set cleanupDiscipline_plain hlocal
    (fun _ _ _ => ⟨rfl, trivial⟩) fun _ _ _ => rfl).mono
    fun _ _ hset => hset.elim (fun h => h.2.2) fun h => h.2

theorem cleanup_get (hlocal : f.topology = none) {key : GoString}
    {dest : Dest D} :
    FollowsUnder (Consistent (some f) c) (cleanupDiscipline c)
      (fun deleting _ => deleting = none) none (get z c key dest) :=
  followsUnder_get cleanupDiscipline_plain hlocal
    ⟨⟨rfl, trivial⟩, fun _ => rfl⟩

theorem cleanup_deleteAll (hlocal : f.topology = none)
    (keys : List GoString) :
    FollowsUnder (Consistent (some f) c) (cleanupDiscipline c)
      (fun deleting _ => deleting = none) none (deleteAll c keys) := by
  induction keys with
  | nil => exact rfl
  | cons key keys ih =>
    unfold deleteAll
    refine (cleanup_delete hlocal key).bind ?_
    rintro _ _ rfl
    exact ih

theorem cleanup_call (hlocal : f.topology = none)
    (call : CompoundCall V D) :
    FollowsUnder (Consistent (some f) c) (cleanupDiscipline c)
      (fun deleting _ => deleting = none) none (call.program z c) := by
  cases call with
  | basic call =>
    exact (cleanup_basic hlocal call).map fun _ _ hnone => hnone
  | setWithTags key value ttl tags =>
    have hset : FollowsUnder (Consistent (some f) c) (cleanupDiscipline c)
        (fun deleting _ => deleting = none) none
        (setWithTags z c key value ttl tags) := by
      unfold setWithTags
      refine (cleanup_set hlocal).bind ?_
      rintro _ error rfl
      cases error with
      | some err => exact rfl
      | none =>
        simp only
        split
        · rename_i htags
          exact followsUnder_perform
            ⟨rfl, List.length_pos_iff.mp htags⟩ fun _ _ => rfl
        · exact rfl
    exact hset.map fun _ _ hnone => hnone
  | invalidateTag tag order =>
    have hinvalidate : FollowsUnder (Consistent (some f) c)
        (cleanupDiscipline c) (fun deleting _ => deleting = none) none
        (invalidateTag c tag order) :=
      followsUnder_perform ⟨rfl, trivial⟩ fun keys _ =>
        cleanup_deleteAll hlocal (order.visit keys)
    exact hinvalidate.map fun _ _ hnone => hnone
  | getOrSet key dest ttl fn =>
    have hgetOrSet : FollowsUnder (Consistent (some f) c)
        (cleanupDiscipline c) (fun deleting _ => deleting = none) none
        (getOrSet z c key dest ttl fn) := by
      unfold getOrSet
      split
      · exact rfl
      · refine followsUnder_checked cleanupDiscipline_plain rfl ?_
        refine (cleanup_get hlocal).bind ?_
        rintro _ found rfl
        cases found with
        | some value => exact rfl
        | none =>
          cases fn with
          | error err => exact rfl
          | ok value =>
            refine (cleanup_set hlocal).bind ?_
            rintro _ error rfl
            cases error with
            | some err => exact rfl
            | none =>
              simp only
              split <;> exact rfl
    exact hgetOrSet.map fun _ _ hnone => hnone

end Outlines

/-! ## The index and the store -/

/-- Every key in the index is in the store, or something is about to take it
from the index. -/
structure Accounted (good : σ → Prop)
    (contents : σ → Contents GoString Bytes) (deleting : Option GoString)
    (v : LocalView σ) : Prop where
  good_store : good v.store
  wellFormed : v.tags.WellFormed
  accounted : ∀ key, v.tags.keyToTags.lookup key ≠ none →
    contents v.store key ≠ none ∨ key ∈ v.pending.map Callback.key ∨
      deleting = some key

/-- A read does not find a record in the index lapsed, and tags are added only
to a key that is in the store or has a callback to run. -/
def Tidy (contents : σ → Contents GoString Bytes)
    (lapsed : Record Bytes → Readings → Prop) (v : LocalView σ) :
    Op → Readings → Prop
  | .store _ op, clock => op.reads = true → ∀ key ∈ op.key?,
      v.tags.keyToTags.lookup key ≠ none →
        ∀ r ∈ contents v.store key, ¬lapsed r clock
  | .tagsAdd _ key _, _ => contents v.store key ≠ none ∨
      key ∈ v.pending.map Callback.key
  | _, _ => True

instance decidableTidy (contents : σ → Contents GoString Bytes)
    (lapsed : Record Bytes → Readings → Prop)
    [∀ r clock, Decidable (lapsed r clock)] (v : LocalView σ) :
    ∀ op clock, Decidable (Tidy contents lapsed v op clock)
  | .store _ op, clock => inferInstanceAs (Decidable (op.reads = true →
      ∀ key ∈ op.key?, v.tags.keyToTags.lookup key ≠ none →
        ∀ r ∈ contents v.store key, ¬lapsed r clock))
  | .tagsAdd _ key _, _ => inferInstanceAs (Decidable
      (contents v.store key ≠ none ∨ key ∈ v.pending.map Callback.key))
  | .loadClosed _, _ => inferInstanceAs (Decidable True)
  | .loadConfig _, _ => inferInstanceAs (Decidable True)
  | .ringGetNode _ _, _ => inferInstanceAs (Decidable True)
  | .selfName _, _ => inferInstanceAs (Decidable True)
  | .stateGetNode _ _, _ => inferInstanceAs (Decidable True)
  | .liveNodes _, _ => inferInstanceAs (Decidable True)
  | .tagsRemove _ _, _ => inferInstanceAs (Decidable True)
  | .tagsGetKeys _ _, _ => inferInstanceAs (Decidable True)
  | .broker _ _, _ => inferInstanceAs (Decidable True)
  | .call _ _, _ => inferInstanceAs (Decidable True)
  | .goCall _ _, _ => inferInstanceAs (Decidable True)

section Accounted

variable {impl : StoreImpl σ} {good : σ → Prop}
  {contents : σ → Contents GoString Bytes}
  {lapsed : Record Bytes → Readings → Prop} {v : LocalView σ}
  {deleting deleting' : Option GoString}

theorem Accounted.call (hlaw : AnnouncesLosses impl good contents lapsed)
    (haccounted : Accounted good contents deleting v) {c : GoString}
    {clock : Readings} {op : StoreOp}
    (hok : Tidy contents lapsed v (.store c op) clock)
    (hdeleting : ∀ key, op = .delete key ∨ deleting = some key →
      deleting' = some key) :
    Accounted good contents deleting' (v.call impl clock op) where
  good_store := hlaw.good_call haccounted.good_store _
  wellFormed := haccounted.wellFormed
  accounted := by
    intro key hkey
    rcases haccounted.accounted key hkey with hstored | hpending | hdeleted
    · obtain ⟨r, hr⟩ := Option.ne_none_iff_exists'.mp hstored
      by_cases hgone : contents (v.call impl clock op).store key = none
      · right
        rcases hlaw.announced haccounted.good_store hr hgone with
          hcallback | hdelete | ⟨hop, hreads, hlapsed⟩
        · left
          exact List.map_append ▸ List.mem_append_right _ hcallback
        · exact Or.inr (hdeleting key (Or.inl hdelete))
        · exact absurd hlapsed (hok hreads key hop hkey r hr)
      · exact Or.inl hgone
    · right
      left
      exact List.map_append ▸ List.mem_append_left _ hpending
    · exact Or.inr (Or.inr (hdeleting key (Or.inr hdeleted)))

theorem Accounted.exec (hlaw : AnnouncesLosses impl good contents lapsed)
    (haccounted : Accounted good contents deleting v) {c : GoString}
    {op : Op} {clock : Readings} {answer : op.Answer}
    (hguard : (cleanupDiscipline c).guard deleting op)
    (hok : Tidy contents lapsed v op clock) :
    Accounted good contents
      ((cleanupDiscipline c).update deleting op answer)
      (v.exec impl clock op) := by
  cases op with
  | store d op =>
    refine haccounted.call hlaw hok ?_
    rintro key (rfl | hdeleted)
    · rfl
    · cases op with
      | delete other =>
        have hnone : deleting = none := hguard.2
        rw [hdeleted] at hnone
        contradiction
      | _ => exact hdeleted
  | tagsRemove d key =>
    refine ⟨haccounted.good_store, haccounted.wellFormed.remove key, ?_⟩
    intro other hother
    have hne : other ≠ key := by
      rintro rfl
      exact hother (v.tags.lookup_remove other)
    rw [LocalView.exec, v.tags.lookup_remove_of_ne hne] at hother
    rcases haccounted.accounted other hother with h | h | hdeleted
    · exact Or.inl h
    · exact Or.inr (Or.inl h)
    · have hkey : deleting = some key := hguard.2
      rw [hkey, Option.some.injEq] at hdeleted
      exact absurd hdeleted.symm hne
  | tagsAdd d key tags =>
    refine ⟨haccounted.good_store, haccounted.wellFormed.add key hguard.2,
      ?_⟩
    intro other hother
    by_cases hne : other = key
    · subst hne
      exact hok.imp_right Or.inl
    · rw [LocalView.exec, v.tags.lookup_add_of_ne hne] at hother
      exact haccounted.accounted other hother
  | _ => exact haccounted

theorem Accounted.callback (haccounted : Accounted good contents deleting v)
    (i : ℕ) : Accounted good contents deleting (v.callback i) := by
  unfold LocalView.callback
  split
  · exact haccounted
  · rename_i callback hpending
    refine ⟨haccounted.good_store, haccounted.wellFormed.remove _, ?_⟩
    intro key hkey
    have hne : key ≠ callback.key := by
      rintro rfl
      exact hkey (v.tags.lookup_remove _)
    rw [v.tags.lookup_remove_of_ne hne] at hkey
    rcases haccounted.accounted key hkey with h | h | h
    · exact Or.inl h
    · right
      left
      -- the callback that ran was for another key
      obtain ⟨other, hmem, rfl⟩ := List.mem_map.mp h
      obtain ⟨j, hj⟩ := List.mem_iff_getElem?.mp hmem
      refine List.mem_map.mpr ⟨other, ?_, rfl⟩
      refine List.mem_eraseIdx_iff_getElem?.mpr ⟨j, ?_, hj⟩
      rintro rfl
      rw [hpending, Option.some.injEq] at hj
      exact hne (hj ▸ rfl)
    · exact Or.inr (Or.inr h)

end Accounted

/-! ## Runs -/

section Runs

variable {impl : StoreImpl σ} {z : Serializer V D} {good : σ → Prop}
  {contents : σ → Contents GoString Bytes}
  {lapsed : Record Bytes → Readings → Prop} {start : Grid σ} {c : GoString}

/-- A local cache with any store that announces its losses and an index that
starts empty, one client that makes any calls, and sweeps and callbacks at any
time.  If no read finds an indexed record lapsed, and no tags are added to a
key that is neither in the store nor about to be cleaned up, then between the
calls, once all callbacks have run, every key in the index is in the store. -/
theorem index_within_store
    (hlaw : AnnouncesLosses impl good contents lapsed)
    (hready : LocalReady c c start)
    (hgood : ∀ {s}, start.stores c = some s → good s)
    (hfresh : ∀ n, start.nodes c = some n → n.tags = .new)
    {labels : List (SessionStep Choice (Env σ) (CompoundCall V D))}
    (hmeets : Meets (clientStep impl z c)
      (ClientObeys c (fun _ => True) (Tidy contents lapsed)
        (fun _ _ => True)) (Session.start start) labels)
    {final : Session signature (Grid σ) (CompoundCall V D)
      (CompoundReply V)}
    (hfinal : (SequentialRuns.run (clientStep impl z c)
      (Session.start start) labels).2 = final)
    (hidle : final.current = none) {n : CacheNode σ}
    (hnode : final.shared.nodes c = some n) (hquiet : n.pending = [])
    {key : GoString} (hkey : n.tags.Records key) :
    contents n.store key ≠ none := by
  subst hfinal
  obtain ⟨_, f, hf, hlocal, _⟩ := hready
  obtain ⟨first, hfirst, hframe⟩ := Option.map_eq_some_iff.mp hf
  have hinitial : Holds c f (Accounted good contents) none start := by
    refine ⟨first, hfirst, hframe, hgood (stores_of_node hfirst), ?_, ?_⟩
    · rw [CacheNode.view, hfresh first hfirst]
      exact TagIndex.wellFormed_new
    · intro key hkey
      rw [CacheNode.view, hfresh first hfirst] at hkey
      exact absurd rfl hkey
  obtain ⟨last, hlast, _, haccounted⟩ := @run_idle_view σ V D
    (Option GoString) impl z c f start (cleanupDiscipline c)
    (Accounted good contents) (Tidy contents lapsed) (fun _ _ => True)
    (fun _ => none) (fun _ => True)
    (fun _ call _ => cleanup_call hlocal call) (fun hguard => hguard.1)
    (fun haccounted hguard hok => haccounted.exec hlaw hguard hok)
    (fun clock haccounted => haccounted.call (c := c) hlaw nofun
      fun key h => h.elim nofun id)
    (fun haccounted _ => haccounted.callback _) hinitial labels hmeets hidle
  obtain rfl : last = n := Option.some.inj (hlast.symm.trans hnode)
  have hlookup := haccounted.wellFormed.lookup_ne_none hkey
  rcases haccounted.accounted key hlookup with hstored | hpending | hdeleting
  · exact hstored
  · rw [CacheNode.view, hquiet] at hpending
    exact absurd hpending List.not_mem_nil
  · contradiction

end Runs

/-- The write of `l` evicts `k`, the callback for `k` runs, and `l` is read
before its deadline. -/
theorem index_within_store_evicted :
    let start := launchLocal ⟨.partitioned, 0⟩
      (MemoryStore.new 1 (by decide) 200 true true)
    let labels : List (SessionStep Choice (Env MemoryStore)
        (CompoundCall Empty Empty)) :=
      callAt 0 8 (.setWithTags (ascii "k") (.bytes []) 0 [ascii "t"]) ++
        callAt 1 8 (.setWithTags (ascii "l") (.bytes []) 5 [ascii "t"]) ++
        [.env (.callback [] 0)] ++
        callAt 2 8 (.basic (.get (ascii "l") .bytes))
    (SequentialRuns.run (clientStep (MemoryStore.impl .int64) .basic [])
      (Session.start start) labels).2.shared.held MemoryStore.contents
        (ascii "l") [] ≠ none := by
  intro start labels
  have hready : LocalReady [] [] start := launchLocal_ready _ _
  have hgood : ∀ {s}, start.stores [] = some s →
      MemoryStore.Announcing s := by
    intro s hs
    obtain ⟨n, hnode, rfl⟩ := Option.map_eq_some_iff.mp hs
    rw [(launchLocal_nodes hnode).2]
    exact MemoryStore.announcing_new 1 (by decide) 200
  have hfresh : ∀ n, start.nodes [] = some n → n.tags = .new := by
    intro n hnode
    rw [(launchLocal_nodes hnode).2]
    rfl
  have hmeets : Meets (clientStep (MemoryStore.impl .int64) .basic [])
      (ClientObeys [] (fun _ => True)
        (Tidy MemoryStore.contents fun r clock => r.dead clock.finish = true)
        (fun _ _ => True)) (Session.start start) labels := by
    decide +kernel
  have hidle : (SequentialRuns.run
      (clientStep (MemoryStore.impl .int64) .basic [])
      (Session.start start) labels).2.current = none :=
    Option.isNone_iff_eq_none.mp (by decide +kernel)
  have hany : ((SequentialRuns.run
      (clientStep (MemoryStore.impl .int64) .basic [])
      (Session.start start) labels).2.shared.nodes []).any (fun n =>
        decide (n.pending = [] ∧
          n.tags.keyToTags.lookup (ascii "l") ≠ none)) = true := by
    decide +kernel
  obtain ⟨n, hnode, hn⟩ := (Option.any_eq_true _ _).mp hany
  obtain ⟨hquiet, hlookup⟩ := of_decide_eq_true hn
  have hstored := index_within_store (z := .basic)
    (MemoryStore.announcesLosses fun n => ⟨_, rfl⟩) hready hgood hfresh
    hmeets rfl hidle hnode hquiet (Or.inl hlookup)
  rwa [held, stores_of_node hnode]

/-- A Get removes the record after its deadline; no callback is left to run,
and the key stays in the index. -/
theorem index_outlives_record :
    let start := launchLocal ⟨.partitioned, 0⟩
      (MemoryStore.new 1 (by decide) 0 true true)
    let labels : List (SessionStep Choice (Env MemoryStore)
        (CompoundCall Empty Empty)) :=
      callAt 0 8 (.setWithTags (ascii "k") (.bytes []) 1 [ascii "t"]) ++
        callAt 5 8 (.basic (.get (ascii "k") .bytes))
    let final := (SequentialRuns.run
      (clientStep (MemoryStore.impl .int64) .basic [])
      (Session.start start) labels).2
    final.current.isNone = true ∧
      (final.shared.nodes []).any (fun n => decide (n.pending = [] ∧
        ascii "k" ∈ n.tags.getKeysByTag (ascii "t") ∧
        MemoryStore.contents n.store (ascii "k") = none)) = true := by
  decide +kernel

end Grid

end CacheGrid
