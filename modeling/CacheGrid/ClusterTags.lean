import CacheGrid.TagHistory

/-!
# Tags in a partitioned cluster

A value lives at the owner of its key, its tags in the index of the cache that
SetWithTags was called on: `Set` hands no tags on, and the owner never hears
of them.  So InvalidateTag reaches the keys that were last written, with the
tag, on the very cache it is called on, and only those.
-/

namespace CacheGrid

open InterleavedPrograms SequentialRuns TimedMap

namespace Grid

variable {σ V D : Type} {impl : StoreImpl σ} {z : Serializer V D}
  {good : σ → Prop} {contents : σ → Contents GoString Bytes}
  {owner : GoString → GoString} {start g after : Grid σ} {c key : GoString}
  {history : History} {s : CompoundStep V D}

/-- The cache `c` is one of a stable partitioned cluster. -/
structure PartitionReady (owner : GoString → GoString) (c : GoString)
    (g : Grid σ) : Prop where
  stable : g.Stable owner
  partitioned : ∀ {d f}, g.frame d = some f → f.config.mode = .partitioned
  runs : ∃ f, g.frame c = some f

theorem PartitionReady.of_frame_eq (hready : PartitionReady owner c g)
    (hframe : after.frame = g.frame) : PartitionReady owner c after where
  stable := hready.stable.of_frame_eq hframe
  partitioned := fun hf => hready.partitioned (congrFun hframe _ ▸ hf)
  runs := hframe ▸ hready.runs

theorem PartitionReady.nodes (hready : PartitionReady owner c g)
    (key : GoString) :
    ∃ n m, g.nodes c = some n ∧ n.closed = false ∧
      n.config.mode = .partitioned ∧ g.home c key = owner key ∧
      g.nodes (g.home c key) = some m ∧ m.closed = false := by
  obtain ⟨f, hf⟩ := hready.runs
  obtain ⟨n, hnode, rfl⟩ := Option.map_eq_some_iff.mp hf
  obtain ⟨m, howner, hopen⟩ := hready.stable.owner_node key
  have hhome := hready.stable.home hnode key
  exact ⟨n, m, hnode, hready.stable.open hnode, hready.partitioned hf, hhome,
    hhome.symm ▸ howner, hopen⟩

def AllAnswered (choices : ℕ → Choice) : Prop :=
  ∀ i, (choices i).rpc = .answered

theorem homed_partitioned (impl : StoreImpl σ) (z : Serializer V D)
    (owner : GoString → GoString) :
    Homed impl z owner (PartitionReady owner) AllAnswered where
  of_frame_eq := PartitionReady.of_frame_eq
  ok_later := fun hanswered i => hanswered (i + 1)
  node := by
    intro c g hready
    obtain ⟨n, _, hnode, hopen, _⟩ := hready.nodes []
    exact ⟨n, hnode, hopen⟩
  set := by
    intro c g choices key value data hready hanswered hkey hdata lifetime
    obtain ⟨n, m, hnode, hopen, hmode, hhome, howner, hopen'⟩ :=
      hready.nodes key
    obtain ⟨result, final, haccess, halone⟩ := alone_set_partitioned hnode
      hopen hmode howner hopen' (hanswered 0) hkey hdata lifetime
    exact ⟨_, result, final, hhome ▸ haccess, halone⟩
  delete := by
    intro c g choices key hready hanswered hkey
    obtain ⟨n, m, hnode, hopen, hmode, hhome, howner, hopen'⟩ :=
      hready.nodes key
    obtain ⟨result, final, haccess, huntagged, halone⟩ :=
      alone_delete_partitioned hnode hopen hmode howner hopen' (hanswered 0)
        hkey
    exact ⟨result, final, hhome ▸ haccess, huntagged, halone⟩

/-- The cache that wrote a key last has its tags in its index, as long as the
key is there. -/
structure Located (good : σ → Prop) (contents : σ → Contents GoString Bytes)
    (owner : GoString → GoString) (start : Grid σ) (history : History)
    (g : Grid σ) : Prop extends Settles good start g where
  wellFormed : ∀ c n, g.nodes c = some n → n.tags.WellFormed
  tags_eq : ∀ key c tags, history key = some (c, tags) → tags ≠ [] →
    g.held contents key (owner key) ≠ none → ∀ n, g.nodes c = some n →
    n.tags.tagsOf key = tags
  nonempty : history [] = none

theorem Located.wrote (hlocated : Located good contents owner start history g)
    {tags : List GoString}
    (hwritten : s.call.written? z = some (key, tags))
    (hwrote : WroteTags good contents owner start g s.c key tags after)
    (hkey : key ≠ []) :
    Located good contents owner start (remember z history s) after where
  toSettles := hwrote.toSettles
  wellFormed d n' hnode' := by
    obtain ⟨n, hnode, hagrees⟩ := hwrote.agrees d n' hnode'
    exact hagrees.wellFormed (hlocated.wellFormed d n hnode)
  tags_eq other d ts hlast hts hheld n' hnode' := by
    simp only [remember, hwritten] at hlast
    by_cases hother : other = key
    · subst hother
      rw [Function.update_self] at hlast
      cases hlast
      exact hwrote.recorded hts n' hnode'
    · rw [Function.update_of_ne hother] at hlast
      rw [hwrote.held_other other hother] at hheld
      obtain ⟨n, hnode, hagrees⟩ := hwrote.agrees d n' hnode'
      rw [hagrees.tagsOf_eq (fun h => hother h.2)]
      exact hlocated.tags_eq other d ts hlast hts hheld n hnode
  nonempty := by
    simp only [remember, hwritten]
    rw [Function.update_of_ne hkey.symm]
    exact hlocated.nonempty

theorem Located.dropped
    (hlocated : Located good contents owner start history g)
    {keys : List GoString}
    (hdropped : DroppedKeys good contents owner start g keys after) :
    Located good contents owner start history after where
  toSettles := hdropped.toSettles
  wellFormed d n' hnode' := by
    obtain ⟨n, hnode, hagrees⟩ := hdropped.agrees d n' hnode'
    exact hagrees.wellFormed (hlocated.wellFormed d n hnode)
  tags_eq other d ts hlast hts hheld n' hnode' := by
    have hkept : other ∉ keys := by
      intro hmem
      refine hheld (hdropped.held_none other hmem ?_)
      rintro rfl
      rw [hlocated.nonempty] at hlast
      contradiction
    rw [hdropped.held_kept other (Or.inl hkept)] at hheld
    obtain ⟨n, hnode, hagrees⟩ := hdropped.agrees d n' hnode'
    rw [hagrees.tagsOf_eq hkept]
    exact hlocated.tags_eq other d ts hlast hts hheld n hnode
  nonempty := hlocated.nonempty

/-- A step at a running cache along a timeline on which no RPC fails. -/
structure TagStep (start : Grid σ) (s : CompoundStep V D) : Prop where
  runs : ∃ f, start.frame s.c = some f
  reliable : s.timeline.Reliable
  tagging : s.call.tagging = true

section Runs

variable (hlaw : KeepsLedger impl z.toMsgpack good contents)
  (hstable : start.Stable owner)
  (hmode : ∀ {c f}, start.frame c = some f → f.config.mode = .partitioned)

include hlaw hstable hmode

theorem Located.step (hlocated : Located good contents owner start history g)
    (hs : TagStep start s) :
    Located good contents owner start (remember z history s)
      (compoundStep impl z g s).2 := by
  have hhomed := homed_partitioned impl z owner
  have hready : PartitionReady owner s.c g :=
    PartitionReady.of_frame_eq ⟨hstable, hmode, hs.runs⟩ hlocated.frame_eq
  obtain ⟨n, hnode, _⟩ := hhomed.node hready
  cases hwritten : s.call.written? z with
  | some entry =>
    obtain ⟨key, tags⟩ := entry
    obtain ⟨_, _, _, hkey, _⟩ := CompoundCall.cases_of_written hwritten
    exact hlocated.wrote hwritten (hhomed.compoundStep_written hlaw hready
      hs.reliable hlocated.toSettles hnode hwritten) hkey
  | none =>
    have hdropped := hhomed.compoundStep_deleted hlaw hready hs.reliable
      hlocated.toSettles hnode hs.tagging hwritten
    simp only [remember, hwritten]
    exact hlocated.dropped hdropped

theorem Located.run (hlocated : Located good contents owner start history g)
    {steps : List (CompoundStep V D)}
    (hsteps : ∀ s ∈ steps, TagStep start s) :
    Located good contents owner start (steps.foldl (remember z) history)
      (SequentialRuns.run (compoundStep impl z) g steps).2 := by
  induction steps generalizing g history with
  | nil => exact hlocated
  | cons s steps ih =>
    exact ih (hlocated.step hlaw hstable hmode (hsteps s List.mem_cons_self))
      fun s' hs' => hsteps s' (List.mem_cons_of_mem s hs')

theorem Located.invalidateTag
    (hlocated : Located good contents owner start history g)
    {tags : List GoString} (hwriter : history key = some (c, tags))
    {tag : GoString} (htag : tag ∈ tags) {order : MapOrder}
    {timeline : Timeline}
    (hstep : TagStep start
      (⟨c, .invalidateTag tag order, timeline⟩ : CompoundStep V D)) :
    (compoundStep impl z g
      ⟨c, .invalidateTag tag order, timeline⟩).2.held contents key
        (owner key) = none := by
  have hhomed := homed_partitioned impl z owner
  have hready : PartitionReady owner c g :=
    PartitionReady.of_frame_eq ⟨hstable, hmode, hstep.runs⟩
      hlocated.frame_eq
  obtain ⟨n, hnode, _⟩ := hhomed.node hready
  have hdropped := @Homed.compoundStep_deleted _ _ _ _ _ _ _ _ _ _ _ g n
    ⟨c, .invalidateTag tag order, timeline⟩ hhomed hlaw hready
    hstep.reliable hlocated.toSettles hnode rfl rfl
  have hkey : key ≠ [] := by
    rintro rfl
    rw [hlocated.nonempty] at hwriter
    contradiction
  by_cases hmem : key ∈ order.visit (n.tags.getKeysByTag tag)
  · exact hdropped.held_none key hmem hkey
  · rw [hdropped.held_kept key (Or.inl hmem)]
    by_contra hheld
    have htags := hlocated.tags_eq key c tags hwriter
      (List.ne_nil_of_mem htag) hheld n hnode
    rw [order.mem_visit, (hlocated.wellFormed c n hnode).mem_iff,
      htags] at hmem
    exact hmem htag

theorem get_misses (hsettles : Settles good start g)
    (hheld : g.held contents key (owner key) = none) {dest : Dest D}
    {timeline : Timeline} (hruns : ∃ f, start.frame c = some f)
    (hreliable : timeline.Reliable) :
    (compoundStep impl z g ⟨c, .basic (.get key dest), timeline⟩).1 =
      some (.basic (.got none)) := by
  have hready : PartitionReady owner c g :=
    PartitionReady.of_frame_eq ⟨hstable, hmode, hruns⟩ hsettles.frame_eq
  by_cases hkey : key = []
  · subst hkey
    rfl
  · obtain ⟨n, m, hnode, hopen, hpart, hhome, howner, hopen'⟩ :=
      hready.nodes key
    obtain ⟨result, final, haccess, halone⟩ := @alone_get_partitioned σ V D
      impl z g c key n m timeline.choice hnode hopen hpart howner hopen'
      (hreliable 0) hkey dest
    have hfound := haccess.get_found hlaw.lossy hsettles.good_store
    have hcopy : g.copyAt contents ((timeline.choice 0).clock.now 0)
        (g.home c key) key = none := by
      rw [hhome, copyAt_eq_filter, hheld]
      rfl
    rw [hcopy, Option.map_none] at hfound
    have hstep : compoundStep impl z g
        ⟨c, .basic (.get key dest), timeline⟩ = _ :=
      compoundStep_of_alone
        (Prog.alone_map_of_eq (Prog.alone_map_of_eq halone))
    simp only [hstep, hfound]
    rfl

end Runs

/-- A stable partitioned cluster whose RPCs are reliable.  After any sequence
of tag calls at arbitrary caches and an InvalidateTag at `c`, no cache gets a
key whose most recent write carried the tag, if that write was made on `c`. -/
theorem invalidateTag_reaches_own_writes
    (hlaw : KeepsLedger impl z.toMsgpack good contents)
    (hstable : start.Stable owner)
    (hmode : ∀ {c f}, start.frame c = some f →
      f.config.mode = .partitioned)
    (hgood : ∀ {c s}, start.stores c = some s → good s)
    (hwell : ∀ c n, start.nodes c = some n → n.tags.WellFormed)
    {steps : List (CompoundStep V D)}
    (hsteps : ∀ s ∈ steps, TagStep start s) {tag : GoString}
    {order : MapOrder} {timeline : Timeline}
    (hstep : TagStep start
      (⟨c, .invalidateTag tag order, timeline⟩ : CompoundStep V D))
    {tags : List GoString}
    (hwriter : historyOf z steps key = some (c, tags)) (htag : tag ∈ tags)
    {d : GoString} (hruns : ∃ f, start.frame d = some f) (dest : Dest D)
    {timeline' : Timeline} (hreliable : timeline'.Reliable) :
    (compoundStep impl z
      (SequentialRuns.run (compoundStep impl z) start
        (steps ++ [⟨c, .invalidateTag tag order, timeline⟩])).2
      ⟨d, .basic (.get key dest), timeline'⟩).1 =
      some (.basic (.got none)) := by
  have hinitial : Located good contents owner start (fun _ => none) start :=
    ⟨⟨rfl, hgood⟩, hwell, nofun, rfl⟩
  have hlocated := hinitial.run hlaw hstable hmode hsteps
  have hheld := hlocated.invalidateTag hlaw hstable hmode hwriter htag hstep
  have hafter := hlocated.step hlaw hstable hmode hstep
  rw [run_append_singleton_state]
  exact get_misses hlaw hstable hmode hafter.toSettles hheld hruns hreliable

/-- A value that `a:1` has set with a tag and `b:1` owns, invalidated at
`a:1`. -/
theorem invalidateTag_reaches_owner :
    (compoundStep (MemoryStore.impl .int64) .basic
      (SequentialRuns.run (compoundStep (MemoryStore.impl .int64) .basic)
        (twoCaches ⟨.partitioned, 0⟩
          (MemoryStore.new 1 (by decide) 0 true true))
        ([⟨ascii "a:1", .setWithTags (ascii "k") (.int64 7) 0 [ascii "t"],
            .instant 0⟩] ++
          [⟨ascii "a:1", .invalidateTag (ascii "t")
            (.of [ascii "k"] (by decide)), .instant 1⟩])).2
      ⟨ascii "b:1", .basic (.get (ascii "k") .int64), .instant 2⟩).1 =
      some (.basic (.got none)) := by
  have hmode : ∀ {c f}, (twoCaches ⟨.partitioned, 0⟩
      (MemoryStore.new 1 (by decide) 0 true true)).frame c = some f →
      f.config.mode = .partitioned :=
    fun hf => congrArg CacheConfig.mode (twoCaches_config hf)
  have hgood : ∀ {c s}, (twoCaches ⟨.partitioned, 0⟩
      (MemoryStore.new 1 (by decide) 0 true true)).stores c = some s →
      MemoryStore.Unlimited s := by
    intro c s hs
    rw [twoCaches_stores hs]
    exact MemoryStore.unlimited_new 1 (by decide) le_rfl true true
  have hruns : ∀ c ∈ [ascii "a:1", ascii "b:1"], ∃ f, (twoCaches
      ⟨.partitioned, 0⟩ (MemoryStore.new 1 (by decide) 0 true true)).frame
        c = some f := by
    intro c hc
    exact Option.isSome_iff_exists.mp (by fin_cases hc <;> decide +kernel)
  have hwriter : historyOf .basic
      ([⟨ascii "a:1", .setWithTags (ascii "k") (.int64 7) 0 [ascii "t"],
        .instant 0⟩] : List (CompoundStep Empty Empty)) (ascii "k") =
      some (ascii "a:1", [ascii "t"]) := by
    decide
  exact invalidateTag_reaches_own_writes (MemoryStore.keepsLedger .int64)
    (twoCaches_stable ⟨.partitioned, 0⟩ _) hmode hgood
    (fun _ _ hnode => (twoCaches_tags hnode).symm ▸ TagIndex.wellFormed_new)
    (by simp only [List.forall_mem_singleton]
        exact ⟨hruns _ (by simp), fun _ => rfl, rfl⟩)
    ⟨hruns _ (by simp), fun _ => rfl, rfl⟩ hwriter (by simp)
    (hruns _ (by simp)) .int64 fun _ => rfl

/-- The same value, invalidated at its owner: the index of `b:1` has no tags,
and the value is still there. -/
theorem invalidateTag_misses_other_writes :
    let steps : List (CompoundStep Empty Empty) :=
      [⟨ascii "a:1", .setWithTags (ascii "k") (.int64 7) 0 [ascii "t"],
        .instant 0⟩]
    let invalidate : CompoundStep Empty Empty :=
      ⟨ascii "b:1", .invalidateTag (ascii "t") (.of [] (by decide)),
        .instant 1⟩
    historyOf .basic steps (ascii "k") = some (ascii "a:1", [ascii "t"]) ∧
      (compoundStep (MemoryStore.impl .int64) .basic
        (SequentialRuns.run (compoundStep (MemoryStore.impl .int64) .basic)
          (twoCaches ⟨.partitioned, 0⟩
            (MemoryStore.new 1 (by decide) 0 true true))
          (steps ++ [invalidate])).2
        ⟨ascii "b:1", .basic (.get (ascii "k") .int64), .instant 2⟩).1 =
        some (.basic (.got (some (.int64 7)))) := by
  decide +kernel

end Grid

end CacheGrid
