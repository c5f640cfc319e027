import CacheGrid.FailedWrites

/-!
# Deletes that fail

Delete and InvalidateTag in a partitioned cluster, with RPCs that may fail.  A
Delete ignores the error of its RemoteDelete: it publishes the event and takes
the key from the tag index of the cache it was called on, whether the owner
still has the key or not.  From then on no InvalidateTag finds the key.
-/

namespace CacheGrid

open InterleavedPrograms SequentialRuns TimedMap

namespace Grid

section Deletes

variable {σ : Type} {impl : StoreImpl σ} {contents : σ → Contents GoString Bytes}
  {g final : Grid σ} {c key : GoString} {n : CacheNode σ} {choice : Choice}
  {choices : ℕ → Choice}

/-- The owner of the key, as `c` sees it, has no record of the key. -/
def Absent (contents : σ → Contents GoString Bytes) (g : Grid σ)
    (c key : GoString) : Prop :=
  ∀ store, g.stores (g.home c key) = some store → contents store key = none

/-- Every key that is still stored on its owner is still recorded under the
tags that it had in the index of `c`. -/
def StillRecorded (contents : σ → Contents GoString Bytes) (g final : Grid σ)
    (c : GoString) : Prop :=
  ∀ n n', g.nodes c = some n → final.nodes c = some n' →
    ∀ key tag, key ∈ n.tags.getKeysByTag tag →
      ¬ Absent contents final c key → key ∈ n'.tags.getKeysByTag tag

/-- The key is deleted at its owner: in the store of `c` itself, or by an RPC
that is served. -/
def DeleteArrives (g : Grid σ) (n : CacheNode σ) (key : GoString)
    (choice : Choice) : Prop :=
  n.frame.ownerAddr key = [] ∨
    (g.server (n.frame.ownerAddr key) choice).isSome = true

theorem server_of_frame_eq (hframe : final.frame = g.frame) (addr : GoString) :
    (final.server addr choice).isSome = (g.server addr choice).isSome := by
  have hlistens : ∀ grid : Grid σ, (grid.listener addr).isSome =
      ((grid.frame addr).any fun f => !f.closed) := by
    intro grid
    simp only [listener, frame]
    cases grid.nodes addr with
    | none => rfl
    | some m => cases hclosed : m.closed <;> simp [CacheNode.frame, hclosed]
  unfold server
  cases choice.rpc with
  | unsent error => rfl
  | answered => exact (hlistens final).trans (hframe ▸ (hlistens g).symm)
  | unanswered error =>
    exact (hlistens final).trans (hframe ▸ (hlistens g).symm)

/-! ## One Delete -/

theorem exec_call_isSome (g : Grid σ) (addr : GoString)
    (req : Transport.Request) (choice : Choice) :
    ∃ answer after, (machine impl).exec g (.call addr req) choice =
      some (answer, after) := by
  simp only [machine, exec]
  cases g.listener addr with
  | none => exact ⟨_, _, rfl⟩
  | some m => cases choice.rpc <;> exact ⟨_, _, rfl⟩

/-- What a RemoteDelete does.  If the address is that of `c` itself, it loses
the tags of the key at once. -/
theorem alone_remoteDelete_any (hnode : g.nodes c = some n)
    (addr key : GoString) (choices : ℕ → Choice) :
    ∃ answer after n', (remoteDelete addr key).alone (machine impl) Op.timed
        choices g = some (answer, later choices, after) ∧
      after.nodes c = some n' ∧
      (n'.tags = n.tags ∨ n'.tags = n.tags.remove key) ∧
      ((g.server addr (choices 0)).isSome = true ∧ (∃ result,
          Accessed impl g addr ((choices 0).clock, .delete key) result after) ∨
        (g.server addr (choices 0)).isSome = false ∧ after = g) := by
  obtain ⟨answer, after, hexec⟩ :=
    @exec_call_isSome σ impl g addr (deleteRequest key) (choices 0)
  have halone : (remoteDelete addr key).alone (machine impl) Op.timed choices
      g = some (errorOf answer, later choices, after) :=
    Prog.alone_map_of_eq (Prog.alone_perform hexec)
  rcases exec_call_cases hexec with
    ⟨hserver, rfl, _⟩ | ⟨m, hserver, hm, rfl, _⟩
  · exact ⟨_, after, n, halone, hnode, .inl rfl,
      .inr ⟨by rw [hserver]; rfl, rfl⟩⟩
  · obtain ⟨m', hserve, hframe, hstore⟩ :=
      @serve_delete σ impl g addr key m (choices 0)
    have haccess : Accessed impl g addr ((choices 0).clock, .delete key)
        (m.runStore impl (choices 0).clock (.delete key)).1
        (g.serve impl (choices 0) addr m (deleteRequest key)).2 := by
      rw [hserve]
      exact accessed_setNode hm hframe hstore
    have hserved : (g.server addr (choices 0)).isSome = true := by
      rw [hserver]
      rfl
    by_cases haddr : addr = c
    · subst haddr
      obtain rfl : m = n := Option.some.inj (hm.symm.trans hnode)
      exact ⟨_, _, _, halone, Function.update_self _ _ _, .inr rfl,
        .inl ⟨hserved, _, haccess⟩⟩
    · have hnode' : (g.serve impl (choices 0) addr m
          (deleteRequest key)).2.nodes c = some n :=
        (Function.update_of_ne (Ne.symm haddr) _ _).trans hnode
      exact ⟨_, _, n, halone, hnode', .inl rfl,
        .inl ⟨hserved, _, haccess⟩⟩

/-- What a Delete at `c` has done: the tags of the key are gone in any case. -/
structure Deleted (impl : StoreImpl σ) (g : Grid σ) (c : GoString)
    (n : CacheNode σ) (key : GoString) (choice : Choice) (final : Grid σ) :
    Prop where
  frame_eq : final.frame = g.frame
  tags_eq : ∃ n', final.nodes c = some n' ∧ n'.tags = n.tags.remove key
  stores_eq : DeleteArrives g n key choice ∧ (∃ result,
      Accessed impl g (g.home c key) (choice.clock, .delete key) result
        final) ∨
    ¬DeleteArrives g n key choice ∧ final.stores = g.stores

theorem alone_distributedDelete_any (hnode : g.nodes c = some n)
    (hmode : n.config.mode = .partitioned) (key : GoString)
    (choices : ℕ → Choice) :
    ∃ after n₁,
      (distributedDelete c key).alone (machine impl) Op.timed choices g =
        some ((), later choices, after) ∧
      after.nodes c = some n₁ ∧
      (n₁.tags = n.tags ∨ n₁.tags = n.tags.remove key) ∧
      (DeleteArrives g n key (choices 0) ∧ (∃ result,
          Accessed impl g (g.home c key) ((choices 0).clock, .delete key)
            result after) ∨
        ¬DeleteArrives g n key (choices 0) ∧ after = g) := by
  unfold distributedDelete
  rw [Prog.alone_perform_bind (onNodeRead_eq hnode _)]
  simp only [hmode, Op.timed, Bool.false_eq_true, if_false]
  rw [Prog.alone_bind_of_eq (alone_ownerAddr hnode)]
  by_cases hlocal : n.frame.ownerAddr key = []
  · rw [if_neg (by simpa using hlocal),
      Prog.alone_perform_bind (exec_store hnode _), home_eq_self hnode hlocal]
    exact ⟨_, _, rfl, Function.update_self _ _ _, .inl rfl,
      .inl ⟨.inl hlocal, _, accessed_runStore hnode _ _⟩⟩
  · obtain ⟨answer, after, n₁, hrun, hnode₁, htags₁, hserved⟩ :=
      @alone_remoteDelete_any σ impl g c n hnode (n.frame.ownerAddr key) key
        choices
    rw [if_pos hlocal, Prog.alone_bind_of_eq hrun, home_eq_addr hnode hlocal]
    refine ⟨after, n₁, rfl, hnode₁, htags₁, ?_⟩
    rcases hserved with ⟨hserver, haccess⟩ | ⟨hserver, hsame⟩
    · exact .inl ⟨.inr hserver, haccess⟩
    · refine .inr ⟨?_, hsame⟩
      rintro (hempty | hsome)
      · exact hlocal hempty
      · rw [hserver] at hsome
        exact Bool.false_ne_true hsome

theorem alone_delete_any (hnode : g.nodes c = some n)
    (hopen : n.closed = false) (hmode : n.config.mode = .partitioned)
    (hkey : key ≠ []) (choices : ℕ → Choice) :
    ∃ final, Deleted impl g c n key (choices 0) final ∧
      (delete c key).alone (machine impl) Op.timed choices g =
        some ((), later choices, final) := by
  obtain ⟨after, n₁, hrun, hnode₁, htags₁, hstores⟩ :=
    alone_distributedDelete_any hnode hmode key choices
  obtain ⟨final, n', hsame, hnode', htags', halone⟩ :=
    alone_delete_tags hnode hopen hkey hrun hnode₁
  refine ⟨final, ⟨?_, ⟨n', hnode', ?_⟩, ?_⟩, halone⟩
  · rcases hstores with ⟨_, _, haccess⟩ | ⟨_, rfl⟩
    · exact hsame.frame_eq.trans haccess.frame_eq
    · exact hsame.frame_eq
  · rcases htags₁ with htags | htags
    · rw [htags', htags]
    · rw [htags', htags, TagIndex.remove_remove]
  · rcases hstores with ⟨harrives, _, haccess⟩ | ⟨hlost, rfl⟩
    · exact .inl ⟨harrives, _, haccess.same hsame⟩
    · exact .inr ⟨hlost, hsame.stores_eq⟩

theorem home_of_frame_eq (hframe : final.frame = g.frame) (c key : GoString) :
    final.home c key = g.home c key := by
  simp only [home, hframe]

section Contents

variable {codec : Msgpack} {good : σ → Prop}
  (hlaw : LossyLedger impl codec good contents)
  (hgood : ∀ {addr s}, g.stores addr = some s → good s)
  (hdeleted : Deleted impl g c n key choice final)

include hlaw hgood hdeleted

theorem Deleted.store_cases {addr : GoString} {s' : σ}
    (hs' : final.stores addr = some s') :
    ∃ s, g.stores addr = some s ∧ good s' ∧
      (∀ other, contents s' other = none ∨
        contents s' other = contents s other) ∧
      (DeleteArrives g n key choice → addr = g.home c key →
        contents s' key = none) := by
  rcases hdeleted.stores_eq with ⟨_, _, haccess⟩ | ⟨hlost, hsame⟩
  · obtain ⟨s, hs, _, hcases⟩ := haccess.cases
    rcases hcases hs' with ⟨rfl, rfl⟩ | ⟨hne, hs'⟩
    · have hgone : contents (impl.call s (choice.clock, .delete key)).2 key =
          none := (hlaw.cell (hgood hs) rfl).elim id id
      refine ⟨s, hs, hlaw.good_call (hgood hs) _, fun other => ?_,
        fun _ _ => hgone⟩
      by_cases hother : key = other
      · exact .inl (hother ▸ hgone)
      · exact hlaw.other (hgood hs) fun hkey =>
          hother (Option.some.inj hkey)
    · exact ⟨s', hs', hgood hs', fun _ => .inr rfl,
        fun _ hhome => absurd hhome hne⟩
  · rw [hsame] at hs'
    exact ⟨s', hs', hgood hs', fun _ => .inr rfl,
      fun harrives => absurd harrives hlost⟩

theorem Deleted.absent {other : GoString} (habsent : Absent contents g c other) :
    Absent contents final c other := by
  intro s' hs'
  rw [home_of_frame_eq hdeleted.frame_eq] at hs'
  obtain ⟨s, hs, _, hcontents, _⟩ := hdeleted.store_cases hlaw hgood hs'
  exact (hcontents other).elim id fun hsame => hsame.trans (habsent s hs)

theorem Deleted.absent_of_arrives (harrives : DeleteArrives g n key choice) :
    Absent contents final c key := by
  intro s' hs'
  rw [home_of_frame_eq hdeleted.frame_eq] at hs'
  obtain ⟨_, _, _, _, hgone⟩ := hdeleted.store_cases hlaw hgood hs'
  exact hgone harrives rfl

/-- The tags of a key that has them can be found later if and only if the key
itself cannot. -/
theorem Deleted.stillRecorded_iff (hnode : g.nodes c = some n)
    (hwell : n.tags.WellFormed) :
    StillRecorded contents g final c ↔
      (∀ tag, key ∉ n.tags.getKeysByTag tag) ∨
        DeleteArrives g n key choice ∨ Absent contents g c key := by
  obtain ⟨n', hnode', htags⟩ := hdeleted.tags_eq
  constructor
  · intro hrecorded
    by_contra hnot
    push Not at hnot
    obtain ⟨⟨tag, htag⟩, hlost, habsent⟩ := hnot
    have hstores : final.stores = g.stores :=
      (hdeleted.stores_eq.resolve_left fun h => hlost h.1).2
    have hstored : ¬ Absent contents final c key := by
      intro hgone
      refine habsent fun s hs => hgone s ?_
      rwa [home_of_frame_eq hdeleted.frame_eq, hstores]
    have hmem := hrecorded n n' hnode hnode' key tag htag hstored
    rw [htags] at hmem
    exact TagIndex.notMem_getKeysByTag_remove_self (hwell.mem_iff key tag) hmem
  · intro hcond m m' hm hm' other tag htag hstored
    obtain rfl : n = m := Option.some.inj (hnode.symm.trans hm)
    obtain rfl : n' = m' := Option.some.inj (hnode'.symm.trans hm')
    rw [htags]
    by_cases hother : other = key
    · subst hother
      rcases hcond with huntagged | harrives | habsent
      · exact absurd htag (huntagged tag)
      · exact absurd (hdeleted.absent_of_arrives hlaw hgood harrives) hstored
      · exact absurd (hdeleted.absent hlaw hgood habsent) hstored
    · exact (n.tags.mem_getKeysByTag_remove_of_ne hother tag).mpr htag

end Contents

/-! ## The loop of InvalidateTag -/

/-- Every Delete of the loop arrives, or its key has no record at its owner.
A Delete of the empty key returns at once. -/
def DeletesArrive (contents : σ → Contents GoString Bytes) (g : Grid σ)
    (n : CacheNode σ) (c : GoString) : List GoString → (ℕ → Choice) → Prop
  | [], _ => True
  | key :: keys, choices =>
    if key = [] then DeletesArrive contents g n c keys choices
    else (DeleteArrives g n key (choices 0) ∨ Absent contents g c key) ∧
      DeletesArrive contents g n c keys (later choices)

theorem DeletesArrive.of_frame_eq {n₁ : CacheNode σ} {middle : Grid σ}
    (hframe : middle.frame = g.frame) (hn : n₁.frame = n.frame)
    (habsent : ∀ {other}, Absent contents g c other →
      Absent contents middle c other)
    {keys : List GoString} {choices : ℕ → Choice}
    (harrive : DeletesArrive contents g n c keys choices) :
    DeletesArrive contents middle n₁ c keys choices := by
  induction keys generalizing choices with
  | nil => trivial
  | cons key keys ih =>
    unfold DeletesArrive at harrive ⊢
    split
    · next hkey =>
        rw [if_pos hkey] at harrive
        exact ih harrive
    · next hkey =>
        rw [if_neg hkey] at harrive
        refine ⟨harrive.1.imp ?_ habsent, ih harrive.2⟩
        intro harrives
        rwa [DeleteArrives, hn, server_of_frame_eq hframe]

/-- What the loop has done: tags are lost for its own keys only, no record has
come back, and where every Delete arrives the records are gone. -/
structure DeletedAll (contents : σ → Contents GoString Bytes) (g : Grid σ)
    (c : GoString) (n : CacheNode σ) (keys : List GoString)
    (choices : ℕ → Choice) (final : Grid σ) : Prop where
  tagged : ∃ n', final.nodes c = some n' ∧
    ∀ other tag, other ∈ n.tags.getKeysByTag tag →
      other ∈ n'.tags.getKeysByTag tag ∨ other ∈ keys ∧ other ≠ []
  absent : ∀ {other}, Absent contents g c other →
    Absent contents final c other
  gone : DeletesArrive contents g n c keys choices →
    ∀ key ∈ keys, key ≠ [] → Absent contents final c key

theorem DeletedAll.cons_empty {keys : List GoString} {choices : ℕ → Choice}
    (hall : DeletedAll contents g c n keys choices final) :
    DeletedAll contents g c n ([] :: keys) choices final where
  tagged := by
    obtain ⟨n', hnode', htags⟩ := hall.tagged
    refine ⟨n', hnode', fun other tag htag => ?_⟩
    exact (htags other tag htag).imp id fun h =>
      ⟨List.mem_cons_of_mem [] h.1, h.2⟩
  absent := hall.absent
  gone := by
    intro harrive other hother hne
    rw [DeletesArrive, if_pos rfl] at harrive
    exact hall.gone harrive other (List.mem_of_ne_of_mem hne hother) hne

theorem DeletedAll.cons {codec : Msgpack} {good : σ → Prop}
    (hlaw : LossyLedger impl codec good contents)
    (hgood : ∀ {addr s}, g.stores addr = some s → good s)
    {middle : Grid σ} {n₁ : CacheNode σ} {keys : List GoString}
    {choices : ℕ → Choice} (hkey : key ≠ [])
    (hdeleted : Deleted impl g c n key (choices 0) middle)
    (hn : n₁.frame = n.frame) (htags₁ : n₁.tags = n.tags.remove key)
    (hall : DeletedAll contents middle c n₁ keys (later choices) final) :
    DeletedAll contents g c n (key :: keys) choices final where
  tagged := by
    obtain ⟨n', hnode', htags⟩ := hall.tagged
    refine ⟨n', hnode', fun other tag htag => ?_⟩
    by_cases hother : other = key
    · exact .inr ⟨hother ▸ List.mem_cons_self, hother ▸ hkey⟩
    · rw [← n.tags.mem_getKeysByTag_remove_of_ne hother, ← htags₁] at htag
      exact (htags other tag htag).imp id fun h =>
        ⟨List.mem_cons_of_mem key h.1, h.2⟩
  absent := fun habsent => hall.absent (hdeleted.absent hlaw hgood habsent)
  gone := by
    intro harrive other hother hne
    rw [DeletesArrive, if_neg hkey] at harrive
    rcases List.mem_cons.mp hother with rfl | hother
    · refine hall.absent ?_
      rcases harrive.1 with harrives | habsent
      · exact hdeleted.absent_of_arrives hlaw hgood harrives
      · exact hdeleted.absent hlaw hgood habsent
    · exact hall.gone (harrive.2.of_frame_eq hdeleted.frame_eq hn
        (hdeleted.absent hlaw hgood)) other hother hne

theorem alone_deleteAll_any {codec : Msgpack} {good : σ → Prop}
    (hlaw : LossyLedger impl codec good contents)
    (hgood : ∀ {addr s}, g.stores addr = some s → good s)
    (hnode : g.nodes c = some n) (hopen : n.closed = false)
    (hmode : n.config.mode = .partitioned) (keys : List GoString)
    (choices : ℕ → Choice) :
    ∃ rest final, DeletedAll contents g c n keys choices final ∧
      (deleteAll c keys).alone (machine impl) Op.timed choices g =
        some ((), rest, final) := by
  induction keys generalizing g n choices with
  | nil =>
    refine ⟨choices, g, ⟨⟨n, hnode, fun _ _ htag => .inl htag⟩, id, ?_⟩, rfl⟩
    intro _ key hkey
    exact absurd hkey List.not_mem_nil
  | cons key keys ih =>
    unfold deleteAll
    by_cases hkey : key = []
    · have halone : (delete c key).alone (machine impl) Op.timed choices g =
          some ((), choices, g) := by
        rw [delete, if_pos hkey]
        rfl
      rw [Prog.alone_bind_of_eq halone]
      obtain ⟨rest, final, hall, hrest⟩ := ih hgood hnode hopen hmode choices
      exact ⟨rest, final, hkey ▸ hall.cons_empty, hrest⟩
    · obtain ⟨middle, hdeleted, halone⟩ :=
        @alone_delete_any σ impl g c key n hnode hopen hmode hkey choices
      rw [Prog.alone_bind_of_eq halone]
      obtain ⟨n₁, hnode₁, htags₁⟩ := hdeleted.tags_eq
      have hn : n₁.frame = n.frame := by
        have hframe := congrFun hdeleted.frame_eq c
        rw [frame_of_node hnode₁, frame_of_node hnode] at hframe
        exact Option.some.inj hframe
      obtain ⟨rest, final, hall, hrest⟩ := ih
        (fun hs' => (hdeleted.store_cases hlaw hgood hs').choose_spec.2.1)
        hnode₁ ((congrArg Frame.closed hn).trans hopen)
        ((congrArg (fun f => f.config.mode) hn).trans hmode)
        (later choices)
      exact ⟨rest, final, hall.cons hlaw hgood hkey hdeleted hn htags₁,
        hrest⟩

theorem stillRecorded_refl (contents : σ → Contents GoString Bytes)
    (g : Grid σ) (c : GoString) : StillRecorded contents g g c := by
  intro n n' hn hn' key tag htag _
  rwa [← Option.some.inj (hn.symm.trans hn')]

end Deletes

/-! ## Retrying -/

/-- After a Delete, every key that is still stored on its owner is still
recorded under its tags if and only if the deleted key had none, or the
deletion arrives at its owner, or there is nothing to delete.  After an
InvalidateTag this holds whenever every one of its Deletes arrives or has
nothing to delete. -/
theorem invalidation_retryable_iff {σ : Type} {impl : StoreImpl σ}
    {codec : Msgpack} {good : σ → Prop}
    {contents : σ → Contents GoString Bytes}
    (hlaw : LossyLedger impl codec good contents) {g : Grid σ}
    (hgood : ∀ {addr s}, g.stores addr = some s → good s) {c : GoString}
    {n : CacheNode σ} (hnode : g.nodes c = some n)
    (hmode : n.config.mode = .partitioned) (hwell : n.tags.WellFormed)
    (choices : ℕ → Choice) :
    (∀ key, ∃ rest final,
      (delete c key).alone (machine impl) Op.timed choices g =
        some ((), rest, final) ∧
      (StillRecorded contents g final c ↔
        key = [] ∨ n.closed = true ∨
          (∀ tag, key ∉ n.tags.getKeysByTag tag) ∨
          DeleteArrives g n key (choices 0) ∨ Absent contents g c key)) ∧
    (∀ tag order, ∃ rest final,
      (invalidateTag c tag order).alone (machine impl) Op.timed choices g =
        some ((), rest, final) ∧
      (n.closed = true ∨ DeletesArrive contents g n c
          (order.visit (n.tags.getKeysByTag tag)) choices →
        StillRecorded contents g final c)) := by
  refine ⟨fun key => ?_, fun tag order => ?_⟩
  · by_cases hclosed : n.closed = true
    · refine ⟨_, _, alone_delete_closed hnode hclosed key, ?_⟩
      exact iff_of_true (stillRecorded_refl contents g c)
        (.inr (.inl hclosed))
    by_cases hkey : key = []
    · refine ⟨choices, g, by rw [delete, if_pos hkey]; rfl, ?_⟩
      exact iff_of_true (stillRecorded_refl contents g c) (.inl hkey)
    obtain ⟨final, hdeleted, halone⟩ := @alone_delete_any σ impl g c key n
      hnode (Bool.not_eq_true _ ▸ hclosed) hmode hkey choices
    refine ⟨_, final, halone, ?_⟩
    rw [hdeleted.stillRecorded_iff hlaw hgood hnode hwell]
    simp only [hkey, hclosed, Bool.false_eq_true, false_or]
  · have hkeys : (machine impl).exec g (.tagsGetKeys c tag) (choices 0) =
        some (n.tags.getKeysByTag tag, g) := onNodeRead_eq hnode _
    unfold invalidateTag
    rw [Prog.alone_perform_bind hkeys]
    simp only [Op.timed, Bool.false_eq_true, if_false]
    by_cases hclosed : n.closed = true
    · exact ⟨_, _, alone_deleteAll_closed hnode hclosed _,
        fun _ => stillRecorded_refl contents g c⟩
    obtain ⟨rest, final, hall, halone⟩ := alone_deleteAll_any hlaw hgood
      hnode (Bool.not_eq_true _ ▸ hclosed) hmode
      (order.visit (n.tags.getKeysByTag tag)) choices
    refine ⟨rest, final, halone, ?_⟩
    intro hcond m m' hm hm' other t ht hstored
    obtain rfl : n = m := Option.some.inj (hnode.symm.trans hm)
    obtain ⟨n', hnode', htags⟩ := hall.tagged
    obtain rfl : n' = m' := Option.some.inj (hnode'.symm.trans hm')
    rcases htags other t ht with hkept | ⟨hvisited, hne⟩
    · exact hkept
    · exact absurd (hall.gone (hcond.resolve_left hclosed) other hvisited hne)
        hstored

def bothTagged : Grid MemoryStore where
  nodes := fun c => ((twoCaches ⟨.partitioned, 0⟩
      ((MemoryStore.impl .int64).call emptyStore
        (.instant 0, .set (ascii "k") [1] 0)).2).nodes c).map fun n =>
    { n with tags := TagIndex.new.add (ascii "k") [ascii "t"] }
  messages := []

theorem bothTagged_nodes {c : GoString} {n : CacheNode MemoryStore}
    (hnode : bothTagged.nodes c = some n) :
    n.config.mode = .partitioned ∧ n.store.Sound ∧ n.tags.WellFormed := by
  simp only [bothTagged, Option.map_eq_some_iff] at hnode
  obtain ⟨m, hm, rfl⟩ := hnode
  obtain ⟨hconfig, hstore⟩ := twoCaches_nodes hm
  refine ⟨congrArg CacheConfig.mode hconfig, ?_,
    TagIndex.wellFormed_new.add (ascii "k") (List.cons_ne_nil _ _)⟩
  rw [hstore]
  exact (MemoryStore.lossyLedger .int64).good_call
    (MemoryStore.sound_new 1 Nat.one_pos 0 true true) _

theorem invalidation_retryable_connected :
    ∃ rest final,
      (delete (ascii "a:1") (ascii "k")).alone
          (machine (MemoryStore.impl .int64)) Op.timed
          (Timeline.instant 0).choice bothTagged =
        some ((), rest, final) ∧
      StillRecorded MemoryStore.contents bothTagged final (ascii "a:1") := by
  have hstart : (bothTagged.nodes (ascii "a:1")).any (fun n =>
      (bothTagged.server (n.frame.ownerAddr (ascii "k"))
        ((Timeline.instant 0).choice 0)).isSome) = true := by
    decide +kernel
  obtain ⟨n, hnode, hserved⟩ := (Option.any_eq_true _ _).mp hstart
  have hgood : ∀ {addr s}, bothTagged.stores addr = some s → s.Sound := by
    intro addr s hs
    obtain ⟨m, hm, rfl⟩ := Option.map_eq_some_iff.mp hs
    exact (bothTagged_nodes hm).2.1
  obtain ⟨hmode, _, hwell⟩ := bothTagged_nodes hnode
  obtain ⟨rest, final, halone, hiff⟩ := (invalidation_retryable_iff
    (MemoryStore.lossyLedger .int64) hgood hnode hmode hwell
    (Timeline.instant 0).choice).1 (ascii "k")
  exact ⟨rest, final, halone,
    hiff.mpr (.inr (.inr (.inr (.inl (.inr hserved)))))⟩

/-- The key `k` of the cache `b:1` has a tag at the cache `a:1`. -/
def taggedCaches : Option (Grid MemoryStore) :=
  ((setWithTags Serializer.basic (ascii "a:1") (ascii "k") (.bytes [1]) 0
    [ascii "t"]).alone (machine (MemoryStore.impl .int64)) Op.timed
    (Timeline.instant 0).choice
    (twoCaches ⟨.partitioned, 0⟩ emptyStore)).map fun r => r.2.2

/-- Whether `k` is still stored on its owner, and the keys under the tag, after
a Delete of `k` at `a:1`. -/
def afterDelete (choices : ℕ → Choice) :
    Option (Option StoreResult × Option (Finset GoString)) :=
  taggedCaches.bind fun g =>
    ((delete (ascii "a:1") (ascii "k")).alone
      (machine (MemoryStore.impl .int64)) Op.timed choices g).map fun r =>
        ((r.2.2.stores (ascii "b:1")).map fun store =>
            ((MemoryStore.impl .int64).call store
              (.instant 0, .get (ascii "k"))).1.1,
          (r.2.2.nodes (ascii "a:1")).map fun n =>
            n.tags.getKeysByTag (ascii "t"))

/-- The RemoteDelete is not sent: the owner keeps the key, and the tag index
has forgotten it. -/
theorem failed_delete_forgets_tag :
    taggedCaches.map (fun g => (g.nodes (ascii "a:1")).map fun n =>
        n.tags.getKeysByTag (ascii "t")) = some (some {ascii "k"}) ∧
      afterDelete disconnected = some (some (.value (some [1])), some ∅) := by
  refine ⟨?_, ?_⟩ <;> decide +kernel

end Grid

end CacheGrid
