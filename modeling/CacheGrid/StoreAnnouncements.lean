import CacheGrid.PebbleCalls

/-!
# Which losses a store announces

A cache keeps its tag index in step with its store through the callbacks that
the store hands out.  Both stores announce what they evict and what they
sweep.  A record that Delete removes is not announced, nor is one that Get,
Exists or TTL find expired and remove on the way.
-/

namespace CacheGrid

open InterleavedPrograms TimedMap

/-- A record that is in the store before a call and not after it is announced,
or deleted, or it was read when it had lapsed. -/
structure AnnouncesLosses {σ : Type} (impl : StoreImpl σ) (good : σ → Prop)
    (contents : σ → Contents GoString Bytes)
    (lapsed : Record Bytes → Readings → Prop) : Prop where
  good_call : ∀ {s}, good s → ∀ call, good (impl.call s call).2
  announced : ∀ {s clock op key r}, good s → contents s key = some r →
    contents (impl.call s (clock, op)).2 key = none →
    key ∈ (impl.call s (clock, op)).1.2.map Callback.key ∨
      op = .delete key ∨
      op.key? = some key ∧ op.reads = true ∧ lapsed r clock

/-! ## The memory store -/

variable {clock : Readings} {r : Record Bytes} {codec : Msgpack} {op : StoreOp}

theorem cellStep_drops (hmarshal : ∀ n, ∃ value, codec.marshal n = .ok value)
    {key : GoString} (hkey : op.key? = some key)
    (hdrops : (cellStep codec clock op (some r)).2 = none) :
    op = .delete key ∨ op.reads = true ∧ r.dead clock.finish = true := by
  by_cases hread : op.reads = true
  · right
    rcases cellStep_read_drops codec clock hread (some r) with heq | hdead
    · rw [heq] at hdrops
      contradiction
    · exact ⟨hread, Record.dead_mono (clock.le_finish 0) (hdead.2 r rfl)⟩
  · have hcount : ∀ now current delta ttl,
        (cellCount codec now current delta ttl).2 ≠ none := by
      intro now current delta ttl
      obtain ⟨value, hvalue⟩ := hmarshal (current + delta)
      simp [cellCount, hvalue]
    cases op with
    | delete k =>
      obtain rfl := Option.some.inj hkey
      exact Or.inl rfl
    | set k value ttl => simp [cellStep] at hdrops
    | incr k delta ttl =>
      simp only [cellStep] at hdrops
      split at hdrops
      · exact absurd hdrops (hcount _ _ _ _)
      · split at hdrops
        · contradiction
        · exact absurd hdrops (hcount _ _ _ _)
    | deleteExpired => simp [StoreOp.key?] at hkey
    | _ => exact absurd rfl hread

namespace Shard

theorem Invariant.deleteExpired_announces {s : Shard} (hinv : s.Invariant)
    (honExpire : s.onExpire = true) (clock : Readings) {key : GoString}
    (hstored : s.contents key = some r)
    (hgone : (s.deleteExpired clock).2.2.contents key = none) :
    key ∈ (s.deleteExpired clock).2.1.map Callback.key := by
  have hsweeps := hinv.deleteExpired_sweeps clock
  obtain ⟨e, hlookup, _⟩ := Option.map_eq_some_iff.mp hstored
  have hafter : (s.deleteExpired clock).2.2.items.lookup key = none :=
    Option.map_eq_none_iff.mp hgone
  have hexpired : e.isExpired (clock.now 0) = true := by
    by_contra hlive
    have hkept := hsweeps.lookup key
    rw [hafter, show s.items.entries.dlookup key = some e from hlookup,
      hlookup] at hkept
    simp [hlive] at hkept
  rw [hsweeps.callbacks_eq, if_pos honExpire, List.map_map]
  refine List.mem_map.mpr ⟨⟨key, e⟩, List.mem_filter.mpr ⟨?_, hexpired⟩, rfl⟩
  exact AList.mem_lookup_iff.mp hlookup

end Shard

namespace MemoryStore

/-- Every shard has both callbacks. -/
structure Announcing (m : MemoryStore) : Prop where
  sound : m.Sound
  callbacks : ∀ s ∈ m.shards, s.onEvict = true ∧ s.onExpire = true

theorem announcing_new (numShards : ℕ) (hpos : 0 < numShards) (limit : ℤ) :
    (new numShards hpos limit true true).Announcing where
  sound := sound_new numShards hpos limit true true
  callbacks := by
    intro s hs
    obtain rfl : s = Shard.new limit true true := List.eq_of_mem_replicate hs
    exact ⟨rfl, rfl⟩

theorem callbacks_of_settings {s after : Shard}
    (hsettings : after.settings = s.settings)
    (hcallbacks : s.onEvict = true ∧ s.onExpire = true) :
    after.onEvict = true ∧ after.onExpire = true := by
  simp only [Shard.settings, Prod.mk.injEq] at hsettings
  rw [hsettings.2.1, hsettings.2.2]
  exact hcallbacks

theorem Announcing.impl_call {m : MemoryStore} (hannouncing : m.Announcing)
    (codec : Msgpack) (call : Readings × StoreOp) :
    ((impl codec).call m call).2.Announcing where
  sound := hannouncing.sound.impl_call codec call
  callbacks := by
    refine step_forall_shards ?_ hannouncing.callbacks call
    intro s call hcallbacks
    exact callbacks_of_settings (Shard.step_settings codec s call) hcallbacks

theorem mem_sweepShards {first i : ℕ} {shards : List Shard} {s : Shard}
    (hget : shards[i]? = some s) {callback : Callback}
    (hmem : callback ∈ (s.deleteExpired (clock.skip (first + i))).2.1) :
    callback ∈ (sweepShards clock first shards).2.1 := by
  induction shards generalizing first i with
  | nil => simp at hget
  | cons head rest ih =>
    simp only [sweepShards, List.mem_append]
    cases i with
    | zero =>
      obtain rfl : head = s := by simpa using hget
      exact Or.inl hmem
    | succ i =>
      refine Or.inr (ih (by simpa using hget) ?_)
      rwa [show first + 1 + i = first + (i + 1) by omega]

theorem deleteExpired_announces {m : MemoryStore} (hannouncing : m.Announcing)
    (clock : Readings) {key : GoString} (hstored : m.contents key = some r)
    (hgone : (m.deleteExpired clock).2.2.contents key = none) :
    key ∈ (m.deleteExpired clock).2.1.map Callback.key := by
  have hget := deleteExpired_getElem? m clock (m.shardIndex key)
  rw [m.getElem?_shardIndex key, Option.map_some] at hget
  have hshard : (m.deleteExpired clock).2.2.getShard key =
      ((m.getShard key).deleteExpired (clock.skip (m.shardIndex key))).2.2 :=
    getShard_eq_of_getElem? hget
  unfold contents at hgone hstored
  rw [hshard] at hgone
  have hmember := m.getShard_mem key
  obtain ⟨callback, hmem, hkey⟩ := List.mem_map.mp
    ((hannouncing.sound _ hmember).deleteExpired_announces
      (hannouncing.callbacks _ hmember).2 _ hstored hgone)
  refine List.mem_map.mpr ⟨callback, ?_, hkey⟩
  refine mem_sweepShards (m.getElem?_shardIndex key) ?_
  rwa [Nat.zero_add]

theorem announcesLosses (hmarshal : ∀ n, ∃ value, codec.marshal n = .ok value) :
    AnnouncesLosses (impl codec) Announcing contents
      fun r clock => r.dead clock.finish = true where
  good_call := fun hannouncing call => hannouncing.impl_call codec call
  announced := by
    intro m clock op key r hannouncing hstored hgone
    cases hkey : op.key? with
    | some k =>
      have hmember := m.getShard_mem k
      rw [impl_call_of_key codec m clock hkey] at hgone ⊢
      have hannounces := contents_setShard_announces
        ((hannouncing.sound _ hmember).step_announcesCell codec clock
          hkey).announces key
      rcases hannounces with hsame | ⟨_, hcallback⟩
      · right
        have hnone := hsame.symm.trans hgone
        by_cases hother : key = k
        · subst hother
          rw [Function.update_self, ← contents, hstored] at hnone
          exact (cellStep_drops hmarshal hkey hnone).imp_right
            fun hread => ⟨rfl, hread⟩
        · rw [Function.update_of_ne hother, hstored] at hnone
          contradiction
      · exact Or.inl (hcallback (hannouncing.callbacks _ hmember).1)
    | none =>
      cases op with
      | deleteExpired =>
        exact Or.inl (deleteExpired_announces hannouncing clock hstored
          hgone)
      | _ => simp [StoreOp.key?] at hkey

end MemoryStore

/-! ## The disk store -/

namespace PebbleStore

/-- The reading of the call is past the deadline, by the test of Get and
Exists or by the one of TTL. -/
def Lapsed (r : Record Bytes) (clock : Readings) : Prop :=
  ∃ deadline ∈ r.deadline,
    deadline < (unixNano (clock.now 0)).toInt ∨ deadline ≤ clock.now 0

theorem lapsed_of_lapsedFor {raw : Bytes}
    (hlapsed : lapsedFor op raw (clock.now 0)) :
    Lapsed (recordOf raw) clock := by
  have hdeadline : (decode raw).2 ≠ 0 →
      (decode raw).2.toInt ∈ (recordOf raw).deadline := by
    intro hne
    simp [recordOf, hne]
  cases op with
  | ttl key => exact ⟨_, hdeadline hlapsed.1, Or.inr hlapsed.2⟩
  | _ =>
    obtain ⟨hne, hpast⟩ := of_decide_eq_true hlapsed
    exact ⟨_, hdeadline hne, Or.inl (Int64.lt_iff_toInt_lt.mp hpast)⟩

section Losses

variable {db : AList fun _ : GoString => Bytes} {key other : GoString}
  {raw : Bytes}

theorem key_of_erased (hraw : db.lookup key = some raw)
    (hgone : (db.erase other).lookup key = none) : key = other := by
  by_contra hne
  rw [AList.lookup_erase_ne hne, hraw] at hgone
  contradiction

theorem insert_keeps {written : Bytes} (hraw : db.lookup key = some raw) :
    (db.insert other written).lookup key ≠ none := by
  by_cases hkey : key = other
  · subst hkey
    rw [AList.lookup_insert]
    exact Option.some_ne_none _
  · rw [AList.lookup_insert_ne hkey, hraw]
    exact Option.some_ne_none _

/-- Of the effects, only the sweep removes a record that the call does not
name, and it announces it. -/
theorem Effect.announces {store after : PebbleStore}
    (heffect : Effect codec clock.now store op after)
    (honExpire : store.onExpire = true) (hraw : store.db.lookup key = some raw)
    (hgone : after.db.lookup key = none) :
    key ∈ after.fired.map Callback.key ∨ op = .delete key ∨
      op.key? = some key ∧ op.reads = true ∧
        Lapsed (recordOf raw) clock := by
  cases heffect with
  | kept hkey hafter =>
    rw [hafter.db_eq, hraw] at hgone
    contradiction
  | dropped hkey hread hfound hlapsed hafter =>
    rw [hafter.db_eq] at hgone
    obtain rfl := key_of_erased hraw hgone
    obtain rfl := Option.some.inj (hfound.symm.trans hraw)
    exact Or.inr (Or.inr ⟨hkey, hread, lapsed_of_lapsedFor hlapsed⟩)
  | deleted hfound hafter =>
    rw [hafter.db_eq] at hgone
    obtain rfl := key_of_erased hraw hgone
    exact Or.inr (Or.inl rfl)
  | written hkey hread hafter =>
    rw [hafter.db_eq] at hgone
    exact absurd hgone (insert_keeps hraw)
  | miscounted hfound hexpired hcount hfired hdb =>
    rcases hdb with hdb | ⟨_, hdb⟩
    · rw [hdb, hraw] at hgone
      contradiction
    · rw [hdb] at hgone
      exact absurd hgone (insert_keeps hraw)
  | swept hafter =>
    rw [hafter.db_eq, commit_lookup] at hgone
    have hexpired : key ∈ (expiredEntries (unixNano (clock.now 0))
        store.snapshot).map Prod.fst := by
      by_contra hlive
      rw [if_neg hlive, hraw] at hgone
      contradiction
    obtain ⟨entry, hentry, rfl⟩ := List.mem_map.mp hexpired
    refine Or.inl (List.mem_map.mpr ⟨.expire entry.1 entry.2, ?_, rfl⟩)
    rw [hafter.fired_eq, if_pos honExpire]
    exact List.mem_append_right _ (List.mem_map.mpr ⟨entry, hentry, rfl⟩)

end Losses

theorem announcesLosses (codec : Msgpack) :
    AnnouncesLosses (impl codec) (fun store => store.onExpire = true) contents
      Lapsed where
  good_call := by
    intro store honExpire call
    exact (impl_call_onExpire codec store call).trans honExpire
  announced := by
    intro store clock op key r honExpire hstored hgone
    obtain ⟨raw, hraw, rfl⟩ := Option.map_eq_some_iff.mp hstored
    rcases impl_call_effect codec store clock op with ⟨hsame, _⟩ |
      ⟨heffect, hfired⟩
    · rw [hsame, hstored] at hgone
      contradiction
    · rw [hfired]
      exact heffect.announces honExpire hraw
        (Option.map_eq_none_iff.mp hgone)

end PebbleStore

end CacheGrid
