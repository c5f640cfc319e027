import CacheGrid.ConnectedCaches
import CacheGrid.CounterReads

/-!
# Counters of a cluster under concurrent updates

Any number of caches of a partitioned cluster count under one key at the same
time, while others read the counter or work on other keys.  The order in which
the map explains the calls makes the counter exact: no update is lost, none is
made twice, and every Incr and Decr returns the sum up to its place in the
order.  The sums are those of `int64`, which wrap.
-/

namespace CacheGrid

open InterleavedPrograms LinearizationPoints SequentialRuns TimedMap

/-! ## A counter in a cell -/

/-- The cell counts `n`, and it does not expire. -/
inductive CellCounts (codec : Msgpack) : Cell → Int64 → Prop
  | absent : CellCounts codec none 0
  | stored {data : Bytes} {n : Int64} (hdata : codec.unmarshal data = .ok n) :
      CellCounts codec (some ⟨data, none⟩) n

section Cells

variable {codec : Msgpack} {cell : Cell} {n : Int64} {clock : Readings}

theorem CellCounts.read (hcounts : CellCounts codec cell n) {op : StoreOp}
    (hread : op.reads = true) : (cellStep codec clock op cell).2 = cell := by
  rcases cellStep_read_drops codec clock hread cell with hsame | ⟨hnone, hdead⟩
  · exact hsame
  · cases hcounts with
    | absent => exact hnone
    | stored hdata => exact absurd (hdead _ rfl) Bool.false_ne_true

theorem CellCounts.live (hcounts : CellCounts codec cell n) (now : ℤ) :
    CellCounts codec (cell.filter fun r => !r.dead now) n := by
  cases hcounts with
  | absent => exact .absent
  | stored hdata => exact .stored hdata

theorem counts_cellCount (hround : codec.RoundTrips) (now : ℤ)
    (delta : Int64) {ttl : Duration} (hforever : ttl.toInt ≤ 0) :
    (cellCount codec now n delta ttl).1 = .counter (.ok (n + delta)) ∧
      CellCounts codec (cellCount codec now n delta ttl).2 (n + delta) := by
  obtain ⟨data, hmarshal, hunmarshal⟩ := hround (n + delta)
  have hdeadline : deadlineOf now ttl = none := if_neg (by omega)
  simp only [cellCount, hmarshal, hdeadline, true_and]
  exact .stored hunmarshal

theorem CellCounts.incr (hcounts : CellCounts codec cell n)
    (hround : codec.RoundTrips) (key : GoString) (delta : Int64)
    {ttl : Duration} (hforever : ttl.toInt ≤ 0) :
    (cellStep codec clock (.incr key delta ttl) cell).1 =
        .counter (.ok (n + delta)) ∧
      CellCounts codec (cellStep codec clock (.incr key delta ttl) cell).2
        (n + delta) := by
  cases hcounts with
  | absent => exact counts_cellCount hround _ delta hforever
  | @stored data _ hdata =>
    have hstep : cellStep codec clock (.incr key delta ttl)
        (some ⟨data, none⟩) =
        cellCount codec (clock.now 2) n delta 0 := by
      simp [cellStep, Record.dead, hdata, cellPreservedTTL]
    rw [hstep]
    exact counts_cellCount hround _ delta (by decide)

end Cells

/-! ## The calls of an order -/

/-- The call is on other keys, or reads this one. -/
def CacheCall.Spares {V D : Type} (key : GoString) : CacheCall V D → Prop
  | .set other _ _ => other ≠ key
  | .delete other => other ≠ key
  | .incr other _ => other ≠ key
  | .decr other _ => other ≠ key
  | _ => True

def total {ι : Type} (n : Int64) (counted : List (ι × Int64)) : Int64 :=
  counted.foldl (fun sum entry => sum + entry.2) n

@[simp] theorem total_append {ι : Type} (n : Int64)
    (counted : List (ι × Int64)) (i : ι) (delta : Int64) :
    total n (counted ++ [(i, delta)]) = total n counted + delta := by
  simp [total]

section Calls

variable {V D : Type} {z : Serializer V D} {config : CacheConfig}
  {full : Contents GoString Bytes} {key : GoString} {n : Int64}

theorem counts_mapAccess (hcounts : CellCounts z.toMsgpack (full key) n)
    {clock : Readings} {op : StoreOp} {other : GoString}
    (hop : other ≠ key ∨ op.reads = true) :
    CellCounts z.toMsgpack
      ((mapAccess z.toMsgpack full clock op other).2 key) n := by
  simp only [mapAccess]
  by_cases hkey : other = key
  · subst hkey
    rw [Function.update_self, hcounts.read (hop.resolve_left (by simp))]
    exact hcounts
  · rw [Function.update_of_ne (Ne.symm hkey)]
    exact hcounts

theorem counts_mapMGet (keys : List GoString)
    (results : List (GoString × Bytes)) (choices : ℕ → Grid.Choice)
    (hcounts : CellCounts z.toMsgpack (full key) n) :
    CellCounts z.toMsgpack
      ((mapMGet z.toMsgpack results keys choices full).2 key) n := by
  induction keys generalizing results choices full with
  | nil => exact hcounts
  | cons other keys ih =>
    rw [mapMGet]
    split
    · exact ih _ _ hcounts
    · have hnext : CellCounts z.toMsgpack ((mapAccess z.toMsgpack full
          (choices 0).clock (.get other) other).2 key) n :=
        counts_mapAccess hcounts (Or.inr rfl)
      simp only
      split
      · exact ih _ _ hnext
      · exact ih _ _ hnext

theorem counts_of_spares {call : CacheCall V D} (hspares : call.Spares key)
    (hcounts : CellCounts z.toMsgpack (full key) n) (timeline : Grid.Timeline) :
    CellCounts z.toMsgpack ((mapCall z config full (call, timeline)).2 key) n := by
  have hunless : ∀ {refused : Prop} [Decidable refused]
      {reply other : CacheReply V} {after : Contents GoString Bytes},
      CellCounts z.toMsgpack (after key) n → CellCounts z.toMsgpack
        ((if refused then (reply, full) else (other, after)).2 key) n := by
    intro refused _ reply other after hafter
    split
    · exact hcounts
    · exact hafter
  cases call with
  | set other value lifetime =>
    rw [mapCall]
    split
    · exact hcounts
    · split
      · exact hcounts
      · exact counts_mapAccess hcounts (Or.inl hspares)
  | get other dest =>
    exact hunless (counts_mapAccess hcounts (Or.inr rfl))
  | delete other =>
    exact hunless (counts_mapAccess hcounts (Or.inl hspares))
  | «exists» other =>
    exact hunless (counts_mapAccess hcounts (Or.inr rfl))
  | ttl other => exact hunless (counts_mapAccess hcounts (Or.inr rfl))
  | mget keys => exact counts_mapMGet keys [] _ hcounts
  | incr other delta =>
    exact hunless (counts_mapAccess hcounts (Or.inl hspares))
  | decr other delta =>
    exact hunless (counts_mapAccess hcounts (Or.inl hspares))

theorem addend?_cases {call : CacheCall V D} {delta : Int64}
    (hcall : call.addend? = some (key, delta)) :
    call = .incr key delta ∨
      ∃ subtracted, call = .decr key subtracted ∧ delta = -subtracted := by
  cases call with
  | incr other added =>
    rw [CacheCall.addend?, Option.some.injEq, Prod.mk.injEq] at hcall
    exact Or.inl (by rw [hcall.1, hcall.2])
  | decr other subtracted =>
    rw [CacheCall.addend?, Option.some.injEq, Prod.mk.injEq] at hcall
    exact Or.inr ⟨subtracted, by rw [hcall.1], hcall.2.symm⟩
  | _ => contradiction

theorem mapCall_of_addend {call : CacheCall V D} {delta : Int64}
    (hcall : call.addend? = some (key, delta)) (timeline : Grid.Timeline) :
    mapCall z config full (call, timeline) =
      mapIncr z.toMsgpack config full (timeline.choice 0).clock key delta := by
  rcases addend?_cases hcall with rfl | ⟨subtracted, rfl, rfl⟩ <;> rfl

theorem counts_of_addend {call : CacheCall V D} {delta : Int64}
    (hcall : call.addend? = some (key, delta)) (hkey : key ≠ [])
    (hround : z.toMsgpack.RoundTrips) (hforever : config.defaultTTL.toInt ≤ 0)
    (hcounts : CellCounts z.toMsgpack (full key) n) (timeline : Grid.Timeline) :
    (mapCall z config full (call, timeline)).1 = .counter (.ok (n + delta)) ∧
      CellCounts z.toMsgpack ((mapCall z config full (call, timeline)).2 key)
        (n + delta) := by
  obtain ⟨hreply, hafter⟩ := @CellCounts.incr _ _ _ (timeline.choice 0).clock
    hcounts hround key delta _ hforever
  rw [mapCall_of_addend hcall, mapIncr, if_neg hkey]
  simp only [mapAccess, hreply, Function.update_self]
  exact ⟨rfl, hafter⟩

variable {ι : Type}

theorem not_spares_of_addend {call : CacheCall V D} {delta : Int64}
    (hcall : call.addend? = some (key, delta)) : ¬ call.Spares key := by
  rcases addend?_cases hcall with rfl | ⟨subtracted, rfl, rfl⟩
  · exact fun hspares => hspares rfl
  · exact fun hspares => hspares rfl

def countedIn (key : GoString)
    (order : List (ι × CacheCall V D × Grid.Timeline)) : List (ι × Int64) :=
  order.filterMap fun entry => entry.2.1.addend?.bind fun addend =>
    if addend.1 = key then some (entry.1, addend.2) else none

theorem countedIn_append
    (order : List (ι × CacheCall V D × Grid.Timeline)) (i : ι)
    {call : CacheCall V D} (timeline : Grid.Timeline) {delta : Int64}
    (hcall : call.addend? = some (key, delta)) :
    countedIn key (order ++ [(i, call, timeline)]) =
      countedIn key order ++ [(i, delta)] := by
  simp [countedIn, hcall]

theorem countedIn_append_of_spares
    (order : List (ι × CacheCall V D × Grid.Timeline)) (i : ι)
    {call : CacheCall V D} (timeline : Grid.Timeline)
    (hspares : call.Spares key) :
    countedIn key (order ++ [(i, call, timeline)]) =
      countedIn key order := by
  have hnone : (call.addend?.bind fun addend =>
      if addend.1 = key then some (i, addend.2) else none) = none := by
    cases call with
    | incr other delta => exact if_neg hspares
    | decr other delta => exact if_neg hspares
    | _ => rfl
  simp [countedIn, hnone]

/-- The counter, and the replies of those who count, along an order. -/
theorem counts_along (hkey : key ≠ []) (hround : z.toMsgpack.RoundTrips)
    (hforever : config.defaultTTL.toInt ≤ 0)
    (hcounts : CellCounts z.toMsgpack (full key) n)
    {order : List (ι × CacheCall V D × Grid.Timeline)}
    (hcalls : ∀ entry ∈ order,
      (∃ delta, entry.2.1.addend? = some (key, delta)) ∨
        entry.2.1.Spares key) :
    CellCounts z.toMsgpack (objectAfter (mapCall z config) full order key)
        (total n (countedIn key order)) ∧
      ∀ i call timeline told delta,
        ((i, call, timeline), told) ∈
            answersIn (mapCall z config) full order →
        call.addend? = some (key, delta) →
        ∃ before after, countedIn key order = before ++ (i, delta) :: after ∧
          told = .counter (.ok (total n before + delta)) := by
  induction order using List.reverseRecOn with
  | nil => exact ⟨hcounts, fun _ _ _ _ _ hmem => absurd hmem List.not_mem_nil⟩
  | append_singleton order last ih =>
    obtain ⟨hstate, htold⟩ := ih fun entry hentry =>
      hcalls entry (List.mem_append_left _ hentry)
    obtain ⟨j, other, moment⟩ := last
    rw [objectAfter_append, answersIn_append]
    rcases hcalls (j, other, moment) (by simp) with ⟨added, hadded⟩ | hspares
    · obtain ⟨hreply, hafter⟩ := counts_of_addend hadded hkey hround
        hforever hstate moment
      rw [countedIn_append order j moment hadded, total_append]
      refine ⟨hafter, fun i call timeline told delta hmem hcall => ?_⟩
      rcases List.mem_append.mp hmem with hold | hlast
      · obtain ⟨before, after, hsplit, heq⟩ :=
          htold i call timeline told delta hold hcall
        exact ⟨before, after ++ [(j, added)], by simp [hsplit], heq⟩
      · obtain ⟨⟨rfl, rfl, rfl⟩, rfl⟩ := by simpa using hlast
        rw [hadded, Option.some.injEq, Prod.mk.injEq] at hcall
        exact ⟨countedIn key order, [], by rw [hcall.2], by
          rw [← hcall.2]
          exact hreply⟩
    · rw [countedIn_append_of_spares order j moment hspares]
      refine ⟨counts_of_spares hspares hstate moment,
        fun i call timeline told delta hmem hcall => ?_⟩
      rcases List.mem_append.mp hmem with hold | hlast
      · exact htold i call timeline told delta hold hcall
      · obtain ⟨⟨rfl, rfl, rfl⟩, _⟩ := by simpa using hlast
        exact absurd hspares (not_spares_of_addend hcall)

theorem countedIn_sublist
    (order : List (ι × CacheCall V D × Grid.Timeline)) :
    ((countedIn key order).map Prod.fst).Sublist (order.map Prod.fst) := by
  unfold countedIn
  rw [List.map_filterMap]
  induction order with
  | nil => exact List.Sublist.refl _
  | cons entry order ih =>
    rw [List.filterMap_cons, List.map_cons]
    split
    · exact ih.cons _
    · next i hi =>
        obtain ⟨counted, hcounted, rfl⟩ := Option.map_eq_some_iff.mp hi
        obtain ⟨addend, _, hadded⟩ := Option.bind_eq_some_iff.mp hcounted
        rw [Option.ite_none_right_eq_some, Option.some.injEq] at hadded
        rw [← hadded.2]
        exact ih.cons_cons _

theorem mem_countedIn
    {order : List (ι × CacheCall V D × Grid.Timeline)} {i : ι}
    {delta : Int64} (hmem : (i, delta) ∈ countedIn key order) :
    ∃ call timeline, (i, call, timeline) ∈ order ∧
      call.addend? = some (key, delta) := by
  obtain ⟨⟨j, call, timeline⟩, hentry, hcounted⟩ :=
    List.mem_filterMap.mp hmem
  obtain ⟨⟨other, added⟩, hcall, hadded⟩ :=
    Option.bind_eq_some_iff.mp hcounted
  rw [Option.ite_none_right_eq_some, Option.some.injEq,
    Prod.mk.injEq] at hadded
  obtain ⟨rfl, rfl, rfl⟩ := hadded
  exact ⟨call, timeline, hentry, hcall⟩

end Calls

namespace Grid

variable {σ V D : Type} {z : Serializer V D} {impl : StoreImpl σ}
  {config : CacheConfig} {good : σ → Prop}
  {contents : σ → Contents GoString Bytes} {owner : GoString → GoString}
  {start : Grid σ} {full : Contents GoString Bytes} {key : GoString}
  {n : Int64} {call : CacheCall V D} {delta : Int64}

/-- A call that counts does not return before it has changed the map. -/
theorem not_unasked_of_addend (hkey : key ≠ [])
    (hround : z.toMsgpack.RoundTrips)
    (hcall : call.addend? = some (key, delta)) (reply : CacheReply V) :
    ¬ Unasked z config call reply := by
  intro hunasked
  have hsame := congrArg Prod.snd
    (hunasked (fun _ => none) (.single ⟨.instant 0, .answered, fun _ => 0⟩))
  rw [mapCall_of_addend hcall, mapIncr, if_neg hkey] at hsame
  obtain ⟨data, hmarshal, _⟩ := hround delta
  have hcell := congrFun hsame key
  simp [mapAccess, cellStep, cellCount, hmarshal] at hcell

theorem seenFrom_counted (c : GoString) (sum : Int64) :
    seenFrom owner c call (.counter (.ok sum)) = .counter (.ok sum) := by
  cases call <;> rfl

end Grid

end CacheGrid
