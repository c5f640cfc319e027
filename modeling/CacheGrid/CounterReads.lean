import CacheGrid.GridReads
import Mathlib.Data.List.ReduceOption

/-!
# Reading a counter back

A counter lives at the owner of its key, in every mode.  A Get that follows
an Incr at the same cache finds the new value if its mode sends it to the
owner too, and otherwise only if a copy of its own happens to have it.
-/

namespace CacheGrid

open InterleavedPrograms SequentialRuns TimedMap

/-! ## Counters in a cell -/

/-- What msgpack promises for an `int64`. -/
def Msgpack.RoundTrips (codec : Msgpack) : Prop :=
  ∀ n, ∃ data, codec.marshal n = .ok data ∧ codec.unmarshal data = .ok n

theorem Msgpack.int64_roundTrips : Msgpack.int64.RoundTrips := by
  intro n
  refine ⟨0xd3 :: putInt64 n, rfl, ?_⟩
  have hread : Msgpack.readN 8 (putInt64 n) = .ok (beNat (putInt64 n)) := by
    rw [Msgpack.readN, putInt64_length, if_pos le_rfl,
      List.take_of_length_le (putInt64_length n).le]
  have hcode : ¬((0xd3 : UInt8) ≤ 0x7f ∨ (0xe0 : UInt8) ≤ 0xd3) := by decide
  simp only [Msgpack.int64, show (0xd3 : UInt8) ≠ 0xc0 by decide, hcode,
    if_false, Msgpack.integerCode, hread]
  exact congrArg Except.ok (readInt64_putInt64 n)

theorem cellCount_of_roundTrips {codec : Msgpack}
    (hround : codec.RoundTrips) (now : ℤ) (current delta : Int64)
    (ttl : Duration) :
    ∃ n r, cellCount codec now current delta ttl =
      (.counter (.ok n), some r) ∧ codec.unmarshal r.value = .ok n := by
  obtain ⟨data, hmarshal, hunmarshal⟩ := hround (current + delta)
  refine ⟨current + delta, ⟨data, deadlineOf now ttl⟩, ?_, hunmarshal⟩
  simp only [cellCount, hmarshal]

theorem cellStep_incr_of_integer {codec : Msgpack}
    (hround : codec.RoundTrips) {clock : Readings} {cell : Cell}
    (hinteger : ∀ r, cell.filter (fun r => !r.dead (clock.now 0)) = some r →
      ∃ m, codec.unmarshal r.value = .ok m)
    (key : GoString) (delta : Int64) (ttl : Duration) :
    ∃ n r, cellStep codec clock (.incr key delta ttl) cell =
      (.counter (.ok n), some r) ∧ codec.unmarshal r.value = .ok n := by
  cases cell with
  | none => exact cellCount_of_roundTrips hround _ _ _ _
  | some r =>
    simp only [cellStep]
    cases hdead : r.dead (clock.now 0) with
    | true => exact cellCount_of_roundTrips hround _ _ _ _
    | false =>
      obtain ⟨current, hcurrent⟩ :=
        hinteger r (by simp [Option.filter, hdead])
      simp only [hcurrent]
      exact cellCount_of_roundTrips hround _ _ _ _

def CacheCall.addend? {V D : Type} :
    CacheCall V D → Option (GoString × Int64)
  | .incr key delta => some (key, delta)
  | .decr key delta => some (key, -delta)
  | _ => none

theorem CacheCall.program_of_addend? {V D : Type} {call : CacheCall V D}
    {key : GoString} {delta : Int64}
    (hcall : call.addend? = some (key, delta)) (z : Serializer V D)
    (c : GoString) :
    call.program z c = CacheReply.counter <$> Grid.incrBy c key delta := by
  cases call <;> simp_all only [CacheCall.addend?, Option.some.injEq,
    Prod.mk.injEq, reduceCtorEq] <;> obtain ⟨rfl, rfl⟩ := hcall <;> rfl

namespace Grid

variable {σ V D : Type}

/-! ## Steps that leave a key alone -/

/-- A step that leaves `key` alone and is over at `now`. -/
def Step.Spares (key : GoString) (now : ℤ) (g : Grid σ) :
    Step σ V D → Prop
  | .call _ request _ => key ∉ request.keys
  | .env (.sweep _ clock) => clock.finish ≤ now
  | .env (.callback _ _) => True
  | .env (.deliver i _) => ∀ addr req, g.messages[i]? = some (addr, req) →
      req.key ≠ key ∧ key ∉ req.keys
  | .env _ => False

section Counters

variable {impl : StoreImpl σ} {z : Serializer V D} {codec : Msgpack}
  {good : σ → Prop} {contents : σ → Contents GoString Bytes}
  {g middle after : Grid σ} {owner : GoString → GoString}
  {c key : GoString} {now : ℤ}

/-- From `now` on, every cache has the copy of `key` that it had in `g`. -/
structure Spared (good : σ → Prop) (contents : σ → Contents GoString Bytes)
    (key : GoString) (now : ℤ) (g after : Grid σ) : Prop
    extends Settles good g after where
  copyAt_eq : ∀ {t}, now ≤ t → ∀ c,
    after.copyAt contents t c key = g.copyAt contents t c key

def Aside (key _c : GoString) (call : Readings × StoreOp) : Prop :=
  ∃ other, call.2.key? = some other ∧ other ≠ key

theorem Spared.evolves (hlaw : KeepsLedger impl codec good contents)
    (hspared : Spared good contents key now g middle)
    (hevolves : Evolves impl (Aside key) middle after) :
    Spared good contents key now g after where
  toSettles := hspared.toSettles.evolves hlaw.lossy hevolves
  copyAt_eq := by
    intro t ht c
    rw [← hspared.copyAt_eq ht]
    refine stores_bind_eq hevolves.frame_eq ?_
    intro s' hs'
    obtain ⟨s, hs, hreached⟩ := hevolves.reached hs'
    refine ⟨s, hs, ?_⟩
    have hcontents : contents s' key = contents s key := by
      refine hreached.contents_eq hlaw.lossy (hspared.good_store hs) ?_
      rintro _ call hgood _ ⟨other, hop, hne⟩
      exact hlaw.contents_of_ne hgood hop hne
    unfold live
    rw [hcontents]

theorem Spared.same (hspared : Spared good contents key now g middle)
    (hsame : Same middle after) : Spared good contents key now g after where
  toSettles := hspared.toSettles.same hsame
  copyAt_eq := by
    intro t ht c
    rw [← hspared.copyAt_eq ht]
    unfold copyAt
    rw [hsame.stores_eq]

theorem Spared.sweep (hlaw : KeepsLedger impl codec good contents)
    (hspared : Spared good contents key now g middle) {clock : Readings}
    (hclock : clock.finish ≤ now) {result : StoreResult}
    (haccess : Accessed impl middle c (clock, .deleteExpired) result after) :
    Spared good contents key now g after where
  toSettles := hspared.toSettles.accessed hlaw.lossy haccess
  copyAt_eq := by
    intro t ht d
    rw [← hspared.copyAt_eq ht]
    refine stores_bind_eq haccess.frame_eq ?_
    obtain ⟨s, hs, _, hcases⟩ := haccess.cases
    intro s' hs'
    rcases hcases hs' with ⟨rfl, rfl⟩ | ⟨_, hold⟩
    · refine ⟨s, hs, ?_⟩
      unfold live
      rcases hlaw.swept (hspared.good_store hs) clock key with
        hkept | ⟨hnone, hdead⟩
      · rw [hkept]
      · rw [hnone]
        exact (SameFrom.refl clock.finish (contents s key)).drop hdead t
          (hclock.trans ht)
    · exact ⟨s', hold, rfl⟩

theorem Spared.step (hlaw : KeepsLedger impl codec good contents)
    (hspared : Spared good contents key now g middle) {step : Step σ V D}
    (hspares : step.Spares key now middle) :
    Spared good contents key now g (Grid.step impl z middle step).2 := by
  cases step with
  | call c call timeline =>
    refine hspared.evolves hlaw (step_call_evolves ?_ timeline)
    intro other hother _ _ hop
    refine ⟨other, hop, ?_⟩
    rintro rfl
    exact hspares hother
  | env event =>
    cases event with
    | sweep c clock =>
      rcases @sweep_cases σ impl middle c clock with
        hsame | ⟨result, haccess⟩
      · exact hspared.same hsame
      · exact hspared.sweep hlaw hspares haccess
    | callback c i => exact hspared.same (same_callback i)
    | deliver i choice =>
      refine hspared.evolves hlaw (deliver_evolves ?_)
      intro addr req hmessage op hleads
      obtain ⟨hne, hkeys⟩ := hspares addr req hmessage
      obtain ⟨other, hop, hother⟩ := hleads.key
      refine ⟨other, hop, ?_⟩
      rintro rfl
      rcases hother with rfl | hmem
      · exact hne rfl
      · exact hkeys hmem
    | start c n => exact absurd hspares id
    | notify c event => exact absurd hspares id
    | shutdown c => exact absurd hspares id

theorem Spared.run (hlaw : KeepsLedger impl codec good contents)
    (hspared : Spared good contents key now g middle)
    {steps : List (Step σ V D)}
    (hsteps : Meets (Grid.step impl z) (Step.Spares key now) middle steps) :
    Spared good contents key now g
      (SequentialRuns.run (Grid.step impl z) middle steps).2 :=
  run_invariant_of_meets (Spared good contents key now g)
    (fun _ _ hprevious hspares => hprevious.step hlaw hspares) hspared hsteps

theorem ne_of_counted {call : CacheCall V D} {delta n : Int64}
    (hcall : call.addend? = some (key, delta)) {timeline : Timeline}
    (hreply : step impl z g (.call c call timeline) =
      (some (.counter (.ok n)), after)) : key ≠ [] := by
  rintro rfl
  have hstep : step impl z g (.call c call timeline) =
      (some (.counter (.error .keyEmpty)), g) :=
    step_call (by rw [CacheCall.program_of_addend? hcall]; rfl)
  rw [hstep] at hreply
  simp at hreply

theorem Stable.counted (hlaw : KeepsLedger impl z.toMsgpack good contents)
    (hround : z.toMsgpack.RoundTrips) (hstable : g.Stable owner)
    (hgood : ∀ {c s}, g.stores c = some s → good s)
    (hruns : (g.nodes c).isSome = true) {call : CacheCall V D}
    {delta : Int64} (hcall : call.addend? = some (key, delta))
    {timeline : Timeline} (hreliable : timeline.Reliable)
    (hinteger : ∀ r, g.copyAt contents ((timeline.choice 0).clock.now 0)
      (owner key) key = some r → ∃ m, z.unmarshal r.value = .ok m)
    {n : Int64} (hreply : step impl z g (.call c call timeline) =
      (some (.counter (.ok n)), after)) :
    Settles good g after ∧
      (∃ s r, after.stores (owner key) = some s ∧
        contents s key = some r ∧ z.unmarshal r.value = .ok n) ∧
      ∀ d, d ≠ owner key → after.stores d = g.stores d := by
  obtain ⟨node, hnode⟩ := Option.isSome_iff_exists.mp hruns
  obtain ⟨m, hhome, hopen⟩ := hstable.owner_node key
  rw [← hstable.home hnode] at hhome
  have hkey := ne_of_counted hcall hreply
  obtain ⟨result, final, haccess, halone⟩ := @alone_incrBy σ impl g c key
    node m timeline.choice hnode (hstable.open hnode) hkey hhome hopen
    (hreliable 0) delta
  have hstep : step impl z g (.call c call timeline) = _ :=
    step_call (by
      rw [CacheCall.program_of_addend? hcall]
      exact Prog.alone_map_of_eq halone)
  rw [hstep, Prod.mk.injEq, Option.some.injEq,
    CacheReply.counter.injEq] at hreply
  obtain ⟨hcount, rfl⟩ := hreply
  rw [hstable.home hnode] at haccess
  obtain ⟨s, hs, hresult, hstores⟩ := haccess.store
  have hcell : ∀ r, live (contents s) ((timeline.choice 0).clock.now 0) key =
      some r → ∃ m, z.unmarshal r.value = .ok m := by
    intro r hr
    exact hinteger r (by rw [copyAt, hs, Option.bind_some, hr])
  obtain ⟨n', r, hincr, hvalue⟩ :=
    cellStep_incr_of_integer hround hcell key delta m.config.defaultTTL
  have hsettles : Settles good g g := ⟨rfl, hgood⟩
  refine ⟨hsettles.accessed hlaw.lossy haccess, ?_, ?_⟩
  · rw [hlaw.result_eq (hgood hs) rfl, hincr] at hresult
    have hn : n' = n := by
      rw [hresult] at hcount
      unfold countFrom at hcount
      split at hcount <;> simpa [StoreResult.count, Except.mapError,
        remoteCount] using hcount
    refine ⟨_, r, by rw [hstores, Function.update_self], ?_, hn ▸ hvalue⟩
    rw [hlaw.contents_eq (hgood hs) rfl, Function.update_self, hincr]
  · exact fun d hd => haccess.stores_of_ne hd

theorem read_int64_iff {record : Option (Record Bytes)} {n : Int64} :
    (record.bind fun r => (z.deserialize r.value .int64).toOption) =
        some (.int64 n) ↔
      ∃ r, record = some r ∧ z.unmarshal r.value = .ok n := by
  cases record with
  | none => simp
  | some r =>
    cases hvalue : z.unmarshal r.value with
    | error err =>
      simp [Serializer.deserialize, hvalue, Except.toOption]
    | ok m => simp [Serializer.deserialize, hvalue, Except.toOption]

/-- With the counter at the owner, a Get reads it unless the mode makes it
stop at a copy of its own. -/
theorem recordRead_counter_iff {mode : Mode} {choices : ℕ → Choice}
    {r : Record Bytes} {n : Int64} (hvalue : codec.unmarshal r.value = .ok n)
    (hfirst : g.copyAt contents ((choices 0).clock.now 0) (owner key) key =
      some r)
    (hsecond : g.copyAt contents ((choices 1).clock.now 0) (owner key) key =
      some r) :
    (∃ r, g.recordRead contents owner mode choices c key = some r ∧
        codec.unmarshal r.value = .ok n) ↔
      mode = .partitioned ∨ owner key = c ∨
        mode = .nearCache ∧
          g.copyAt contents ((choices 0).clock.now 0) c key = none ∨
        ∃ r, g.copyAt contents ((choices 0).clock.now 0) c key = some r ∧
          codec.unmarshal r.value = .ok n := by
  have hread : mode = .partitioned ∨ owner key = c →
      g.recordRead contents owner mode choices c key = some r := by
    rintro (rfl | rfl)
    · exact hfirst
    · cases mode <;> simp [recordRead, hfirst]
  by_cases howner : mode = .partitioned ∨ owner key = c
  · rw [hread howner, ← or_assoc]
    exact iff_of_true ⟨r, rfl, hvalue⟩ (Or.inl howner)
  · rw [← or_assoc, or_iff_right howner]
    cases mode with
    | partitioned => simp at howner
    | replicated => simp [recordRead]
    | nearCache =>
      unfold recordRead
      cases g.copyAt contents ((choices 0).clock.now 0) c key with
      | none => simp [hsecond, hvalue]
      | some r' => simp

/-- After Incr or Decr has returned `n` at a cache, Get returns `n` there if
it asks the owner, or finds `n` in a copy of its own, and only then. -/
theorem incr_then_get_iff (hlaw : KeepsLedger impl z.toMsgpack good contents)
    (hround : z.toMsgpack.RoundTrips) {start counted : Grid σ}
    (hstable : start.Stable owner)
    (hgood : ∀ {c s}, start.stores c = some s → good s)
    {steps between : List (Step σ V D)}
    (hsteps : ∀ step ∈ steps, step.Settled)
    (hg : (SequentialRuns.run (step impl z) start steps).2 = g)
    {f : Frame} (hf : start.frame c = some f) {call : CacheCall V D}
    {delta : Int64} (hcall : call.addend? = some (key, delta))
    {first second : Timeline} (hfirst : first.Reliable)
    (hsecond : second.Reliable)
    (hinteger : ∀ r, g.copyAt contents ((first.choice 0).clock.now 0)
      (owner key) key = some r → ∃ m, z.unmarshal r.value = .ok m)
    {n : Int64} (hreply : step impl z g (.call c call first) =
      (some (.counter (.ok n)), counted))
    (hbetween : Meets (step impl z) (Step.Spares key second.start) counted
      between)
    (hexpiry : ∀ s r, counted.stores (owner key) = some s →
      contents s key = some r → r.dead second.finish = false) :
    (step impl z (SequentialRuns.run (step impl z) counted between).2
        (.call c (.get key .int64) second)).1 =
        some (.got (some (.int64 n))) ↔
      f.config.mode = .partitioned ∨ owner key = c ∨
        f.config.mode = .nearCache ∧
          g.copyAt contents ((second.choice 0).clock.now 0) c key = none ∨
        ∃ r, g.copyAt contents ((second.choice 0).clock.now 0) c key =
          some r ∧ z.unmarshal r.value = .ok n := by
  have hsettles : Settles good start g := by
    rw [← hg]
    exact Settles.run hlaw.lossy ⟨rfl, hgood⟩ hsteps
  have hruns : (g.nodes c).isSome = true := by
    have hframe : g.frame c = some f := by rw [hsettles.frame_eq, hf]
    obtain ⟨node, hnode, _⟩ := Option.map_eq_some_iff.mp hframe
    rw [hnode]
    rfl
  obtain ⟨hafter, ⟨s, r, hs, hr, hvalue⟩, helsewhere⟩ :=
    (hstable.of_frame_eq hsettles.frame_eq).counted hlaw hround
      hsettles.good_store hruns hcall hfirst hinteger hreply
  have hspared : Spared good contents key second.start counted _ :=
    Spared.run hlaw ⟨⟨rfl, hafter.good_store⟩, fun _ _ => rfl⟩ hbetween
  have hframe := (hspared.frame_eq.trans hafter.frame_eq).trans
    hsettles.frame_eq
  obtain ⟨node, hnode, hnodeFrame⟩ := Option.map_eq_some_iff.mp
    ((congrFun hframe c).trans hf)
  have hconfig : node.config = f.config := congrArg Frame.config hnodeFrame
  have htime : ∀ i, second.start ≤ (second.choice i).clock.now 0 := fun i =>
    (second.start_le i).trans ((second.choice i).clock.start_le 0)
  have hcounter : ∀ i, (SequentialRuns.run (step impl z) counted
      between).2.copyAt contents ((second.choice i).clock.now 0) (owner key)
      key = some r := by
    intro i
    have halive : r.dead ((second.choice i).clock.now 0) = false := by
      by_contra hdead
      have hdeadFinish := Record.dead_mono (((second.choice i).clock.le_finish
        0).trans (second.le_finish i)) (Bool.not_eq_false _ ▸ hdead)
      rw [hexpiry s r hs hr] at hdeadFinish
      contradiction
    rw [hspared.copyAt_eq (htime i)]
    simp [copyAt, hs, live, hr, Option.filter, halive]
  rw [(hstable.of_frame_eq hframe).get_reply hlaw.lossy hspared.good_store
    hnode (ne_of_counted hcall hreply) .int64 hsecond, Option.some.injEq,
    CacheReply.got.injEq, read_int64_iff, hconfig,
    recordRead_counter_iff hvalue (hcounter 0) (hcounter 1)]
  by_cases howner : owner key = c
  · simp [howner]
  · have hlocal : (SequentialRuns.run (step impl z) counted
        between).2.copyAt contents ((second.choice 0).clock.now 0) c key =
        g.copyAt contents ((second.choice 0).clock.now 0) c key := by
      rw [hspared.copyAt_eq (htime 0)]
      unfold copyAt
      rw [helsewhere c (Ne.symm howner)]
    rw [hlocal]

end Counters

/-- A counter of `b:1` that is raised and read at `a:1`, with a sweep and a
call on another key in between. -/
theorem incr_then_get_partitioned :
    let start := twoCaches ⟨.partitioned, 0⟩
      (MemoryStore.new 1 (by decide) 0 true true)
    let counted := (step (MemoryStore.impl .int64) .basic start
      (.call (ascii "a:1") (.incr (ascii "k") 3) (.instant 0))).2
    let final := (SequentialRuns.run (step (MemoryStore.impl .int64) .basic)
      counted [.env (.sweep (ascii "b:1") (.instant 1)),
        .call (ascii "a:1") (.set (ascii "other") (.int64 9) 0)
          (.instant 2)]).2
    (step (MemoryStore.impl .int64) .basic final
        (.call (ascii "a:1") (.get (ascii "k") .int64) (.instant 3))).1 =
      some (.got (some (.int64 3))) := by
  intro start counted final
  have hstore : (MemoryStore.new 1 (by decide) 0 true true).Unlimited :=
    MemoryStore.unlimited_new 1 (by decide) le_rfl true true
  have habsent : start.copyAt MemoryStore.contents 0
      (ownerOfTwo (ascii "k")) (ascii "k") = none := by
    decide +kernel
  have hexpiry : ((counted.stores (ownerOfTwo (ascii "k"))).all fun s =>
      (s.contents (ascii "k")).all fun r => !r.dead 3) = true := by
    decide +kernel
  have hreply : step (MemoryStore.impl .int64) .basic start
      (.call (ascii "a:1") (.incr (ascii "k") 3) (.instant 0)) =
      (some (.counter (.ok 3)), counted) :=
    Prod.ext (by decide +kernel) rfl
  obtain ⟨f, hf⟩ := Option.isSome_iff_exists.mp
    (show (start.frame (ascii "a:1")).isSome = true by decide +kernel)
  have hmode : f.config.mode = .partitioned :=
    congrArg CacheConfig.mode (twoCaches_config hf)
  refine (@incr_then_get_iff _ _ _ _ .basic _ _ start _ _ _
    (MemoryStore.keepsLedger .int64) Msgpack.int64_roundTrips start counted
    (twoCaches_stable ⟨.partitioned, 0⟩ _)
    (fun hs => twoCaches_stores hs ▸ hstore) [] _ (by simp) rfl f hf
    (.incr (ascii "k") 3) 3 rfl (.instant 0) (.instant 3) (fun _ => rfl)
    (fun _ => rfl) ?_ 3 hreply ?_ ?_).mpr (Or.inl hmode)
  · intro r hr
    rw [Timeline.instant, Readings.instant_now, habsent] at hr
    contradiction
  · exact ⟨(by decide : (1 : ℤ) ≤ 3),
      (by decide : ascii "k" ∉ [ascii "other"]), trivial⟩
  · intro s r hs hr
    have halive : r.dead 3 = false := by simpa [hs, hr] using hexpiry
    exact halive

/-- A copy of a counter that another cache owns is not raised with it. -/
theorem incr_then_get_reads_old_copy :
    let replies (mode : Mode) := (SequentialRuns.run
      (step (MemoryStore.impl .int64) .basic)
      (twoCaches ⟨mode, 0⟩ (MemoryStore.new 1 (by decide) 0 true true))
      [.call (ascii "a:1") (.set (ascii "k") (.int64 5) 0) (.instant 0),
        .env (.deliver 0 ⟨.instant 1, .answered, fun _ => 0⟩),
        .call (ascii "a:1") (.incr (ascii "k") 1) (.instant 2),
        .call (ascii "a:1") (.get (ascii "k") .int64)
          (.instant 3)]).1.reduceOption
    replies .replicated =
        [.stored none, .counter (.ok 6), .got (some (.int64 5))] ∧
      replies .nearCache =
        [.stored none, .counter (.ok 6), .got (some (.int64 5))] := by
  decide +kernel

end Grid

end CacheGrid
