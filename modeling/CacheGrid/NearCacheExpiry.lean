import CacheGrid.GridReads

/-!
# The lifetime of near copies

A near cache that has fetched a value from the owner stores it with its own
default ttl, whatever time the value has left at the owner.  As long as every
such copy is made to expire no later than the record it was made from, each
record of the cluster goes back to a Set whose lifetime it does not exceed,
and no Get returns a value that has expired.
-/

namespace CacheGrid

open InterleavedPrograms SequentialRuns TimedMap

namespace Grid

variable {σ V D : Type}

/-! ## Where records come from -/

/-- A Set of `key` among `steps` has written the value of the record, and the
record does not outlive the ttl of that Set. -/
def Backed (z : Serializer V D) (start : Grid σ) (steps : List (Step σ V D))
    (key : GoString) (r : Record Bytes) : Prop :=
  ∃ c f value ttl s,
    Step.call c (.set key value ttl) (.instant s) ∈ steps ∧
    start.frame c = some f ∧ z.serialize value = .ok r.value ∧
    ((f.config.effectiveTTL ttl).toInt ≤ 0 ∨
      ∃ d, r.deadline = some d ∧ d ≤ s + (f.config.effectiveTTL ttl).toInt)

/-- Set, Get and the sweepers, each at one instant.  A value that a near cache
fetches is stored there no longer than the owner keeps it. -/
def Step.FillsInTime (contents : σ → Contents GoString Bytes)
    (owner : GoString → GoString) (g : Grid σ) : Step σ V D → Prop
  | .call c (.set _ _ _) timeline =>
    (g.frame c).isSome = true ∧ ∃ t, timeline = .instant t
  | .call c (.get key _) timeline => ∃ f t, g.frame c = some f ∧
      timeline = .instant t ∧
      (owner key ≠ c → g.copyAt contents t c key = none →
        ∀ r d, g.copyAt contents t (owner key) key = some r →
          r.deadline = some d → 0 < f.config.defaultTTL.toInt ∧
            t + f.config.defaultTTL.toInt ≤ d)
  | .call _ _ _ => False
  | .env (.sweep _ _) => True
  | .env (.callback _ _) => True
  | .env _ => False

section Runs

variable {impl : StoreImpl σ} {z : Serializer V D} {good : σ → Prop}
  {contents : σ → Contents GoString Bytes} {owner : GoString → GoString}
  {start g after : Grid σ} {steps : List (Step σ V D)} {c key : GoString}

/-- Every record in a store goes back to a Set. -/
structure AllBacked (z : Serializer V D) (good : σ → Prop)
    (contents : σ → Contents GoString Bytes) (start : Grid σ)
    (steps : List (Step σ V D)) (g : Grid σ) : Prop
    extends Settles good start g where
  backed : ∀ {c s key r}, g.stores c = some s → contents s key = some r →
    Backed z start steps key r

theorem Backed.mono {more : List (Step σ V D)} {r : Record Bytes}
    (hbacked : Backed z start steps key r) (hsub : steps ⊆ more) :
    Backed z start more key r := by
  obtain ⟨c, f, value, ttl, s, hmem, hrest⟩ := hbacked
  exact ⟨c, f, value, ttl, s, hsub hmem, hrest⟩

theorem AllBacked.mono {more : List (Step σ V D)}
    (hall : AllBacked z good contents start steps g)
    (hsub : steps ⊆ more) : AllBacked z good contents start more g where
  toSettles := hall.toSettles
  backed := fun hs hr => (hall.backed hs hr).mono hsub

theorem AllBacked.same (hall : AllBacked z good contents start steps g)
    (hsame : Same g after) :
    AllBacked z good contents start steps after where
  toSettles := hall.toSettles.same hsame
  backed := fun hs hr => hall.backed (congrFun hsame.stores_eq _ ▸ hs) hr

theorem AllBacked.read (hlaw : LossyLedger impl z.toMsgpack good contents)
    (hall : AllBacked z good contents start steps g) {clock : Readings}
    {op : StoreOp} (hop : op.key? = none ∨ op.reads = true)
    {result : StoreResult}
    (haccess : Accessed impl g c (clock, op) result after) :
    AllBacked z good contents start steps after where
  toSettles := hall.toSettles.accessed hlaw haccess
  backed := by
    obtain ⟨s, hs, _, hcases⟩ := haccess.cases
    intro d s' k r hs' hr
    rcases hcases hs' with ⟨_, rfl⟩ | ⟨_, hold⟩
    · exact hall.backed hs (hlaw.kept (hall.good_store hs)
        (hop.imp_left fun hnone => by simp [hnone]) hr)
    · exact hall.backed hold hr

theorem AllBacked.write (hlaw : LossyLedger impl z.toMsgpack good contents)
    (hall : AllBacked z good contents start steps g) {clock : Readings}
    {data : Bytes} {ttl : Duration}
    (hnew : Backed z start steps key ⟨data, deadlineOf (clock.now 0) ttl⟩)
    {result : StoreResult}
    (haccess : Accessed impl g c (clock, .set key data ttl) result after) :
    AllBacked z good contents start steps after where
  toSettles := hall.toSettles.accessed hlaw haccess
  backed := by
    obtain ⟨s, hs, _, hcases⟩ := haccess.cases
    intro d s' k r hs' hr
    rcases hcases hs' with ⟨_, rfl⟩ | ⟨_, hold⟩
    · by_cases hk : k = key
      · subst k
        rw [hlaw.written (hall.good_store hs) hr]
        exact hnew
      · refine hall.backed hs (hlaw.kept (hall.good_store hs) (Or.inl ?_) hr)
        exact fun hsame => hk (Option.some.inj hsame).symm
    · exact hall.backed hold hr

theorem deadlineOf_cases (t : ℤ) (ttl : Duration) :
    ttl.toInt ≤ 0 ∨ deadlineOf t ttl = some (t + ttl.toInt) := by
  unfold deadlineOf
  split
  · exact Or.inr rfl
  · exact Or.inl (not_lt.mp ‹_›)

/-- A copy whose ttl ends before the deadline of the record it was made
from. -/
theorem Backed.copy {r : Record Bytes} {t : ℤ} {ttl : Duration}
    (hbacked : Backed z start steps key r)
    (htime : ∀ d, r.deadline = some d → 0 < ttl.toInt ∧ t + ttl.toInt ≤ d) :
    Backed z start steps key ⟨r.value, deadlineOf t ttl⟩ := by
  obtain ⟨c, f, value, lifetime, s, hmem, hf, hvalue, hends⟩ := hbacked
  refine ⟨c, f, value, lifetime, s, hmem, hf, hvalue, ?_⟩
  refine hends.imp_right ?_
  rintro ⟨d, hdeadline, hle⟩
  obtain ⟨hpos, hbefore⟩ := htime d hdeadline
  refine ⟨t + ttl.toInt, ?_, hbefore.trans hle⟩
  simp [deadlineOf, hpos]

theorem AllBacked.get (hlaw : LossyLedger impl z.toMsgpack good contents)
    (hstable : start.Stable owner)
    (hmode : ∀ {c f}, start.frame c = some f → f.config.mode = .nearCache)
    (hall : AllBacked z good contents start steps g) {f : Frame}
    (hf : g.frame c = some f) {t : ℤ}
    (htime : owner key ≠ c → g.copyAt contents t c key = none →
      ∀ r d, g.copyAt contents t (owner key) key = some r →
        r.deadline = some d → 0 < f.config.defaultTTL.toInt ∧
          t + f.config.defaultTTL.toInt ≤ d) (dest : Dest D) :
    AllBacked z good contents start steps
      (step impl z g (.call c (.get key dest) (.instant t))).2 := by
  have hstable' := hstable.of_frame_eq hall.frame_eq
  obtain ⟨n, hnode, rfl⟩ := Option.map_eq_some_iff.mp hf
  have hnear : n.config.mode = .nearCache :=
    hmode (congrFun hall.frame_eq c ▸ hf)
  by_cases hkey : key = []
  · subst key
    exact hall
  obtain ⟨m, hhome, hopen⟩ := hstable'.owner_node key
  rw [← hstable'.home hnode] at hhome
  obtain ⟨found, rest, middle, hget, hrun⟩ :=
    @alone_distributedGet_nearCache σ impl g c key n m
      (Timeline.instant t).choice hnode hnear hhome hopen rfl
  obtain ⟨final, hsame, halone⟩ := @alone_get σ V D impl z g middle c key n
    (Timeline.instant t).choice rest hnode (hstable'.open hnode) hkey dest
    found hrun hget.frame_eq
  have hstep : step impl z g (.call c (.get key dest) (.instant t)) = _ :=
    step_call (Prog.alone_map_of_eq halone)
  rw [hstep]
  refine AllBacked.same ?_ hsame
  cases hget with
  | hit hfirst _ => exact hall.read hlaw (Or.inr rfl) hfirst
  | alone hfirst _ _ => exact hall.read hlaw (Or.inr rfl) hfirst
  | absent hfirst _ _ hsecond _ =>
    exact (hall.read hlaw (Or.inr rfl) hfirst).read hlaw (Or.inr rfl)
      hsecond
  | filled hfirst hmiss hremote hsecond hfetched hthird =>
    have hread := (hall.read hlaw (Or.inr rfl) hfirst).read hlaw
      (Or.inr rfl) hsecond
    have howner : owner key ≠ c :=
      mt (hstable'.ownerAddr_eq_nil_iff hnode key).mpr hremote
    rw [hfirst.get_found hlaw hall.good_store,
      Option.map_eq_none_iff] at hmiss
    rw [hstable'.home hnode] at hsecond
    rw [hsecond.get_found_after hlaw hall.good_store hfirst howner,
      Option.map_eq_some_iff] at hfetched
    obtain ⟨r, hcopy, rfl⟩ := hfetched
    refine hread.write hlaw (Backed.copy ?_ fun d hd =>
      htime howner hmiss r d hcopy hd) hthird
    obtain ⟨s, hs, hlive⟩ := Option.bind_eq_some_iff.mp hcopy
    exact hall.backed hs (eq_some_of_live hlive).1

theorem AllBacked.set (hlaw : LossyLedger impl z.toMsgpack good contents)
    (hstable : start.Stable owner)
    (hmode : ∀ {c f}, start.frame c = some f → f.config.mode = .nearCache)
    (hall : AllBacked z good contents start steps g)
    (hruns : (g.frame c).isSome = true) {value : GoValue V} {ttl : Duration}
    {t : ℤ}
    (hmem : Step.call c (.set key value ttl) (.instant t) ∈ steps) :
    AllBacked z good contents start steps
      (step impl z g (.call c (.set key value ttl) (.instant t))).2 := by
  have hstable' := hstable.of_frame_eq hall.frame_eq
  obtain ⟨f, hf⟩ := Option.isSome_iff_exists.mp hruns
  obtain ⟨n, hnode, rfl⟩ := Option.map_eq_some_iff.mp hf
  have hf' : start.frame c = some n.frame := congrFun hall.frame_eq c ▸ hf
  by_cases hkey : key = []
  · subst key
    exact hall
  cases hdata : z.serialize value with
  | error cause =>
    have halone := @alone_set_unserializable σ V D impl z g c key n
      (Timeline.instant t).choice hnode (hstable'.open hnode) hkey value
      cause hdata ttl
    have hstep : step impl z g
        (.call c (.set key value ttl) (.instant t)) = _ :=
      step_call (Prog.alone_map_of_eq halone)
    rw [hstep]
    exact hall
  | ok data =>
    have hnew : Backed z start steps key
        ⟨data, deadlineOf t (n.config.effectiveTTL ttl)⟩ := by
      refine ⟨c, n.frame, value, ttl, t, hmem, hf', hdata, ?_⟩
      exact (deadlineOf_cases t _).imp_right fun hd => ⟨_, hd, le_rfl⟩
    obtain ⟨m, hhome, hopen⟩ := hstable'.owner_node key
    rw [← hstable'.home hnode] at hhome
    obtain ⟨result, first, middle, rest, hfirst, hrest, hrun⟩ :=
      @alone_distributedSet_nearCache σ impl g c key n m
        (Timeline.instant t).choice hnode (hmode hf') hhome hopen rfl data
        (n.config.effectiveTTL ttl)
    have hlocal := hall.write hlaw hnew hfirst
    have hmiddle : AllBacked z good contents start steps middle := by
      rcases hrest with ⟨_, rfl⟩ | ⟨_, result', hsecond⟩
      · exact hlocal
      · exact hlocal.write hlaw hnew hsecond
    obtain ⟨final, hsame, halone⟩ := alone_set hnode (hstable'.open hnode)
      hkey hdata hrun (hmiddle.frame_eq.trans hall.frame_eq.symm)
    have hstep : step impl z g
        (.call c (.set key value ttl) (.instant t)) = _ :=
      step_call (Prog.alone_map_of_eq halone)
    rw [hstep]
    exact hmiddle.same hsame

theorem AllBacked.step (hlaw : LossyLedger impl z.toMsgpack good contents)
    (hstable : start.Stable owner)
    (hmode : ∀ {c f}, start.frame c = some f → f.config.mode = .nearCache)
    (hall : AllBacked z good contents start steps g) {step : Step σ V D}
    (hstep : step.FillsInTime contents owner g) :
    AllBacked z good contents start (steps ++ [step])
      (Grid.step impl z g step).2 := by
  have hmore := hall.mono (List.subset_append_left steps [step])
  cases step with
  | call c call timeline =>
    cases call with
    | set key value ttl =>
      obtain ⟨hruns, t, rfl⟩ := hstep
      exact hmore.set hlaw hstable hmode hruns (by simp)
    | get key dest =>
      obtain ⟨f, t, hf, rfl, htime⟩ := hstep
      exact hmore.get hlaw hstable hmode hf htime dest
    | _ => exact absurd hstep id
  | env event =>
    cases event with
    | sweep c clock =>
      rcases @sweep_cases σ impl g c clock with hsame | ⟨result, haccess⟩
      · exact hmore.same hsame
      · exact hmore.read hlaw (Or.inl rfl) haccess
    | callback c i => exact hmore.same (same_callback i)
    | _ => exact absurd hstep id

theorem AllBacked.run (hlaw : LossyLedger impl z.toMsgpack good contents)
    (hstable : start.Stable owner)
    (hmode : ∀ {c f}, start.frame c = some f → f.config.mode = .nearCache)
    (hall : AllBacked z good contents start steps g)
    {more : List (Step σ V D)}
    (hmore : Meets (Grid.step impl z) (Step.FillsInTime contents owner) g
      more) :
    AllBacked z good contents start (steps ++ more)
      (SequentialRuns.run (Grid.step impl z) g more).2 := by
  induction more generalizing steps g with
  | nil => simpa using hall
  | cons step more ih =>
    have hrest := ih (hall.step hlaw hstable hmode hmore.1) hmore.2
    rwa [List.append_assoc] at hrest

/-- If near copies expire in time, a Get returns the value of a Set that has
not expired. -/
theorem nearCache_get_unexpired
    (hlaw : LossyLedger impl z.toMsgpack good contents)
    (hstable : start.Stable owner)
    (hmode : ∀ {c f}, start.frame c = some f → f.config.mode = .nearCache)
    (hfresh : ∀ {c s}, start.stores c = some s →
      good s ∧ contents s = fun _ => none)
    (hsteps : Meets (Grid.step impl z) (Step.FillsInTime contents owner)
      start steps)
    (hg : (SequentialRuns.run (Grid.step impl z) start steps).2 = g)
    (hruns : (start.frame c).isSome = true) {dest : Dest D} {t : ℤ}
    {v : GoValue V}
    (hreply : (Grid.step impl z g (.call c (.get key dest) (.instant t))).1 =
      some (.got (some v))) :
    ∃ c' f value ttl s data,
      Step.call c' (.set key value ttl) (.instant s) ∈ steps ∧
      start.frame c' = some f ∧ z.serialize value = .ok data ∧
      z.deserialize data dest = .ok v ∧
      ((f.config.effectiveTTL ttl).toInt ≤ 0 ∨
        t ≤ s + (f.config.effectiveTTL ttl).toInt) := by
  have hstart : AllBacked z good contents start [] start := by
    refine ⟨⟨rfl, fun hs => (hfresh hs).1⟩, ?_⟩
    intro c s key r hs hr
    simp [(hfresh hs).2] at hr
  have hall : AllBacked z good contents start steps g := by
    simpa [hg] using hstart.run hlaw hstable hmode hsteps
  obtain ⟨f, hf⟩ := Option.isSome_iff_exists.mp hruns
  have hf' : g.frame c = some f := (congrFun hall.frame_eq c).trans hf
  obtain ⟨n, hnode, rfl⟩ := Option.map_eq_some_iff.mp hf'
  have hkey : key ≠ [] := by
    rintro rfl
    have hmiss : Grid.step impl z g (.call c (.get [] dest) (.instant t)) =
        (some (.got none), g) := rfl
    rw [hmiss] at hreply
    simp at hreply
  rw [(hstable.of_frame_eq hall.frame_eq).get_reply hlaw hall.good_store hnode
    hkey dest fun _ => rfl, Option.some.injEq, CacheReply.got.injEq,
    Option.bind_eq_some_iff] at hreply
  obtain ⟨r, hread, hvalue⟩ := hreply
  obtain ⟨d, hcopy⟩ : ∃ d, g.copyAt contents t d key = some r := by
    simp only [show n.config.mode = .nearCache from hmode hf,
      recordRead] at hread
    rcases Option.or_eq_some_iff.mp hread with hown | ⟨_, howner⟩
    · exact ⟨c, hown⟩
    · exact ⟨owner key, howner⟩
  obtain ⟨s', hs', hlive⟩ := Option.bind_eq_some_iff.mp hcopy
  obtain ⟨hr, halive⟩ := eq_some_of_live hlive
  obtain ⟨c', f', value, ttl, s, hmem, hframe, hdata, hends⟩ :=
    hall.backed hs' hr
  refine ⟨c', f', value, ttl, s, r.value, hmem, hframe, hdata, ?_, ?_⟩
  · cases hdeserialize : z.deserialize r.value dest with
    | error err => simp [hdeserialize, Except.toOption] at hvalue
    | ok v' => simpa [hdeserialize, Except.toOption] using hvalue
  · refine hends.imp_right ?_
    rintro ⟨deadline, hdeadline, hle⟩
    simp only [Record.dead, hdeadline, decide_eq_false_iff_not,
      not_lt] at halive
    exact halive.trans hle

end Runs

/-- The default ttl of the cache that fetches is shorter than what is left. -/
theorem nearCache_get_unexpired_short_copy :
    let steps : List (Step MemoryStore Empty Empty) :=
      [.call (ascii "b:1") (.set (ascii "k") (.int64 7) 10) (.instant 0),
        .call (ascii "a:1") (.get (ascii "k") .int64) (.instant 5)]
    ∃ c' f value ttl s data,
      Step.call c' (.set (ascii "k") value ttl) (.instant s) ∈ steps ∧
      (twoCaches ⟨.nearCache, 3⟩
        (MemoryStore.new 1 (by decide) 0 true true)).frame c' = some f ∧
      Serializer.basic.serialize value = .ok data ∧
      Serializer.basic.deserialize data .int64 = .ok (.int64 7) ∧
      ((f.config.effectiveTTL ttl).toInt ≤ 0 ∨
        8 ≤ s + (f.config.effectiveTTL ttl).toInt) := by
  intro steps
  let start := twoCaches ⟨.nearCache, 3⟩
    (MemoryStore.new 1 (by decide) 0 true true)
  let written := (Grid.step (MemoryStore.impl .int64) .basic start
    (.call (ascii "b:1") (.set (ascii "k") (.int64 7) 10) (.instant 0) :
      Step MemoryStore Empty Empty)).2
  obtain ⟨f, hf⟩ := Option.isSome_iff_exists.mp
    (show (written.frame (ascii "a:1")).isSome = true by decide +kernel)
  have hdefault : (written.frame (ascii "a:1")).all
      (fun f => f.config.defaultTTL = 3) = true := by
    decide +kernel
  have hleft : (written.copyAt MemoryStore.contents 5
      (ownerOfTwo (ascii "k")) (ascii "k")).all
      (fun r => r.deadline.all fun d => decide (5 + 3 ≤ d)) = true := by
    decide +kernel
  have hsteps : Meets (Grid.step (MemoryStore.impl .int64) .basic)
      (Step.FillsInTime MemoryStore.contents ownerOfTwo) start steps := by
    refine ⟨⟨by decide +kernel, 0, rfl⟩, ⟨f, 5, hf, rfl, ?_⟩, trivial⟩
    intro _ _ r d hr hd
    have hthree : f.config.defaultTTL = 3 := by simpa [hf] using hdefault
    have hbefore : 5 + 3 ≤ d := by
      rw [show written.copyAt _ _ _ _ = some r from hr] at hleft
      simpa [hd] using hleft
    rw [hthree]
    exact ⟨by decide, hbefore⟩
  refine nearCache_get_unexpired (MemoryStore.lossyLedger .int64)
    (twoCaches_stable ⟨.nearCache, 3⟩ _) ?_ ?_ hsteps rfl
    (show (start.frame (ascii "a:1")).isSome = true by decide +kernel)
    (by decide +kernel)
  · intro c f hf
    rw [twoCaches_config hf]
  · intro c s hs
    rw [twoCaches_stores hs]
    exact ⟨MemoryStore.sound_new 1 (by decide) 0 true true,
      MemoryStore.contents_new 1 (by decide) 0 true true⟩

/-- Without a default ttl, a copy that is made in time stays for good. -/
theorem nearCache_get_expired :
    let config : CacheConfig := ⟨.nearCache, 0⟩
    (SequentialRuns.run (Grid.step (MemoryStore.impl .int64) .basic)
        (twoCaches config (MemoryStore.new 1 (by decide) 0 true true))
        [.call (ascii "b:1") (.set (ascii "k") (.int64 7) 10) (.instant 0),
          .call (ascii "a:1") (.get (ascii "k") .int64) (.instant 5),
          .call (ascii "a:1") (.get (ascii "k") .int64) (.instant 100)]).1 =
      [some (.stored none), some (.got (some (.int64 7))),
        some (.got (some (.int64 7)))] ∧
    ¬ ((config.effectiveTTL 10).toInt ≤ 0 ∨
      100 ≤ 0 + (config.effectiveTTL 10).toInt) := by
  decide +kernel

end Grid

end CacheGrid
