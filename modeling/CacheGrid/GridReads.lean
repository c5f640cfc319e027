import CacheGrid.GridCluster
import CacheGrid.GridEvolution

/-!
# What a cache reads

Exists, Incr and Decr are answered by the owner of a key in every mode, TTL by
the cache's own store, and Get by whichever of the two the mode says.  So two
calls at one cache agree about a key as far as the copies in the two stores
do.
-/

namespace CacheGrid

open InterleavedPrograms SequentialRuns TimedMap

namespace Grid

variable {σ V D : Type}

/-! ## Runs of a settled cluster -/

/-- A step that starts or stops no cache and tells none of a member. -/
def Step.Settled : Step σ V D → Prop
  | .call _ _ _ => True
  | .env (.sweep _ _) => True
  | .env (.callback _ _) => True
  | .env (.deliver _ _) => True
  | .env _ => False

variable {call : Readings × StoreOp}

section Runs

variable {impl : StoreImpl σ} {z : Serializer V D} {codec : Msgpack}
  {good : σ → Prop} {contents : σ → Contents GoString Bytes}
  {start g middle after : Grid σ} {c key : GoString}

/-- The frames are those of the start, and all stores are good. -/
structure Settles (good : σ → Prop) (start g : Grid σ) : Prop where
  frame_eq : g.frame = start.frame
  good_store : ∀ {c s}, g.stores c = some s → good s

theorem Settles.evolves (hlaw : LossyLedger impl codec good contents)
    (hsettles : Settles good start g)
    {allowed : GoString → Readings × StoreOp → Prop}
    (hevolves : Evolves impl allowed g after) :
    Settles good start after where
  frame_eq := hevolves.frame_eq.trans hsettles.frame_eq
  good_store := by
    intro c s' hs'
    obtain ⟨s, hs, hreached⟩ := hevolves.reached hs'
    exact hreached.keeps_good hlaw (hsettles.good_store hs)

theorem Settles.same (hsettles : Settles good start g)
    (hsame : Same g after) : Settles good start after where
  frame_eq := hsame.frame_eq.trans hsettles.frame_eq
  good_store := fun hs =>
    hsettles.good_store (congrFun hsame.stores_eq _ ▸ hs)

theorem Settles.accessed (hlaw : LossyLedger impl codec good contents)
    (hsettles : Settles good start g) {result : StoreResult}
    (haccess : Accessed impl g c call result after) :
    Settles good start after where
  frame_eq := haccess.frame_eq.trans hsettles.frame_eq
  good_store := by
    obtain ⟨s, hs, _, hcases⟩ := haccess.cases
    intro d s' hs'
    rcases hcases hs' with ⟨_, rfl⟩ | ⟨_, hold⟩
    · exact hlaw.good_call (hsettles.good_store hs) call
    · exact hsettles.good_store hold

theorem Settles.exec (hlaw : LossyLedger impl codec good contents)
    (hsettles : Settles good start g) {op : Op} {choice : Choice}
    {answer : op.Answer}
    (hexec : (machine impl).exec g op choice = some (answer, after)) :
    Settles good start after := by
  have hwithin : op.Within (fun _ _ => True) choice.clock := by
    cases op with
    | call addr req => exact fun _ _ => trivial
    | _ => trivial
  exact hsettles.evolves hlaw (exec_evolves hwithin hexec)

theorem Settles.step (hlaw : LossyLedger impl codec good contents)
    (hsettles : Settles good start g) {step : Step σ V D}
    (hstep : step.Settled) :
    Settles good start (Grid.step impl z g step).2 := by
  cases step with
  | call c call timeline =>
    exact hsettles.evolves hlaw (@step_call_evolves _ _ _ _ _
      (fun _ _ => True) _ _ _ (fun _ _ _ _ _ => trivial) timeline)
  | env event =>
    cases event with
    | sweep c clock =>
      rcases @sweep_cases σ impl g c clock with hsame | ⟨result, haccess⟩
      · exact hsettles.same hsame
      · exact hsettles.accessed hlaw haccess
    | callback c i => exact hsettles.same (same_callback i)
    | deliver i choice =>
      exact hsettles.evolves hlaw (@deliver_evolves _ _
        (fun _ _ => True) _ _ _ fun _ _ _ _ _ => trivial)
    | start c n => exact absurd hstep id
    | notify c event => exact absurd hstep id
    | shutdown c => exact absurd hstep id

theorem Settles.run (hlaw : LossyLedger impl codec good contents)
    (hsettles : Settles good start g) {steps : List (Step σ V D)}
    (hsteps : ∀ step ∈ steps, step.Settled) :
    Settles good start (SequentialRuns.run (Grid.step impl z) g steps).2 := by
  induction steps generalizing g with
  | nil => exact hsettles
  | cons step steps ih =>
    exact ih (hsettles.step hlaw (hsteps step List.mem_cons_self))
      fun other hother => hsteps other (List.mem_cons_of_mem _ hother)

end Runs

/-! ## Copies -/

def held (contents : σ → Contents GoString Bytes) (g : Grid σ)
    (key c : GoString) : Cell :=
  (g.stores c).bind fun s => contents s key

/-- The record a cache holds under a key, if it is alive. -/
def copyAt (contents : σ → Contents GoString Bytes) (g : Grid σ) (now : ℤ)
    (c key : GoString) : Option (Record Bytes) :=
  (g.stores c).bind fun s => live (contents s) now key

/-- The record that a Get returns, as the copies stood before it. -/
def recordRead (contents : σ → Contents GoString Bytes)
    (owner : GoString → GoString) (g : Grid σ) (mode : Mode)
    (choices : ℕ → Choice) (c key : GoString) : Option (Record Bytes) :=
  match mode with
  | .partitioned =>
    g.copyAt contents ((choices 0).clock.now 0) (owner key) key
  | .replicated => g.copyAt contents ((choices 0).clock.now 0) c key
  | .nearCache =>
    (g.copyAt contents ((choices 0).clock.now 0) c key).or
      (g.copyAt contents ((choices 1).clock.now 0) (owner key) key)

section Copies

variable {impl : StoreImpl σ} {codec : Msgpack} {good : σ → Prop}
  {contents : σ → Contents GoString Bytes} {g after : Grid σ}
  {owner : GoString → GoString} {c h key : GoString} {clock : Readings}
  {result : StoreResult}

theorem copyAt_mono {now later : ℤ} (hle : now ≤ later)
    (hnone : g.copyAt contents now c key = none) :
    g.copyAt contents later c key = none := by
  unfold copyAt at hnone ⊢
  cases hs : g.stores c with
  | none => rfl
  | some s =>
    rw [hs, Option.bind_some] at hnone
    rw [Option.bind_some]
    unfold live at hnone ⊢
    rw [Option.filter_eq_none_iff] at hnone ⊢
    intro r hr
    have hdead : r.dead now = true := by simpa using hnone r hr
    simp [Record.dead_mono hle hdead]

theorem copyAt_eq_filter (now : ℤ) (c key : GoString) :
    g.copyAt contents now c key =
      (g.held contents key c).filter fun r => !r.dead now := by
  unfold copyAt held
  cases g.stores c <;> rfl

theorem Accessed.get_found (hlaw : LossyLedger impl codec good contents)
    (hgood : ∀ {c s}, g.stores c = some s → good s)
    (haccess : Accessed impl g h (clock, .get key) result after) :
    result.found =
      (g.copyAt contents (clock.now 0) h key).map Record.value := by
  obtain ⟨s, hs, hresult, _⟩ := haccess.cases
  rw [hresult, hlaw.get_found (hgood hs)]
  simp [copyAt, hs]

theorem Accessed.stores_of_ne (haccess : Accessed impl g h call result after)
    (hne : c ≠ h) :
    after.stores c = g.stores c := by
  obtain ⟨s, _, _, hstores⟩ := haccess.store
  rw [hstores, Function.update_of_ne hne]

theorem Accessed.held_eq (haccess : Accessed impl g h call result after)
    (hlaw : KeepsLedger impl codec good contents)
    (hgood : ∀ {c s}, g.stores c = some s → good s)
    (hkey : call.2.key? = some key) (other d : GoString) :
    after.held contents other d =
      if d = h ∧ other = key then
        (cellStep codec call.1 call.2 (g.held contents key h)).2
      else g.held contents other d := by
  obtain ⟨clock, op⟩ := call
  obtain ⟨s, hs, _, hstores⟩ := haccess.store
  unfold held
  rw [hstores]
  by_cases hd : d = h
  · subst hd
    simp only [Function.update_self, hs, Option.bind_some, true_and,
      hlaw.contents_eq (hgood hs) hkey]
    by_cases hother : other = key
    · rw [if_pos hother, hother, Function.update_self]
    · rw [if_neg hother, Function.update_of_ne hother]
  · rw [if_neg (fun h => hd h.1), Function.update_of_ne hd]

theorem Accessed.held_deleted (hlaw : LossyLedger impl codec good contents)
    (hgood : ∀ {s}, g.stores h = some s → good s)
    (haccess : Accessed impl g h (clock, .delete key) result after)
    {other : GoString}
    (hother : other = key ∨ g.held contents other h = none) :
    after.held contents other h = none := by
  obtain ⟨s, hs, _, hstores⟩ := haccess.store
  rw [held, hstores, Function.update_self, Option.bind_some]
  by_cases hkey : other = key
  · rw [hkey]
    exact hlaw.deleted (hgood hs)
  · have hnone := hother.resolve_left hkey
    rw [held, hs, Option.bind_some] at hnone
    have hne : (StoreOp.delete key).key? ≠ some other := by
      simpa [StoreOp.key?] using Ne.symm hkey
    exact (hlaw.other (hgood hs) hne).elim id fun hsame => hsame.trans hnone

theorem Accessed.get_found_after {middle : Grid σ} {fetched : StoreResult}
    (hsecond : Accessed impl middle h (clock, .get key) fetched after)
    (hlaw : LossyLedger impl codec good contents)
    (hgood : ∀ {c s}, g.stores c = some s → good s)
    (hfirst : Accessed impl g c call result middle) (hne : h ≠ c) :
    fetched.found =
      (g.copyAt contents (clock.now 0) h key).map Record.value := by
  obtain ⟨s, hs, hresult, _⟩ := hsecond.cases
  rw [hfirst.stores_of_ne hne] at hs
  rw [hresult, hlaw.get_found (hgood hs)]
  simp [copyAt, hs]

/-- What a near cache finds is its own copy, or else the owner's. -/
theorem NearGet.found_eq {n : CacheNode σ} {choices : ℕ → Choice}
    {found : Option Bytes}
    (hget : NearGet impl g c key n.frame choices found after)
    (hlaw : LossyLedger impl codec good contents) (hstable : g.Stable owner)
    (hgood : ∀ {c s}, g.stores c = some s → good s)
    (hnode : g.nodes c = some n)
    (hmono : (choices 0).clock.now 0 ≤ (choices 1).clock.now 0) :
    found = ((g.copyAt contents ((choices 0).clock.now 0) c key).or
      (g.copyAt contents ((choices 1).clock.now 0) (owner key) key)).map
        Record.value := by
  have hhome := hstable.home hnode key
  have hne : n.frame.ownerAddr key ≠ [] → g.home c key ≠ c := fun hremote =>
    hhome ▸ mt (hstable.ownerAddr_eq_nil_iff hnode key).mpr hremote
  cases hget with
  | hit hfirst hfound =>
    rw [hfirst.get_found hlaw hgood, Option.map_eq_some_iff] at hfound
    obtain ⟨r, hcopy, rfl⟩ := hfound
    simp [hcopy]
  | alone hfirst hfound hlocal =>
    rw [hfirst.get_found hlaw hgood, Option.map_eq_none_iff] at hfound
    have howner := (hstable.ownerAddr_eq_nil_iff hnode key).mp hlocal
    rw [hfound, howner, copyAt_mono hmono hfound]
    rfl
  | absent hfirst hfound hremote hsecond hfetched =>
    rw [hfirst.get_found hlaw hgood, Option.map_eq_none_iff] at hfound
    rw [hfound, Option.none_or, ← hhome, ← hsecond.get_found_after hlaw
      hgood hfirst (hne hremote), hfetched]
  | filled hfirst hfound hremote hsecond hfetched hthird =>
    rw [hfirst.get_found hlaw hgood, Option.map_eq_none_iff] at hfound
    rw [hfound, Option.none_or, ← hhome, ← hsecond.get_found_after hlaw
      hgood hfirst (hne hremote), hfetched]

end Copies

section Replies

variable {impl : StoreImpl σ} {z : Serializer V D} {codec : Msgpack}
  {good : σ → Prop} {contents : σ → Contents GoString Bytes}
  {g middle after : Grid σ} {owner : GoString → GoString}
  {c key : GoString} {n : CacheNode σ}
  (hlaw : LossyLedger impl codec good contents) (hstable : g.Stable owner)
  (hgood : ∀ {c s}, g.stores c = some s → good s)
  (hnode : g.nodes c = some n)

include hlaw hstable hgood hnode

theorem Stable.exists_reply (hkey : key ≠ []) {timeline : Timeline}
    (hreliable : timeline.Reliable) :
    (step impl z g (.call c (.exists key) timeline)).1 =
      some (.present (g.copyAt contents
        ((timeline.choice 0).clock.now 0) (owner key) key).isSome) := by
  obtain ⟨m, hhome, hopen⟩ := hstable.owner_node key
  rw [← hstable.home hnode] at hhome
  obtain ⟨result, final, haccess, halone⟩ := @alone_exists σ impl g c key n m
    timeline.choice hnode (hstable.open hnode) hkey hhome hopen (hreliable 0)
  have hstep : step impl z g (.call c (.exists key) timeline) = _ :=
    step_call (Prog.alone_map_of_eq halone)
  obtain ⟨s, hs, hresult, _⟩ := haccess.cases
  rw [hstep, hresult, hlaw.exists_ok (hgood hs)]
  rw [hstable.home hnode] at hs
  simp [copyAt, hs]

theorem Stable.ttl_reply (hkey : key ≠ []) {t : ℤ}
    (hdeadline : ∀ s r, g.stores c = some s → contents s key = some r →
      r.deadline ≠ some t) :
    ∃ d, (step impl z g (.call c (.ttl key) (.instant t))).1 =
        some (.remaining d) ∧
      (d = 0 ↔ g.copyAt contents t c key = none) := by
  obtain ⟨result, final, haccess, halone⟩ := @alone_ttl σ impl g c key n
    (Timeline.instant t).choice hnode (hstable.open hnode) hkey
  have hstep : step impl z g (.call c (.ttl key) (.instant t)) = _ :=
    step_call (Prog.alone_map_of_eq halone)
  obtain ⟨s, hs, hresult, _⟩ := haccess.cases
  refine ⟨result.ttl, by rw [hstep], ?_⟩
  rw [hresult]
  simp only [copyAt, hs, Option.bind_some]
  exact hlaw.ttl_eq_zero_iff (hgood hs) fun r hr => hdeadline s r hs hr

theorem Stable.alone_distributedGet {choices : ℕ → Choice}
    (hmono : (choices 0).clock.now 0 ≤ (choices 1).clock.now 0)
    (hreliable : ∀ i, (choices i).rpc = .answered) :
    ∃ found rest final,
      found = (g.recordRead contents owner n.config.mode choices c key).map
        Record.value ∧
      final.frame = g.frame ∧
      (distributedGet c key).alone (machine impl) Op.timed choices g =
        some (found, rest, final) := by
  obtain ⟨m, hhome, hopen⟩ := hstable.owner_node key
  rw [← hstable.home hnode] at hhome
  unfold recordRead
  cases hmode : n.config.mode with
  | partitioned =>
    obtain ⟨result, final, haccess, halone⟩ :=
      @alone_distributedGet_partitioned σ impl g c key n m choices hnode
        hmode hhome hopen (hreliable 0)
    refine ⟨_, _, _, ?_, haccess.frame_eq, halone⟩
    rw [← hstable.home hnode]
    exact haccess.get_found hlaw hgood
  | replicated =>
    obtain ⟨result, final, haccess, halone⟩ :=
      @alone_distributedGet_replicated σ impl g c key n choices hnode hmode
    exact ⟨_, _, _, haccess.get_found hlaw hgood, haccess.frame_eq,
      halone⟩
  | nearCache =>
    obtain ⟨found, rest, final, hget, halone⟩ :=
      @alone_distributedGet_nearCache σ impl g c key n m choices hnode
        hmode hhome hopen (hreliable 1)
    refine ⟨_, _, _, ?_, hget.frame_eq, halone⟩
    exact hget.found_eq hlaw hstable hgood hnode hmono

theorem Stable.get_reply (hkey : key ≠ []) (dest : Dest D)
    {timeline : Timeline} (hreliable : timeline.Reliable) :
    (step impl z g (.call c (.get key dest) timeline)).1 =
      some (.got ((g.recordRead contents owner n.config.mode timeline.choice c
        key).bind fun r => (z.deserialize r.value dest).toOption)) := by
  have hmono : (timeline.choice 0).clock.now 0 ≤
      (timeline.choice 1).clock.now 0 :=
    (((timeline.choice 0).clock.le_finish 0).trans (timeline.ordered 0)).trans
      ((timeline.choice 1).clock.start_le 0)
  obtain ⟨found, rest, middle, hfound, hframe, hrun⟩ :=
    hstable.alone_distributedGet hlaw hgood hnode hmono hreliable
  obtain ⟨final, _, halone⟩ := @alone_get σ V D impl z g middle c key n
    timeline.choice rest hnode (hstable.open hnode) hkey dest found hrun
    hframe
  have hstep : step impl z g (.call c (.get key dest) timeline) = _ :=
    step_call (Prog.alone_map_of_eq halone)
  rw [hstep, hfound, Option.bind_map]
  rfl

end Replies

/-! ## Existence and remaining time -/

/-- Away from deadlines, TTL and Exists agree at a cache if it holds a live
copy just when the owner does, and only then. -/
theorem ttl_agrees_with_exists_iff {impl : StoreImpl σ}
    {z : Serializer V D} {good : σ → Prop}
    {contents : σ → Contents GoString Bytes}
    (hlaw : LossyLedger impl z.toMsgpack good contents)
    {start g : Grid σ} {owner : GoString → GoString}
    (hstable : start.Stable owner)
    (hgood : ∀ {c s}, start.stores c = some s → good s)
    {steps : List (Step σ V D)} (hsteps : ∀ step ∈ steps, step.Settled)
    (hg : (SequentialRuns.run (step impl z) start steps).2 = g)
    {c key : GoString} (hruns : (g.nodes c).isSome = true) {t : ℤ}
    (hdeadline : ∀ s r, g.stores c = some s → contents s key = some r →
      r.deadline ≠ some t) :
    ∃ d b, (step impl z g (.call c (.ttl key) (.instant t))).1 =
        some (.remaining d) ∧
      (step impl z g (.call c (.exists key) (.instant t))).1 =
        some (.present b) ∧
      ((d = 0 ↔ b = false) ↔ key = [] ∨
        ((g.copyAt contents t c key).isSome ↔
          (g.copyAt contents t (owner key) key).isSome)) := by
  have hsettles : Settles good start g := by
    rw [← hg]
    exact Settles.run hlaw ⟨rfl, hgood⟩ hsteps
  have hstable' := hstable.of_frame_eq hsettles.frame_eq
  obtain ⟨n, hnode⟩ := Option.isSome_iff_exists.mp hruns
  by_cases hkey : key = []
  · subst key
    exact ⟨0, false, rfl, rfl, by simp⟩
  · obtain ⟨d, httl, hzero⟩ := hstable'.ttl_reply (z := z) hlaw
      hsettles.good_store hnode hkey hdeadline
    refine ⟨d, _, httl, hstable'.exists_reply hlaw hsettles.good_store hnode
      hkey fun _ => rfl, ?_⟩
    rw [hzero, ← Option.not_isSome_iff_eq_none, Bool.eq_false_iff, not_iff_not]
    exact (or_iff_right hkey).symm

/-- A value that `a:1` has set and `b:1` owns, half way to its deadline at
`b:1`. -/
theorem ttl_agrees_with_exists_at_owner :
    let g := (SequentialRuns.run (step (MemoryStore.impl .int64) .basic)
      (twoCaches ⟨.partitioned, 0⟩ (MemoryStore.new 1 (by decide) 0 true true))
      [.call (ascii "a:1") (.set (ascii "k") (.int64 7) 10) (.instant 0)]).2
    ∃ d b, (step (MemoryStore.impl .int64) .basic g
          (.call (ascii "b:1") (.ttl (ascii "k")) (.instant 5))).1 =
        some (.remaining d) ∧
      (step (MemoryStore.impl .int64) .basic g
          (.call (ascii "b:1") (.exists (ascii "k")) (.instant 5))).1 =
        some (.present b) ∧ (d = 0 ↔ b = false) := by
  intro g
  have hstore : (MemoryStore.new 1 (by decide) 0 true true).Sound :=
    MemoryStore.sound_new 1 (by decide) 0 true true
  have hdeadline : ((g.stores (ascii "b:1")).all fun s =>
      (s.contents (ascii "k")).all fun r => r.deadline ≠ some 5) = true := by
    decide +kernel
  obtain ⟨d, b, httl, hexists, hiff⟩ := @ttl_agrees_with_exists_iff _ _ _ _
    .basic _ _ (MemoryStore.lossyLedger .int64) _ g _
    (twoCaches_stable ⟨.partitioned, 0⟩ _)
    (fun hs => twoCaches_stores hs ▸ hstore)
    [.call (ascii "a:1") (.set (ascii "k") (.int64 7) 10) (.instant 0)]
    (by simp [Step.Settled]) rfl (ascii "b:1") (ascii "k")
    (by decide +kernel) 5 (by
      intro s r hs hr
      simpa [hs, hr] using hdeadline)
  exact ⟨d, b, httl, hexists, hiff.mpr (Or.inr (by decide +kernel))⟩

/-- The cache that has just set a key of another one finds that it exists and
has no time left. -/
theorem ttl_zero_where_exists :
    let g := (SequentialRuns.run (step (MemoryStore.impl .int64) .basic)
      (twoCaches ⟨.partitioned, 0⟩ (MemoryStore.new 1 (by decide) 0 true true))
      [.call (ascii "a:1") (.set (ascii "k") (.int64 7) 10) (.instant 0)]).2
    (step (MemoryStore.impl .int64) .basic g
        (.call (ascii "a:1") (.ttl (ascii "k")) (.instant 5))).1 =
      some (.remaining 0) ∧
    (step (MemoryStore.impl .int64) .basic g
        (.call (ascii "a:1") (.exists (ascii "k")) (.instant 5))).1 =
      some (.present true) := by
  decide +kernel

end Grid

end CacheGrid
