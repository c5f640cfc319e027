import CacheGrid.PartitionedMap
import Mathlib.Data.List.ReduceOption

/-!
# A partitioned cluster is one map

Calls that are issued one after the other at any caches of a partitioned
cluster get the replies of one local cache: both run the same calls on a
single map, and neither sweeps nor the choice of the caches can be noticed.
-/

namespace CacheGrid

open InterleavedPrograms SequentialRuns TimedMap

namespace Grid

/-! ## Whole runs -/

section Runs

variable {σ V D : Type}

/-- A step that a run of a settled cluster may take at `now`: a call, issued
at one of the caches, whose RPCs are all answered, a sweep, or a callback. -/
def Step.Admitted (g : Grid σ) (now : ℤ) : Step σ V D → Prop
  | .call c request timeline => (g.frame c).isSome = true ∧
      (∀ key, request ≠ .ttl key) ∧ timeline.Reliable ∧ now ≤ timeline.start
  | .env (.sweep _ clock) => now ≤ clock.start
  | .env (.callback _ _) => True
  | .env _ => False

def Step.finish (now : ℤ) : Step σ V D → ℤ
  | .call _ _ timeline => timeline.finish
  | .env (.sweep _ clock) => clock.finish
  | .env _ => now

/-- Each step begins when the one before it has ended. -/
def InOrder (g : Grid σ) : ℤ → List (Step σ V D) → Prop
  | _, [] => True
  | now, step :: steps =>
    step.Admitted g now ∧ InOrder g (step.finish now) steps

def issued (steps : List (Step σ V D)) :
    List (GoString × CacheCall V D × Timeline) :=
  steps.filterMap fun
    | .call c call timeline => some (c, call, timeline)
    | .env _ => none

variable {impl : StoreImpl σ} {z : Serializer V D} {good : σ → Prop}
  {contents : σ → Contents GoString Bytes} {owner : GoString → GoString}
  {config : CacheConfig}

variable {now : ℤ}

theorem Represents.envStep {start g : Grid σ} {full : Contents GoString Bytes}
    (hrep : Represents good contents owner config start now g full)
    (hlaw : KeepsLedger impl z.toMsgpack good contents) {event : Env σ}
    (hadmitted : (Step.env event : Step σ V D).Admitted start now) :
    Represents good contents owner config start
      ((Step.env event : Step σ V D).finish now)
      ((Grid.envStep impl g event).getD g) full := by
  cases event with
  | sweep c clock =>
    change Represents good contents owner config start clock.finish _ full
    rcases @sweep_cases σ impl g c clock with hsame | ⟨result, haccess⟩
    · exact (hrep.mono (le_trans hadmitted clock.start_le_finish)).same
        hsame
    · exact hrep.sweep hlaw hadmitted haccess
  | callback c i => exact hrep.same (same_callback i)
  | start c n => exact absurd hadmitted id
  | notify c event => exact absurd hadmitted id
  | shutdown c => exact absurd hadmitted id
  | deliver i choice => exact absurd hadmitted id

variable {steps : List (Step σ V D)}

/-- A run of a partitioned cluster gives the replies of one map. -/
theorem Represents.run {start g : Grid σ} {full : Contents GoString Bytes}
    (hrep : Represents good contents owner config start now g full)
    (hlaw : KeepsLedger impl z.toMsgpack good contents)
    (htexts : z.toMsgpack.ErrorsHaveText) (hmode : config.mode = .partitioned)
    (horder : InOrder start now steps) :
    (SequentialRuns.run (step impl z) g steps).1.reduceOption =
        List.zipWith (fun call reply => seenFrom owner call.1 call.2.1 reply)
          (issued steps)
          (SequentialRuns.run (mapCall z config) full
            ((issued steps).map Prod.snd)).1 ∧
      ∃ now' full', Represents good contents owner config start now'
        (SequentialRuns.run (step impl z) g steps).2 full' := by
  induction steps generalizing now g full with
  | nil => exact ⟨rfl, now, full, hrep⟩
  | cons step steps ih =>
    obtain ⟨hadmitted, hrest⟩ := horder
    cases step with
    | call c call timeline =>
      obtain ⟨hruns, httl, hreliable, hstart⟩ := hadmitted
      rw [← hrep.frame_eq] at hruns
      obtain ⟨f, hf⟩ := Option.isSome_iff_exists.mp hruns
      obtain ⟨n, hnode, _⟩ := Option.map_eq_some_iff.mp hf
      obtain ⟨rest, after, halone, hafter⟩ := hrep.call hlaw hmode
        (Timeline.paced hstart hreliable) hnode htexts httl
      obtain ⟨hreplies, hfinal⟩ := ih hafter hrest
      simp only [SequentialRuns.run, step_call halone,
        List.reduceOption_cons_of_some, hreplies]
      exact ⟨rfl, hfinal⟩
    | env event =>
      obtain ⟨hreplies, hfinal⟩ :=
        ih (hrep.envStep hlaw hadmitted) hrest
      simp only [SequentialRuns.run, Grid.step,
        List.reduceOption_cons_of_none, hreplies]
      exact ⟨rfl, hfinal⟩

theorem represents_fresh {g : Grid σ} (hstable : g.Stable owner)
    (hconfig : ∀ {c f}, g.frame c = some f → f.config = config)
    (hfresh : ∀ {c s}, g.stores c = some s →
      good s ∧ contents s = fun _ => none) (now : ℤ) :
    Represents good contents owner config g now g fun _ => none where
  frame_eq := rfl
  stable := hstable
  config_eq := hconfig
  good_store := fun hs => (hfresh hs).1
  held := by
    intro s key hs
    rw [(hfresh hs).2]
    exact SameFrom.refl _ _
  nowhere_else := by
    intro c s key hs _
    rw [(hfresh hs).2]

theorem seenFrom_own (owner : GoString → GoString) {c : GoString}
    (hown : ∀ key, owner key = c) (call : CacheCall V D)
    (reply : CacheReply V) : seenFrom owner c call reply = reply := by
  have hcarried : ∀ key, carried (owner key) c reply = reply := by
    intro key
    unfold carried
    split
    · rw [if_pos (hown key)]
    · rfl
  cases call <;> first | rfl | exact hcarried _

theorem InOrder.issued_at {g : Grid σ} (horder : InOrder g now steps) :
    ∀ call ∈ issued steps, ∃ f, g.frame call.1 = some f := by
  induction steps generalizing now with
  | nil => simp [issued]
  | cons step steps ih =>
    intro call hcall
    cases step with
    | call c request timeline =>
      rcases List.mem_cons.mp hcall with rfl | hrest
      · exact Option.isSome_iff_exists.mp horder.1.1
      · exact ih horder.2 call hrest
    | env event => exact ih horder.2 call hcall

theorem zipWith_eq_right {α β : Type} {f : α → β → β} {l : List α}
    {r : List β} (hlength : r.length = l.length)
    (hf : ∀ a ∈ l, ∀ b, f a b = b) : List.zipWith f l r = r := by
  induction l generalizing r with
  | nil =>
    rw [List.length_nil, List.length_eq_zero_iff] at hlength
    rw [hlength]
    rfl
  | cons a l ih =>
    cases r with
    | nil => rfl
    | cons b r =>
      rw [List.zipWith_cons_cons, hf a List.mem_cons_self,
        ih (Nat.succ.inj hlength)
          fun a' ha' => hf a' (List.mem_cons_of_mem _ ha')]

theorem run_launchLocal {store : σ}
    (hlaw : KeepsLedger impl z.toMsgpack good contents)
    (htexts : z.toMsgpack.ErrorsHaveText) (hmode : config.mode = .partitioned)
    (hstore : good store ∧ contents store = fun _ => none)
    (horder : InOrder (launchLocal config store) now steps) :
    (SequentialRuns.run (step impl z) (launchLocal config store)
        steps).1.reduceOption =
      (SequentialRuns.run (mapCall z config) (fun _ => none)
        ((issued steps).map Prod.snd)).1 := by
  have hnode : ∀ {c n}, (launchLocal config store).nodes c = some n →
      n.config = config ∧ n.store = store := by
    intro c n hn
    simp only [launchLocal, Option.ite_none_right_eq_some,
      Option.some.injEq] at hn
    obtain ⟨_, rfl⟩ := hn
    exact ⟨rfl, rfl⟩
  have hrep : Represents good contents (fun _ => []) config
      (launchLocal config store) now (launchLocal config store)
      fun _ => none := by
    refine represents_fresh (launchLocal_stable config store) ?_ ?_ now
    · intro c f hf
      obtain ⟨n, hn, rfl⟩ := Option.map_eq_some_iff.mp hf
      exact (hnode hn).1
    · intro c s hs
      obtain ⟨n, hn, rfl⟩ := Option.map_eq_some_iff.mp hs
      rw [(hnode hn).2]
      exact hstore
  rw [(hrep.run hlaw htexts hmode horder).1]
  apply zipWith_eq_right
  · rw [run_results_length, List.length_map]
  · intro call hcall reply
    obtain ⟨f, hf⟩ := horder.issued_at call hcall
    have hlocal : call.1 = [] := by
      by_contra hne
      simp [frame, launchLocal, hne] at hf
    exact seenFrom_own _ (fun _ => hlocal.symm) _ _

/-- Calls issued one after the other at any caches of a partitioned cluster
get the replies that one local cache gives, but for the text of an error that
comes from the owner; every key is stored on its owner only. -/
theorem partitioned_transparent
    (hlaw : KeepsLedger impl z.toMsgpack good contents)
    (htexts : z.toMsgpack.ErrorsHaveText)
    (hmode : config.mode = .partitioned) {vnodes : ℤ}
    {names : List GoString} {addr : GoString → GoString} {g : Grid σ}
    (hassembled : g.Assembled (ringOf vnodes names) addr)
    (hnames : ∀ name ∈ names, name ≠ []) (hsome : names ≠ [])
    (hconfig : ∀ {c f}, g.frame c = some f → f.config = config)
    (hfresh : ∀ {c s}, g.stores c = some s →
      good s ∧ contents s = fun _ => none)
    {store : σ} (hstore : good store ∧ contents store = fun _ => none)
    {now : ℤ} {steps localSteps : List (Step σ V D)}
    (horder : InOrder g now steps)
    (hlocalOrder : InOrder (launchLocal config store) now localSteps)
    (hsame : (issued steps).map Prod.snd =
      (issued localSteps).map Prod.snd) :
    (SequentialRuns.run (step impl z) g steps).1.reduceOption =
        List.zipWith (fun call reply => seenFrom
            (fun key => addr ((ringOf vnodes names).getNode key)) call.1
            call.2.1 reply)
          (issued steps)
          (SequentialRuns.run (step impl z) (launchLocal config store)
            localSteps).1.reduceOption ∧
      ∀ c s key, (SequentialRuns.run (step impl z) g steps).2.stores c =
        some s → contents s key ≠ none →
          c = addr ((ringOf vnodes names).getNode key) := by
  have hrep := represents_fresh (hassembled.stable_ringOf hnames hsome)
    hconfig hfresh now
  obtain ⟨hreplies, now', full', hfinal⟩ :=
    hrep.run hlaw htexts hmode horder
  constructor
  · rw [run_launchLocal hlaw htexts hmode hstore hlocalOrder, ← hsame]
    exact hreplies
  · intro c s key hs hstored
    by_contra hne
    exact hstored (hfinal.nowhere_else key hs hne)

end Runs

theorem int64_errorsHaveText : Msgpack.int64.ErrorsHaveText where
  marshal := by simp [Msgpack.int64]
  unmarshal := by
    intro data text herror
    cases data with
    | nil =>
      obtain rfl := Except.error.inj herror
      decide
    | cons code rest =>
      unfold Msgpack.int64 at herror
      simp only at herror
      split at herror
      · contradiction
      split at herror
      · contradiction
      split at herror
      · -- a number that is cut off
        unfold Msgpack.readN at herror
        split at herror
        · contradiction
        split at herror
        · obtain rfl := Except.error.inj herror
          decide
        · obtain rfl := Except.error.inj herror
          decide
      · obtain rfl := Except.error.inj herror
        exact List.append_ne_nil_of_right_ne_nil _ (by decide)

/-- A counter that is created at one cache, raised at the other and read at
the first, with a sweep in between. -/
theorem partitioned_transparent_counter :
    let config : CacheConfig := ⟨.partitioned, 0⟩
    let store := MemoryStore.new 1 (by decide) 0 true true
    let steps : List (Step MemoryStore Empty Empty) :=
      [.call (ascii "a:1") (.set (ascii "k") (.int64 5) 0) (.instant 0),
        .call (ascii "b:1") (.incr (ascii "k") 3) (.instant 1),
        .env (.sweep (ascii "b:1") (.instant 2)),
        .call (ascii "a:1") (.get (ascii "k") .int64) (.instant 3)]
    let localSteps : List (Step MemoryStore Empty Empty) :=
      [.call [] (.set (ascii "k") (.int64 5) 0) (.instant 0),
        .call [] (.incr (ascii "k") 3) (.instant 1),
        .call [] (.get (ascii "k") .int64) (.instant 3)]
    (SequentialRuns.run (step (MemoryStore.impl .int64) .basic)
        (twoCaches config store) steps).1.reduceOption =
      List.zipWith (fun call reply => seenFrom
          (fun key => addrOfTwo
            ((ringOf 1 [ascii "n1", ascii "n2"]).getNode key))
          call.1 call.2.1 reply)
        (issued steps)
        (SequentialRuns.run (step (MemoryStore.impl .int64) .basic)
          (launchLocal config store) localSteps).1.reduceOption := by
  intro config store steps localSteps
  have hempty : store.Unlimited ∧ store.contents = fun _ => none :=
    ⟨MemoryStore.unlimited_new 1 (by decide) le_rfl true true,
      MemoryStore.contents_new 1 (by decide) 0 true true⟩
  have horder : InOrder (twoCaches config store) 0 steps :=
    ⟨⟨by decide +kernel, by simp, fun _ => rfl, le_rfl⟩,
      ⟨by decide +kernel, by simp, fun _ => rfl, by decide⟩,
      (by decide : (1 : ℤ) ≤ 2),
      ⟨by decide +kernel, by simp, fun _ => rfl, by decide⟩, trivial⟩
  have hlocalOrder : InOrder (launchLocal config store) 0 localSteps :=
    ⟨⟨rfl, by simp, fun _ => rfl, le_rfl⟩,
      ⟨rfl, by simp, fun _ => rfl, by decide⟩,
      ⟨rfl, by simp, fun _ => rfl, by decide⟩, trivial⟩
  refine (partitioned_transparent (MemoryStore.keepsLedger .int64)
    int64_errorsHaveText (show config.mode = .partitioned from rfl)
    (twoCaches_assembled config store) (by decide) (by decide) ?_ ?_ hempty
    horder hlocalOrder rfl).1
  · exact fun hf => twoCaches_config hf
  · intro c s hs
    rw [twoCaches_stores hs]
    exact hempty

/-- Set of the string "x" in msgpack and Incr of it, both at `a:1`: the error
comes from `b:1` and says so. -/
theorem remote_error_differs :
    let config : CacheConfig := ⟨.partitioned, 0⟩
    let store := MemoryStore.new 1 (by decide) 0 true true
    let steps (c : GoString) : List (Step MemoryStore Empty Empty) :=
      [.call c (.set (ascii "k") (.bytes [0xa1, 0x78]) 0) (.instant 0),
        .call c (.incr (ascii "k") 1) (.instant 1)]
    (SequentialRuns.run (step (MemoryStore.impl .int64) .basic)
        (twoCaches config store) (steps (ascii "a:1"))).1.reduceOption =
      [.stored none, .counter (.error (.plain (ascii
        ("transport: remote error from b:1: " ++
          "msgpack: invalid code=a1 decoding int64"))))] ∧
    (SequentialRuns.run (step (MemoryStore.impl .int64) .basic)
        (launchLocal config store) (steps [])).1.reduceOption =
      [.stored none, .counter (.error (.plain (ascii
        "msgpack: invalid code=a1 decoding int64")))] := by
  decide +kernel

end Grid

end CacheGrid
