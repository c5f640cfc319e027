import CacheGrid.CallOperations
import CacheGrid.PartitionedMap

/-!
# Caches with their own clocks

The caches of a cluster run on different machines, and nothing synchronizes
their clocks.  All that is assumed of time is that the clock of each cache does
not run backwards: an access to the store of a cache begins after the last one
there has ended.

A record is held by the owner of its key alone, so it is the owner's clock that
decides when it is dead.  Up to such records, the stores of a partitioned
cluster hold one map.
-/

namespace CacheGrid

open InterleavedPrograms TimedMap

namespace Grid

variable {σ : Type}

/-- A grid, with the last reading of the clock of every cache. -/
structure Clocked (σ : Type) where
  grid : Grid σ
  clocks : GoString → ℤ

/-- The cache whose clock an operation reads, if it gets to a store. -/
def Op.reading (choice : Choice) : Op → Option (GoString × Readings)
  | .store c _ => some (c, choice.clock)
  | .call addr _ => some (addr, choice.clock)
  | _ => none

def Env.reading (g : Grid σ) : Env σ → Option (GoString × Readings)
  | .sweep c clock => some (c, clock)
  | .deliver i choice =>
    (g.messages[i]?).map fun message => (message.1, choice.clock)
  | _ => none

namespace Clocked

/-- The clocks after an access, which does not begin in the past. -/
def tick (s : Clocked σ) :
    Option (GoString × Readings) → Option (GoString → ℤ)
  | none => some s.clocks
  | some (c, clock) =>
    if s.clocks c ≤ clock.start then
      some (Function.update s.clocks c clock.finish)
    else none

def exec (impl : StoreImpl σ) (s : Clocked σ) (op : Op) (choice : Choice) :
    Option (op.Answer × Clocked σ) :=
  (s.tick (op.reading choice)).bind fun clocks =>
    (Grid.exec impl s.grid op choice).map fun r => (r.1, ⟨r.2, clocks⟩)

def envStep (impl : StoreImpl σ) (s : Clocked σ) (event : Env σ) :
    Option (Clocked σ) :=
  (s.tick (event.reading s.grid)).bind fun clocks =>
    (Grid.envStep impl s.grid event).map fun g => ⟨g, clocks⟩

def machine (impl : StoreImpl σ) :
    Semantics signature (Clocked σ) Choice (Env σ) where
  exec := exec impl
  env := envStep impl

variable {impl : StoreImpl σ} {s after : Clocked σ}

theorem exec_cases {op : Op} {choice : Choice} {answer : op.Answer}
    (hexec : (machine impl).exec s op choice = some (answer, after)) :
    s.tick (op.reading choice) = some after.clocks ∧
      (Grid.machine impl).exec s.grid op choice =
        some (answer, after.grid) := by
  obtain ⟨clocks, htick, hmap⟩ := Option.bind_eq_some_iff.mp hexec
  obtain ⟨⟨answer', g⟩, hgrid, heq⟩ := Option.map_eq_some_iff.mp hmap
  cases heq
  exact ⟨htick, hgrid⟩

theorem envStep_cases {event : Env σ}
    (hstep : (machine impl).env s event = some after) :
    s.tick (event.reading s.grid) = some after.clocks ∧
      Grid.envStep impl s.grid event = some after.grid := by
  obtain ⟨clocks, htick, hmap⟩ := Option.bind_eq_some_iff.mp hstep
  obtain ⟨g, hgrid, rfl⟩ := Option.map_eq_some_iff.mp hmap
  exact ⟨htick, hgrid⟩

theorem tick_some {c : GoString} {clock : Readings} {clocks : GoString → ℤ}
    (htick : s.tick (some (c, clock)) = some clocks) :
    s.clocks c ≤ clock.start ∧
      clocks = Function.update s.clocks c clock.finish := by
  simp only [tick, Option.ite_none_right_eq_some, Option.some.injEq] at htick
  exact ⟨htick.1, htick.2.symm⟩

theorem tick_le {reading : Option (GoString × Readings)}
    {clocks : GoString → ℤ} (htick : s.tick reading = some clocks)
    (c : GoString) : s.clocks c ≤ clocks c := by
  cases reading with
  | none => exact (Option.some.inj htick) ▸ le_rfl
  | some reading =>
    obtain ⟨hstart, rfl⟩ := tick_some htick
    by_cases hc : c = reading.1
    · subst hc
      rw [Function.update_self]
      exact hstart.trans reading.2.start_le_finish
    · rw [Function.update_of_ne hc]

end Clocked

/-! ## The map that the caches hold -/

section Spread

variable {impl : StoreImpl σ} {codec : Msgpack} {good : σ → Prop}
  {contents : σ → Contents GoString Bytes} {owner : GoString → GoString}
  {config : CacheConfig} {start : Grid σ} {s after : Clocked σ}
  {full : Contents GoString Bytes} {c key : GoString} {clock : Readings}
  {op : StoreOp} {result : StoreResult}

/-- The stores of a partitioned cluster hold `full`, up to records that are
dead for their owners: each key on its owner, and nowhere else.  Since the
start no frame has changed, and no message is on its way. -/
structure Spread (good : σ → Prop) (contents : σ → Contents GoString Bytes)
    (owner : GoString → GoString) (config : CacheConfig) (start : Grid σ)
    (s : Clocked σ) (full : Contents GoString Bytes) : Prop where
  frame_eq : s.grid.frame = start.frame
  messages_eq : s.grid.messages = []
  stable : s.grid.Stable owner
  config_eq : ∀ {c f}, s.grid.frame c = some f → f.config = config
  good_store : ∀ {c st}, s.grid.stores c = some st → good st
  held : ∀ {st} key, s.grid.stores (owner key) = some st →
    SameFrom (s.clocks (owner key)) (contents st key) (full key)
  nowhere_else : ∀ {c st} key, s.grid.stores c = some st → c ≠ owner key →
    contents st key = none

theorem Spread.same (hspread : Spread good contents owner config start s full)
    (hsame : Same s.grid after.grid)
    (hle : ∀ c, s.clocks c ≤ after.clocks c) :
    Spread good contents owner config start after full where
  frame_eq := hsame.frame_eq.trans hspread.frame_eq
  messages_eq := hsame.messages_eq.trans hspread.messages_eq
  stable := hspread.stable.of_frame_eq hsame.frame_eq
  config_eq := fun hf => hspread.config_eq (congrFun hsame.frame_eq _ ▸ hf)
  good_store := fun hs => hspread.good_store (congrFun hsame.stores_eq _ ▸ hs)
  held := fun key hs =>
    (hspread.held key (congrFun hsame.stores_eq _ ▸ hs)).mono (hle _)
  nowhere_else := fun key hs =>
    hspread.nowhere_else key (congrFun hsame.stores_eq _ ▸ hs)

/-- What an access may do to the store at `c`, so that the caches hold `full'`
afterwards. -/
structure Rewrites (contents : σ → Contents GoString Bytes)
    (owner : GoString → GoString) (c : GoString) (finish : ℤ) (st st' : σ)
    (full full' : Contents GoString Bytes) : Prop where
  here : ∀ key, owner key = c → SameFrom finish (contents st key) (full key) →
    SameFrom finish (contents st' key) (full' key)
  absent : ∀ key, contents st key = none → owner key ≠ c →
    contents st' key = none
  elsewhere : ∀ key, owner key ≠ c → full' key = full key

section Steps

variable (hspread : Spread good contents owner config start s full)
  (hlaw : KeepsLedger impl codec good contents)

include hspread hlaw

theorem Spread.accessed
    (htick : s.tick (some (c, clock)) = some after.clocks)
    (haccess : Accessed impl s.grid c (clock, op) result after.grid)
    {full' : Contents GoString Bytes}
    (hrewrites : ∀ st, s.grid.stores c = some st →
      Rewrites contents owner c clock.finish st
        (impl.call st (clock, op)).2 full full') :
    Spread good contents owner config start after full' := by
  obtain ⟨st, hstore, _, hcases⟩ := haccess.cases
  obtain ⟨hstart, hclocks⟩ := Clocked.tick_some htick
  have hrewrites := hrewrites st hstore
  have hgood := hspread.good_store hstore
  constructor
  · exact haccess.frame_eq.trans hspread.frame_eq
  · exact haccess.messages_eq.trans hspread.messages_eq
  · exact hspread.stable.of_frame_eq haccess.frame_eq
  · exact fun hf => hspread.config_eq (congrFun haccess.frame_eq _ ▸ hf)
  · intro d st' hst'
    rcases hcases hst' with ⟨rfl, rfl⟩ | ⟨_, hold⟩
    · exact hlaw.good_call hgood _
    · exact hspread.good_store hold
  · intro st' key hst'
    rw [hclocks]
    rcases hcases hst' with ⟨howner, rfl⟩ | ⟨hne, hold⟩
    · have hheld := hspread.held key (howner ▸ hstore)
      rw [howner] at hheld ⊢
      rw [Function.update_self]
      exact hrewrites.here key howner
        (hheld.mono (hstart.trans clock.start_le_finish))
    · rw [Function.update_of_ne hne, hrewrites.elsewhere key hne]
      exact hspread.held key hold
  · intro d st' key hst' hne
    rcases hcases hst' with ⟨rfl, rfl⟩ | ⟨_, hold⟩
    · exact hrewrites.absent key
        (hspread.nowhere_else key hstore hne) hne.symm
    · exact hspread.nowhere_else key hold hne

theorem Spread.access
    (htick : s.tick (some (owner key, clock)) = some after.clocks)
    (hkey : op.key? = some key)
    (haccess : Accessed impl s.grid (owner key) (clock, op) result
      after.grid) :
    (op ≠ .delete key →
        result = (mapAccess codec full clock op key).1) ∧
      Spread good contents owner config start after
        (mapAccess codec full clock op key).2 := by
  obtain ⟨hstart, _⟩ := Clocked.tick_some htick
  constructor
  · intro hdelete
    obtain ⟨st, hstore, hresult, _⟩ := haccess.cases
    rw [hresult, hlaw.result_eq (hspread.good_store hstore) hkey]
    exact (cellStep_sameFrom codec hstart hkey
      (hspread.held key hstore)).1 hdelete
  · refine hspread.accessed hlaw htick haccess fun st hstore => ?_
    have hcontents : contents (impl.call st (clock, op)).2 =
        Function.update (contents st) key
          (cellStep codec clock op (contents st key)).2 :=
      hlaw.contents_eq (hspread.good_store hstore) hkey
    constructor
    · intro other _ hsame
      rw [hcontents]
      simp only [mapAccess]
      by_cases hother : other = key
      · subst other
        rw [Function.update_self, Function.update_self]
        exact (cellStep_sameFrom codec hstart hkey
          (hspread.held key hstore)).2
      · rw [Function.update_of_ne hother, Function.update_of_ne hother]
        exact hsame
    · intro other hnone hne
      have hother : other ≠ key := fun heq => hne (heq ▸ rfl)
      rw [hcontents, Function.update_of_ne hother]
      exact hnone
    · intro other hne
      have hother : other ≠ key := fun heq => hne (heq ▸ rfl)
      exact Function.update_of_ne hother _ _

theorem Spread.drops
    (htick : s.tick (some (c, clock)) = some after.clocks)
    (haccess : Accessed impl s.grid c (clock, op) result after.grid)
    (hdrops : ∀ st, good st → ∀ key,
      contents (impl.call st (clock, op)).2 key = contents st key ∨
        contents (impl.call st (clock, op)).2 key = none ∧
          ∀ r, contents st key = some r → r.dead clock.finish = true) :
    Spread good contents owner config start after full := by
  refine hspread.accessed hlaw htick haccess fun st hstore => ?_
  have hdrops := hdrops st (hspread.good_store hstore)
  constructor
  · intro key _ hsame
    rcases hdrops key with hkept | ⟨hnone, hdead⟩
    · rwa [hkept]
    · rw [hnone]
      exact hsame.drop hdead
  · intro key hnone _
    rcases hdrops key with hkept | ⟨hgone, _⟩
    · rw [hkept, hnone]
    · exact hgone
  · exact fun _ _ => rfl

theorem Spread.read
    (htick : s.tick (some (c, clock)) = some after.clocks)
    (hkey : op.key? = some key) (hread : op.reads = true)
    (haccess : Accessed impl s.grid c (clock, op) result after.grid) :
    Spread good contents owner config start after full := by
  refine hspread.drops hlaw htick haccess fun st hgood other => ?_
  rw [hlaw.contents_eq hgood hkey]
  by_cases hother : other = key
  · subst other
    rw [Function.update_self]
    rcases cellStep_read_drops codec clock hread (contents st key) with
      hsame | ⟨hnone, hdead⟩
    · exact Or.inl hsame
    · exact Or.inr ⟨hnone, fun r hr =>
        Record.dead_mono (clock.le_finish 0) (hdead r hr)⟩
  · exact Or.inl (Function.update_of_ne hother _ _)

/-- What the environment does while no cache starts, stops or changes its view
of the cluster. -/
def Env.steady : Env σ → Bool
  | .start _ _ => false
  | .notify _ _ => false
  | .shutdown _ => false
  | _ => true

theorem Spread.env {event : Env σ} (hsteady : event.steady = true)
    (hstep : (Clocked.machine impl).env s event = some after) :
    Spread good contents owner config start after full := by
  obtain ⟨htick, hgrid⟩ := Clocked.envStep_cases hstep
  cases event with
  | start c n => contradiction
  | notify c change => contradiction
  | shutdown c => contradiction
  | sweep c clock =>
    have hcases := @sweep_cases σ impl s.grid c clock
    rw [hgrid, Option.getD_some] at hcases
    rcases hcases with hsame | ⟨result, haccess⟩
    · exact hspread.same hsame (Clocked.tick_le htick)
    · exact hspread.drops hlaw htick haccess fun st hgood =>
        hlaw.swept hgood clock
  | callback c i =>
    have hsame := @same_callback σ impl s.grid c i
    rw [hgrid, Option.getD_some] at hsame
    exact hspread.same hsame (Clocked.tick_le htick)
  | deliver i choice =>
    simp [Grid.envStep, deliver, hspread.messages_eq] at hgrid

end Steps

end Spread

end Grid

end CacheGrid
