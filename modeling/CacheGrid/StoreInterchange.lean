import CacheGrid.PebbleLedger
import CacheGrid.MemoryStoreLedger

/-!
# The two backends side by side

Both stores keep the same ledger as long as deadlines are exact, so a run of
calls, each at one instant, has the same results on both.  They part at the
two places where the disk store is not exact: it drops a record when TTL is
called at the very instant of its deadline, and a deadline beyond the range
of `UnixNano` wraps.
-/

namespace CacheGrid

open InterleavedPrograms SequentialRuns TimedMap

/-- A call on the disk store at one instant, with nobody else around. -/
def PebbleStore.step (codec : Msgpack) (store : PebbleStore)
    (call : ℤ × StoreOp) : Option StoreResult × PebbleStore :=
  match (PebbleStore.call codec call.2).solo PebbleStore.machine call.1
      store with
  | none => (none, store)
  | some (result, after) => (some result, after)

def MemoryStore.stepAt (codec : Msgpack) (m : MemoryStore)
    (call : ℤ × StoreOp) : Option StoreResult × MemoryStore :=
  let next := m.step codec (.instant call.1, call.2)
  (some next.1.1, next.2)

/-- A call at which both backends treat deadlines exactly. -/
def ExactCall (m : MemoryStore) (call : ℤ × StoreOp) : Prop :=
  PebbleStore.InRange call.1 ∧ PebbleStore.Exact m.contents call.1 call.2

structure SameRecords (now : ℤ) (m : MemoryStore) (store : PebbleStore) :
    Prop where
  unlimited : m.Unlimited
  ready : store.ReadyAt now
  contents_eq : store.contents = m.contents

theorem SameRecords.step {now : ℤ} {m : MemoryStore} {store : PebbleStore}
    (hsame : SameRecords now m store) {codec : Msgpack}
    (hmarshal : ∀ n, ∃ value, codec.marshal n = .ok value)
    {call : ℤ × StoreOp} (hlater : now ≤ call.1)
    (hexact : ExactCall m call) :
    (store.step codec call).1 = (m.stepAt codec call).1 ∧
      SameRecords call.1 (m.stepAt codec call).2
        (store.step codec call).2 := by
  have hready : store.ReadyAt call.1 :=
    ⟨hsame.ready.unlocked, hsame.ready.clock_le.trans hlater⟩
  obtain ⟨hunlimited, hresult, hcontents⟩ :=
    hsame.unlimited.step_ledger codec (.instant call.1, call.2)
  obtain ⟨result, after, hsolo, hready', hresult', hcontents'⟩ :=
    PebbleStore.call_ledger hready hexact.1 hmarshal m.shardIndex
      (hsame.contents_eq ▸ hexact.2)
  rw [hsame.contents_eq] at hresult' hcontents'
  simp only [PebbleStore.step, MemoryStore.stepAt, hsolo]
  exact ⟨congrArg some (hresult'.trans hresult.symm),
    hunlimited, hready', hcontents'.trans hcontents.symm⟩

theorem SameRecords.run {now : ℤ} {m : MemoryStore} {store : PebbleStore}
    (hsame : SameRecords now m store) {codec : Msgpack}
    (hmarshal : ∀ n, ∃ value, codec.marshal n = .ok value)
    {calls : List (ℤ × StoreOp)}
    (hinstants : (now :: calls.map Prod.fst).Pairwise (· ≤ ·))
    (hexact : Meets (MemoryStore.stepAt codec) ExactCall m calls) :
    (run (PebbleStore.step codec) store calls).1 =
      (run (MemoryStore.stepAt codec) m calls).1 := by
  induction calls generalizing now m store with
  | nil => rfl
  | cons call calls ih =>
    rw [List.map_cons, List.pairwise_cons] at hinstants
    have hlater := hinstants.1 call.1 List.mem_cons_self
    obtain ⟨hresult, hnext⟩ := hsame.step hmarshal hlater hexact.1
    simp only [SequentialRuns.run]
    rw [hresult, ih hnext hinstants.2 hexact.2]

/-- A run whose calls all treat deadlines exactly has the same results on an
unlimited memory store and on a disk store, both started empty. -/
theorem run_interchangeable {codec : Msgpack}
    (hmarshal : ∀ n, ∃ value, codec.marshal n = .ok value)
    {numShards : ℕ} (hpos : 0 < numShards) {limit : ℤ} (hlimit : limit ≤ 0)
    (onEvict onExpire : Bool) {start : ℤ} {calls : List (ℤ × StoreOp)}
    (hinstants : (start :: calls.map Prod.fst).Pairwise (· ≤ ·))
    (hexact : Meets (MemoryStore.stepAt codec) ExactCall
      (.new numShards hpos limit onEvict onExpire) calls) :
    (run (PebbleStore.step codec) (.new onExpire start) calls).1 =
      (run (MemoryStore.stepAt codec)
        (.new numShards hpos limit onEvict onExpire) calls).1 := by
  have hsame : SameRecords start
      (.new numShards hpos limit onEvict onExpire)
      (.new onExpire start) := by
    refine ⟨MemoryStore.unlimited_new numShards hpos hlimit onEvict onExpire,
      ⟨rfl, le_rfl⟩, ?_⟩
    rw [MemoryStore.contents_new]
    rfl
  exact hsame.run hmarshal hinstants hexact

/-- A counter and a record with a deadline, read, swept and read again. -/
theorem run_interchangeable_swept :
    let calls : List (ℤ × StoreOp) :=
      [(0, .set (ascii "k") (ascii "v") 5), (0, .incr (ascii "n") 7 0),
        (5, .get (ascii "k")), (6, .deleteExpired), (6, .get (ascii "k")),
        (7, .incr (ascii "n") 1 0)]
    (run (PebbleStore.step .int64) (.new true 0) calls).1 =
      (run (MemoryStore.stepAt .int64) (.new 4 (by decide) 0 true true)
        calls).1 := by
  apply run_interchangeable (fun n => ⟨_, rfl⟩) (by decide) le_rfl
  · decide
  · simp [Meets, ExactCall, PebbleStore.InRange, PebbleStore.Exact]

/-- Set with a ttl of 5 at 0, TTL at 5, Get at 5: the memory store still
returns the value, the disk store has dropped it. -/
theorem run_differs_at_deadline :
    let calls : List (ℤ × StoreOp) :=
      [(0, .set (ascii "k") (ascii "v") 5), (5, .ttl (ascii "k")),
        (5, .get (ascii "k"))]
    (run (MemoryStore.stepAt .int64) (.new 1 (by decide) 0 false false)
        calls).1 =
      [some .done, some (.remaining 0), some (.value (some (ascii "v")))] ∧
    (run (PebbleStore.step .int64) (.new false 0) calls).1 =
      [some .done, some (.remaining 0), some (.value none)] := by
  decide +kernel

end CacheGrid
