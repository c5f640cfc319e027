import CacheGrid.MemoryStore
import CacheGrid.ShardLedger

/-!
# The memory store refines the timed map

Without a size limit the shards together keep one ledger: every key lives in
the shard its hash selects and nowhere else.  The ledger is a trimming of the
timed map, so whatever the shards have dropped, and whenever they did so,
every read returns what the timed map answers.
-/

namespace CacheGrid

open SequentialRuns TimedMap

namespace MemoryStore

def contents (m : MemoryStore) : Contents GoString Bytes :=
  fun key => (m.getShard key).contents key

/-- No shard has a limit, and a shard holds only the keys routed to it. -/
structure Unlimited (m : MemoryStore) : Prop where
  invariant : ∀ s ∈ m.shards, s.Invariant
  maxSize_le : ∀ s ∈ m.shards, s.maxSize ≤ 0
  routed : ∀ i s, m.shards[i]? = some s →
    ∀ key, s.contents key ≠ none → m.shardIndex key = i

theorem getElem?_shardIndex (m : MemoryStore) (key : GoString) :
    m.shards[m.shardIndex key]? = some (m.getShard key) :=
  List.getElem?_eq_getElem (m.shardIndex_lt key)

theorem getShard_mem (m : MemoryStore) (key : GoString) :
    m.getShard key ∈ m.shards :=
  List.mem_of_getElem? (m.getElem?_shardIndex key)

variable {m : MemoryStore} {key : GoString}

theorem getShard_eq_of_getElem? {s : Shard}
    (hget : m.shards[m.shardIndex key]? = some s) : m.getShard key = s := by
  rw [getElem?_shardIndex, Option.some.injEq] at hget
  exact hget

theorem unlimited_new (numShards : ℕ) (hpos : 0 < numShards) {limit : ℤ}
    (hlimit : limit ≤ 0) (onEvict onExpire : Bool) :
    (new numShards hpos limit onEvict onExpire).Unlimited := by
  have hshard : ∀ s ∈ (new numShards hpos limit onEvict onExpire).shards,
      s = Shard.new limit onEvict onExpire := fun s hs =>
    List.eq_of_mem_replicate hs
  constructor
  · intro s hs
    rw [hshard s hs]
    exact Shard.invariant_new limit onEvict onExpire
  · intro s hs
    rw [hshard s hs]
    exact hlimit
  · intro i s hget key hsome
    rw [hshard s (List.mem_of_getElem? hget)] at hsome
    exact absurd rfl hsome

theorem contents_new (numShards : ℕ) (hpos : 0 < numShards) (limit : ℤ)
    (onEvict onExpire : Bool) :
    (new numShards hpos limit onEvict onExpire).contents = fun _ => none := by
  funext key
  have hshard := List.eq_of_mem_replicate
    ((new numShards hpos limit onEvict onExpire).getShard_mem key)
  unfold contents
  rw [hshard]
  rfl

/-! ## Calls with a key -/

variable {call : Readings × StoreOp}

theorem step_of_key (codec : Msgpack) (m : MemoryStore)
    (hkey : call.2.key? = some key) :
    m.step codec call = m.onShard codec key call := by
  obtain ⟨clock, op⟩ := call
  cases op with
  | deleteExpired => simp [StoreOp.key?] at hkey
  | _ =>
    obtain rfl := Option.some.inj hkey
    rfl

theorem setShard_getElem? (m : MemoryStore) (key : GoString) (s : Shard)
    (i : ℕ) :
    (m.setShard key s).shards[i]? =
      if m.shardIndex key = i then some s else m.shards[i]? := by
  simp only [setShard, List.getElem?_set, m.shardIndex_lt key, if_true]

theorem contents_setShard {s : Shard} {cell : Cell}
    (hcontents : s.contents =
      Function.update (m.getShard key).contents key cell) :
    (m.setShard key s).contents = Function.update m.contents key cell := by
  funext other
  have hget := setShard_getElem? m key s (m.shardIndex other)
  by_cases hindex : m.shardIndex key = m.shardIndex other
  · rw [if_pos hindex] at hget
    have hshard : (m.setShard key s).getShard other = s :=
      getShard_eq_of_getElem? hget
    have hsame : m.getShard key = m.getShard other :=
      getShard_eq_of_getElem? (hindex ▸ m.getElem?_shardIndex other)
    unfold contents
    rw [hshard, hcontents]
    by_cases hother : other = key
    · subst other
      simp only [Function.update_self]
    · simp only [Function.update_of_ne hother, hsame]
  · have hother : other ≠ key := fun heq => hindex (by rw [heq])
    rw [if_neg hindex, m.getElem?_shardIndex other] at hget
    have hshard : (m.setShard key s).getShard other = m.getShard other :=
      getShard_eq_of_getElem? hget
    rw [Function.update_of_ne hother]
    unfold contents
    rw [hshard]

theorem Unlimited.setShard (hunlimited : m.Unlimited) {s : Shard} {cell : Cell}
    (hinv : s.Invariant) (hmax : s.maxSize ≤ 0)
    (hcontents : s.contents =
      Function.update (m.getShard key).contents key cell) :
    (m.setShard key s).Unlimited := by
  constructor
  · intro t ht
    rcases List.mem_or_eq_of_mem_set ht with hold | rfl
    · exact hunlimited.invariant t hold
    · exact hinv
  · intro t ht
    rcases List.mem_or_eq_of_mem_set ht with hold | rfl
    · exact hunlimited.maxSize_le t hold
    · exact hmax
  · intro i t hget other hsome
    change m.shardIndex other = i
    rw [setShard_getElem?] at hget
    split at hget
    · rename_i hindex
      obtain rfl := Option.some.inj hget
      by_cases hother : other = key
      · rw [hother, hindex]
      · rw [hcontents, Function.update_of_ne hother] at hsome
        rw [← hindex]
        exact hunlimited.routed _ _ (m.getElem?_shardIndex key) other hsome
    · exact hunlimited.routed i t hget other hsome

theorem Unlimited.onShard (hunlimited : m.Unlimited) (codec : Msgpack)
    (hkey : call.2.key? = some key) :
    (m.onShard codec key call).2.Unlimited ∧
      (m.onShard codec key call).1.1 =
        (cellStep codec call.1 call.2 (m.contents key)).1 ∧
      (m.onShard codec key call).2.contents = Function.update m.contents key
        (cellStep codec call.1 call.2 (m.contents key)).2 := by
  have hmem := m.getShard_mem key
  have hinv := hunlimited.invariant _ hmem
  have hmax := hunlimited.maxSize_le _ hmem
  have hcell := hinv.step_followsCell hmax codec hkey
  have hsettings :=
    congrArg Prod.fst (Shard.step_settings codec (m.getShard key) call)
  have hmaxAfter : ((m.getShard key).step codec call).2.maxSize ≤ 0 :=
    hsettings.trans_le hmax
  exact ⟨hunlimited.setShard (hinv.step codec call) hmaxAfter
      hcell.contents_eq, hcell.result_eq,
    contents_setShard hcell.contents_eq⟩

/-! ## Sweeps -/

theorem sweepShards_getElem? (clock : Readings) (first : ℕ)
    (shards : List Shard) (i : ℕ) :
    (sweepShards clock first shards).2.2[i]? =
      shards[i]?.map fun s =>
        (s.deleteExpired (clock.skip (first + i))).2.2 := by
  induction shards generalizing first i with
  | nil => simp [sweepShards]
  | cons s rest ih =>
    cases i with
    | zero => simp [sweepShards]
    | succ i =>
      simp only [sweepShards, List.getElem?_cons_succ, ih]
      rw [show first + 1 + i = first + (i + 1) by omega]

def sweptFrom (clock : Readings) (first : ℕ) (shards : List Shard) :
    Set GoString :=
  { key | ∃ i s, shards[i]? = some s ∧
    key ∈ sweptKeys (fun _ => first + i) clock s.contents }

theorem sweptFrom_cons (clock : Readings) (first : ℕ) (s : Shard)
    (rest : List Shard) :
    sweptFrom clock first (s :: rest) =
      sweptKeys (fun _ => first) clock s.contents ∪
        sweptFrom clock (first + 1) rest := by
  ext key
  constructor
  · rintro ⟨i, t, hget, hswept⟩
    cases i with
    | zero =>
      obtain rfl := Option.some.inj hget
      exact Or.inl hswept
    | succ i =>
      refine Or.inr ⟨i, t, hget, ?_⟩
      rwa [show first + 1 + i = first + (i + 1) by omega]
  · rintro (hswept | ⟨i, t, hget, hswept⟩)
    · exact ⟨0, s, rfl, hswept⟩
    · refine ⟨i + 1, t, hget, ?_⟩
      rwa [show first + (i + 1) = first + 1 + i by omega]

theorem sweptKeys_finite (route : GoString → ℕ) (clock : Readings)
    (s : Shard) : (sweptKeys route clock s.contents).Finite := by
  apply (List.finite_toSet s.items.keys).subset
  rintro key ⟨r, hsome, _⟩
  obtain ⟨e, hlookup, _⟩ := Option.map_eq_some_iff.mp hsome
  exact AList.mem_keys.mp (AList.lookup_isSome.mp (by simp [hlookup]))

/-- Shards that share no key are swept independently, so the counts add up. -/
theorem sweepShards_count (clock : Readings) (first : ℕ)
    (shards : List Shard) (hinv : ∀ s ∈ shards, s.Invariant)
    (hapart : ∀ (i j : ℕ) (s t : Shard) (key : GoString),
      shards[i]? = some s → shards[j]? = some t →
      s.contents key ≠ none → t.contents key ≠ none → i = j) :
    (sweptFrom clock first shards).Finite ∧
      (sweepShards clock first shards).1 =
        (sweptFrom clock first shards).ncard := by
  induction shards generalizing first with
  | nil => simp [sweepShards, sweptFrom]
  | cons s rest ih =>
    have hrest := ih (first + 1)
      (fun t ht => hinv t (List.mem_cons_of_mem s ht))
      (fun i j t u key hi hj ht hu => Nat.succ_injective
        (hapart (i + 1) (j + 1) t u key hi hj ht hu))
    have hown := sweptKeys_finite (fun _ => first) clock s
    have hdisjoint : Disjoint
        (sweptKeys (fun _ => first) clock s.contents)
        (sweptFrom clock (first + 1) rest) := by
      rw [Set.disjoint_left]
      rintro key ⟨r, hr, _⟩ ⟨i, t, hget, r', hr', _⟩
      have hindex := hapart 0 (i + 1) s t key rfl hget
        (by simp [hr]) (by simp [hr'])
      contradiction
    have hhead : (s.deleteExpired (clock.skip first)).1 =
        (sweptKeys (fun _ => first) clock s.contents).ncard :=
      ((hinv s List.mem_cons_self).deleteExpired_ledger _).2
    rw [sweptFrom_cons]
    refine ⟨hown.union hrest.1, ?_⟩
    rw [Set.ncard_union_eq hdisjoint hown hrest.1, ← hhead, ← hrest.2]
    rfl

theorem Unlimited.sweptFrom_eq (hunlimited : m.Unlimited) (clock : Readings) :
    sweptFrom clock 0 m.shards =
      sweptKeys m.shardIndex clock m.contents := by
  ext key
  constructor
  · rintro ⟨i, s, hget, r, hsome, hdead⟩
    obtain rfl := hunlimited.routed i s hget key (by simp [hsome])
    refine ⟨r, ?_, by simpa using hdead⟩
    unfold contents
    rw [getShard_eq_of_getElem? hget]
    exact hsome
  · rintro ⟨r, hsome, hdead⟩
    exact ⟨_, _, m.getElem?_shardIndex key, r, hsome, by simpa using hdead⟩

theorem deleteExpired_getElem? (m : MemoryStore) (clock : Readings) (i : ℕ) :
    (m.deleteExpired clock).2.2.shards[i]? =
      m.shards[i]?.map fun s => (s.deleteExpired (clock.skip i)).2.2 := by
  change (sweepShards clock 0 m.shards).2.2[i]? = _
  rw [sweepShards_getElem?, Nat.zero_add]

theorem deleteExpired_forall_shards {P : Shard → Prop}
    (hsweep : ∀ s clock, P s → P (s.deleteExpired clock).2.2)
    (hall : ∀ s ∈ m.shards, P s) (clock : Readings) :
    ∀ s ∈ (m.deleteExpired clock).2.2.shards, P s := by
  intro s hs
  obtain ⟨i, hget⟩ := List.mem_iff_getElem?.mp hs
  rw [deleteExpired_getElem?, Option.map_eq_some_iff] at hget
  obtain ⟨before, hbefore, rfl⟩ := hget
  exact hsweep before (clock.skip i) (hall before (List.mem_of_getElem? hbefore))

theorem step_forall_shards {codec : Msgpack} {P : Shard → Prop}
    (hstep : ∀ s call, P s → P (Shard.step codec s call).2)
    (hall : ∀ s ∈ m.shards, P s) (call : Readings × StoreOp) :
    ∀ s ∈ (m.step codec call).2.shards, P s := by
  obtain ⟨clock, op⟩ := call
  cases hkey : op.key? with
  | some key =>
    intro s hs
    rw [step_of_key codec m hkey] at hs
    rcases List.mem_or_eq_of_mem_set hs with hold | rfl
    · exact hall s hold
    · exact hstep _ _ (hall _ (m.getShard_mem key))
  | none =>
    cases op with
    | deleteExpired =>
      exact deleteExpired_forall_shards
        (fun s clock => hstep s (clock, .deleteExpired)) hall clock
    | _ => simp [StoreOp.key?] at hkey

theorem contents_deleteExpired (hinv : ∀ s ∈ m.shards, s.Invariant)
    (clock : Readings) :
    (m.deleteExpired clock).2.2.contents = fun key =>
      (m.contents key).filter fun r =>
        !r.dead (clock.now (m.shardIndex key)) := by
  funext key
  have hget := deleteExpired_getElem? m clock (m.shardIndex key)
  rw [m.getElem?_shardIndex key, Option.map_some] at hget
  have hshard : (m.deleteExpired clock).2.2.getShard key =
      ((m.getShard key).deleteExpired (clock.skip (m.shardIndex key))).2.2 :=
    getShard_eq_of_getElem? hget
  have hswept := ((hinv _ (m.getShard_mem key)).deleteExpired_ledger
    (clock.skip (m.shardIndex key))).1
  unfold contents
  rw [hshard, hswept]
  rfl

theorem deleteExpired_invariant (hinv : ∀ s ∈ m.shards, s.Invariant)
    (clock : Readings) :
    ∀ t ∈ (m.deleteExpired clock).2.2.shards, t.Invariant :=
  deleteExpired_forall_shards
    (fun _ clock hinv => (hinv.deleteExpired_sweeps clock).invariant) hinv clock

theorem Unlimited.deleteExpired (hunlimited : m.Unlimited) (clock : Readings) :
    (m.deleteExpired clock).2.2.Unlimited := by
  constructor
  · exact deleteExpired_invariant hunlimited.invariant clock
  · refine deleteExpired_forall_shards ?_ hunlimited.maxSize_le clock
    intro s clock hmax
    have hsettings := congrArg Prod.fst
      (Shard.sweep_settings (clock.now 0) s.items.entries s)
    exact hsettings.trans_le hmax
  · intro i t hget key hsome
    rw [deleteExpired_getElem?, Option.map_eq_some_iff] at hget
    obtain ⟨s, hs, rfl⟩ := hget
    apply hunlimited.routed i s hs key
    intro hnone
    apply hsome
    have hswept := ((hunlimited.invariant s
      (List.mem_of_getElem? hs)).deleteExpired_ledger (clock.skip i)).1
    simp [hswept, hnone]

/-! ## The store is the ledger -/

theorem Unlimited.step_ledger (hunlimited : m.Unlimited) (codec : Msgpack)
    (call : Readings × StoreOp) :
    (m.step codec call).2.Unlimited ∧
      (m.step codec call).1.1 =
        (ledgerStep codec m.shardIndex m.contents call).1 ∧
      (m.step codec call).2.contents =
        (ledgerStep codec m.shardIndex m.contents call).2 := by
  cases hkey : call.2.key? with
  | some key =>
    rw [step_of_key codec m hkey]
    simp only [ledgerStep, hkey]
    exact hunlimited.onShard codec hkey
  | none =>
    obtain ⟨clock, op⟩ := call
    cases op with
    | deleteExpired =>
      have hapart : ∀ (i j : ℕ) (s t : Shard) (key : GoString),
          m.shards[i]? = some s → m.shards[j]? = some t →
          s.contents key ≠ none → t.contents key ≠ none → i = j :=
        fun i j s t key hi hj hs ht =>
          (hunlimited.routed i s hi key hs).symm.trans
            (hunlimited.routed j t hj key ht)
      have hcount :=
        (sweepShards_count clock 0 m.shards hunlimited.invariant hapart).2
      rw [hunlimited.sweptFrom_eq] at hcount
      exact ⟨hunlimited.deleteExpired clock,
        congrArg StoreResult.removed hcount,
        contents_deleteExpired hunlimited.invariant clock⟩
    | _ => simp [StoreOp.key?] at hkey

/-! ## The timed map -/

def Refines (state : ℤ × Contents GoString Bytes) (m : MemoryStore) : Prop :=
  m.Unlimited ∧ LedgerTrims state m.contents

theorem Refines.answers {state : ℤ × Contents GoString Bytes}
    (hrefines : Refines state m) (codec : Msgpack)
    (hstarts : StartsAfter state call) :
    Answers (timedStep state call).1 (m.step codec call).1.1 := by
  rw [(hrefines.1.step_ledger codec call).2.1]
  exact hrefines.2.answers codec m.shardIndex hstarts

theorem Refines.step {state : ℤ × Contents GoString Bytes}
    (hrefines : Refines state m) (codec : Msgpack)
    (hstarts : StartsAfter state call) (htimed : call.2.timed = true) :
    Refines (timedStep state call).2 (m.step codec call).2 := by
  obtain ⟨hunlimited, _, hcontents⟩ := hrefines.1.step_ledger codec call
  refine ⟨hunlimited, ?_⟩
  rw [hcontents]
  exact hrefines.2.step codec m.shardIndex hstarts htimed

theorem refines_new (start : ℤ) (numShards : ℕ) (hpos : 0 < numShards)
    {limit : ℤ} (hlimit : limit ≤ 0) (onEvict onExpire : Bool) :
    Refines (start, fun _ => none)
      (new numShards hpos limit onEvict onExpire) := by
  refine ⟨unlimited_new numShards hpos hlimit onEvict onExpire, ?_⟩
  rw [contents_new]
  exact ledgerTrims_empty start

theorem run_refines (codec : Msgpack) {start : ℤ} {numShards : ℕ}
    (hpos : 0 < numShards) {limit : ℤ} (hlimit : limit ≤ 0)
    (onEvict onExpire : Bool) {calls : List (Readings × StoreOp)}
    (hrun : TimedRun start calls) :
    List.Forall₂ (fun answer result => Answers answer result.1)
        (run timedStep (start, fun _ => none) calls).1
        (run (step codec) (new numShards hpos limit onEvict onExpire)
          calls).1 ∧
      Refines (run timedStep (start, fun _ => none) calls).2
        (run (step codec) (new numShards hpos limit onEvict onExpire)
          calls).2 :=
  run_simulation
    (fun _ _ _ hrefines hcall =>
      ⟨hrefines.answers codec hcall.1,
        hrefines.step codec hcall.1 hcall.2⟩)
    (refines_new start numShards hpos hlimit onEvict onExpire) hrun

theorem Refines.read_eq {state state' : ℤ × Contents GoString Bytes}
    {m m' : MemoryStore} (hrefines : Refines state m)
    (hrefines' : Refines state' m') (hsame : state.2 = state'.2)
    (codec : Msgpack) {read : Readings × StoreOp}
    (hread : read.2.reads = true) (hstarts : StartsAfter state read)
    (hstarts' : StartsAfter state' read) :
    (m.step codec read).1.1 = (m'.step codec read).1.1 := by
  have hanswer := hrefines.answers codec hstarts
  have hanswer' := hrefines'.answers codec hstarts'
  simp only [timedStep, ← hsame] at hanswer hanswer'
  obtain ⟨clock, op⟩ := read
  cases op with
  | get key => exact hanswer.unique hanswer'
  | «exists» key => exact hanswer.unique hanswer'
  | ttl key => exact hanswer.unique hanswer'
  | _ => simp [StoreOp.reads] at hread

/-- A store without a size limit answers Get, Exists and TTL like the timed
map, call by call, for every number of shards.  The answer to a read depends
on the writes before it alone, not on the number of shards, nor on the sweeps
and the lazy removals in between. -/
theorem run_refines_timedMap (codec : Msgpack) {start : ℤ} {numShards : ℕ}
    (hpos : 0 < numShards) {limit : ℤ} (hlimit : limit ≤ 0)
    (onEvict onExpire : Bool) {calls : List (Readings × StoreOp)}
    (hrun : TimedRun start calls) :
    List.Forall₂ (fun answer result => Answers answer result.1)
        (run timedStep (start, fun _ => none) calls).1
        (run (step codec) (new numShards hpos limit onEvict onExpire)
          calls).1 ∧
      ∀ {otherStart : ℤ} {otherShards : ℕ} (hother : 0 < otherShards)
        {otherLimit : ℤ} (_ : otherLimit ≤ 0) (evict expire : Bool)
        {otherCalls : List (Readings × StoreOp)},
        TimedRun otherStart otherCalls →
        (otherCalls.filter fun call => call.2.writes) =
          (calls.filter fun call => call.2.writes) →
        ∀ {read : Readings × StoreOp}, read.2.reads = true →
          StartsAfter (run timedStep (start, fun _ => none) calls).2 read →
          StartsAfter
            (run timedStep (otherStart, fun _ => none) otherCalls).2 read →
          ((run (step codec) (new numShards hpos limit onEvict onExpire)
            calls).2.step codec read).1.1 =
          ((run (step codec) (new otherShards hother otherLimit evict expire)
            otherCalls).2.step codec read).1.1 := by
  have hleft := run_refines codec hpos hlimit onEvict onExpire hrun
  refine ⟨hleft.1, ?_⟩
  intro otherStart otherShards hother otherLimit hotherLimit evict expire
    otherCalls hotherRun hwrites read hread hstarts hotherStarts
  have hright := run_refines codec hother hotherLimit evict expire hotherRun
  have hsame : (run timedStep (start, fun _ => none) calls).2.2 =
      (run timedStep (otherStart, fun _ => none) otherCalls).2.2 := by
    rw [timedStep_contents_of_writes calls (start, fun _ => none)
        (0, fun _ => none) rfl,
      timedStep_contents_of_writes otherCalls (otherStart, fun _ => none)
        (0, fun _ => none) rfl, hwrites]
  exact hleft.2.read_eq hright.2 hsame codec hread hstarts hotherStarts

theorem run_refines_timedMap_expiring :
    let codec : Msgpack := ⟨fun _ => .ok [], fun _ => .ok 0⟩
    let calls : List (Readings × StoreOp) :=
      [(.instant 0, .set (ascii "k") (ascii "v") 5),
        (.instant 5, .get (ascii "k")),
        (.instant 6, .deleteExpired),
        (.instant 7, .ttl (ascii "k"))]
    TimedRun 0 calls ∧
      List.Forall₂ (fun answer result => Answers answer result.1)
        (run timedStep (0, fun _ => none) calls).1
        (run (step codec) (new 4 (by decide) 0 true true) calls).1 := by
  intro codec calls
  have hrun : TimedRun 0 calls := by
    simp [TimedRun, Meets, StartsAfter, timedStep, calls, Readings.instant,
      StoreOp.timed]
  exact ⟨hrun,
    (run_refines_timedMap codec (by decide) le_rfl true true hrun).1⟩

end MemoryStore

end CacheGrid
