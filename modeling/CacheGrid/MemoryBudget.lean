import CacheGrid.MemoryStoreLedger

/-!
# The memory budget

`Config.validate`, and the part of `New` that turns `MaxMemoryMB` into a limit
for every shard.  The limit is computed in `int64`: the number of bytes may
wrap and the division by the number of shards may give zero, and a shard whose
limit is not positive has none.
-/

namespace CacheGrid

open SequentialRuns

namespace Startup

def signedDecimal (n : ℤ) : GoString :=
  if n < 0 then ascii "-" ++ decimal n.natAbs else decimal n.natAbs

inductive StorageMode where
  | memory
  | disk
  deriving DecidableEq

/-- The fields of `Config` that `validate` and the choice of the backend
read; an `int` has 64 bits. -/
structure Config where
  numShards : Int64
  maxMemoryMB : Int64
  sweeperInterval : Duration
  storageMode : StorageMode
  diskPath : GoString
  deriving DecidableEq

namespace Config

def validateStorage (c : Config) : Except GoString Config :=
  match c.storageMode with
  | .disk =>
    if c.diskPath = [] then
      .error (ascii
        "cachegrid: DiskPath is required when StorageMode is Disk")
    else .ok c
  | .memory =>
    let c := if c.numShards ≤ 0 then { c with numShards := 256 } else c
    if c.numShards &&& (c.numShards - 1) ≠ 0 then
      .error (ascii "cachegrid: NumShards must be a power of 2, got " ++
        signedDecimal c.numShards.toInt)
    else if c.maxMemoryMB < 0 then
      .error (ascii "cachegrid: MaxMemoryMB must be >= 0, got " ++
        signedDecimal c.maxMemoryMB.toInt)
    else .ok c

/-- `validate`, which also fills in the defaults. -/
def validate (c : Config) : Except GoString Config :=
  validateStorage (if c.sweeperInterval ≤ 0 then
    { c with sweeperInterval := 1000000000 } else c)

/-- What the memory mode needs of a validated configuration. -/
structure Accepted (c valid : Config) : Prop where
  numShards_pos : 0 < valid.numShards.toInt
  maxMemoryMB_eq : valid.maxMemoryMB = c.maxMemoryMB

theorem accepted_of_validateStorage {c valid : Config}
    (hvalid : c.validateStorage = .ok valid)
    (hmode : c.storageMode = .memory) : Accepted c valid := by
  simp only [validateStorage, hmode] at hvalid
  by_cases hshards : c.numShards ≤ 0
  · simp only [hshards, if_true] at hvalid
    split at hvalid
    · cases hvalid
    · split at hvalid <;> cases hvalid
      exact ⟨(by decide : (0 : ℤ) < (256 : Int64).toInt), rfl⟩
  · simp only [hshards, if_false] at hvalid
    split at hvalid
    · cases hvalid
    · split at hvalid <;> cases hvalid
      rw [Int64.le_iff_toInt_le, not_le] at hshards
      exact ⟨by simpa using hshards, rfl⟩

theorem accepted_of_validate {c valid : Config}
    (hvalid : c.validate = .ok valid) (hmode : c.storageMode = .memory) :
    Accepted c valid := by
  unfold validate at hvalid
  split at hvalid
  · obtain ⟨hpos, hmax⟩ := accepted_of_validateStorage hvalid hmode
    exact ⟨hpos, hmax⟩
  · exact accepted_of_validateStorage hvalid hmode

def perShardMax (c : Config) : Int64 :=
  if 0 < c.maxMemoryMB then c.maxMemoryMB * 1024 * 1024 / c.numShards else 0

def memoryStore (c : Config) (hpos : 0 < c.numShards.toInt) : MemoryStore :=
  .new c.numShards.toInt.toNat (by omega) c.perShardMax.toInt true true

/-- The number of bytes of the budget, as `int64` arithmetic computes it. -/
def budget (c : Config) : Int64 := c.maxMemoryMB * 1024 * 1024

theorem toInt_budget_le {c : Config} (hmax : 0 ≤ c.maxMemoryMB.toInt) :
    c.budget.toInt ≤ c.maxMemoryMB.toInt * 1024 * 1024 := by
  have hassoc : c.budget = c.maxMemoryMB * 1048576 := by
    rw [budget, Int64.mul_assoc]
    rfl
  have hlit : (1048576 : Int64).toInt = 1048576 := by decide
  rw [hassoc, Int64.toInt_mul, hlit, Int.bmod_def]
  split <;> omega

theorem toInt_perShardMax {c : Config} (hmax : 0 < c.maxMemoryMB)
    (hpos : 0 < c.numShards.toInt) :
    c.perShardMax.toInt = c.budget.toInt.tdiv c.numShards.toInt := by
  have hne : c.numShards ≠ -1 := by
    intro h
    rw [h] at hpos
    exact absurd hpos (by decide)
  rw [perShardMax, if_pos hmax]
  exact Int64.toInt_div_of_ne_right _ _ hne

theorem perShardMax_pos_iff {c : Config} (hmax : 0 < c.maxMemoryMB)
    (hpos : 0 < c.numShards.toInt) :
    0 < c.perShardMax.toInt ↔ c.numShards.toInt ≤ c.budget.toInt := by
  rw [toInt_perShardMax hmax hpos]
  rcases le_or_gt 0 c.budget.toInt with hnonneg | hneg
  · rw [Int.tdiv_eq_ediv_of_nonneg hnonneg, ← Int.add_one_le_iff, zero_add,
      Int.le_ediv_iff_mul_le hpos, one_mul]
  · have hquotient : 0 ≤ (-c.budget.toInt).tdiv c.numShards.toInt :=
      Int.tdiv_nonneg (by omega) hpos.le
    rw [Int.neg_tdiv] at hquotient
    constructor <;> intro h <;> omega

end Config

end Startup

/-! ## The shards of a store -/

theorem Shard.Coherent.size_nonneg {s : Shard} (hcoherent : s.Coherent) :
    0 ≤ s.size := by
  rw [hcoherent.total]
  apply List.sum_nonneg
  intro size hsize
  obtain ⟨e, he, rfl⟩ := List.mem_map.mp hsize
  exact hcoherent.size_nonneg_of_mem he

namespace MemoryStore

def size (m : MemoryStore) : ℤ := (m.shards.map Shard.size).sum

theorem step_shards_length (codec : Msgpack) (m : MemoryStore)
    (call : Readings × StoreOp) :
    (m.step codec call).2.shards.length = m.shards.length := by
  obtain ⟨clock, op⟩ := call
  cases op with
  | deleteExpired => exact sweepShards_length clock 0 m.shards
  | _ => exact List.length_set

/-- The shards of a store that was built with this number of shards and this
limit. -/
structure BuiltWith (numShards : ℕ) (limit : ℤ) (m : MemoryStore) : Prop where
  length_eq : m.shards.length = numShards
  shard : ∀ s ∈ m.shards, s.Invariant ∧ s.maxSize = limit

theorem builtWith_new (numShards : ℕ) (hpos : 0 < numShards) (limit : ℤ)
    (onEvict onExpire : Bool) :
    BuiltWith numShards limit (new numShards hpos limit onEvict onExpire) where
  length_eq := List.length_replicate
  shard s hs := by
    rw [List.eq_of_mem_replicate hs]
    exact ⟨Shard.invariant_new limit onEvict onExpire, rfl⟩

theorem BuiltWith.run {numShards : ℕ} {limit : ℤ} {m : MemoryStore}
    (hbuilt : BuiltWith numShards limit m) (codec : Msgpack)
    (calls : List (Readings × StoreOp)) :
    BuiltWith numShards limit
      (SequentialRuns.run (MemoryStore.step codec) m calls).2 := by
  refine run_invariant (BuiltWith numShards limit) ?_ hbuilt calls
  intro m call hm
  refine ⟨(step_shards_length codec m call).trans hm.length_eq, ?_⟩
  refine step_forall_shards ?_ hm.shard call
  intro s call hs
  refine ⟨hs.1.step codec call, ?_⟩
  have hsettings := congrArg Prod.fst (Shard.step_settings codec s call)
  exact hsettings.trans hs.2

theorem BuiltWith.size_le {numShards : ℕ} {limit : ℤ} {m : MemoryStore}
    (hbuilt : BuiltWith numShards limit m) (hlimit : 0 < limit) :
    m.size ≤ numShards * limit := by
  have hshards : ∀ size ∈ m.shards.map Shard.size, size ≤ limit := by
    intro size hsize
    obtain ⟨s, hs, rfl⟩ := List.mem_map.mp hsize
    obtain ⟨hinv, hmax⟩ := hbuilt.shard s hs
    exact hmax ▸ hinv.bounded (hmax.symm ▸ hlimit)
  have hsum := List.sum_le_card_nsmul _ limit hshards
  rw [List.length_map, hbuilt.length_eq, nsmul_eq_mul] at hsum
  exact hsum

/-- A store whose shards have no limit takes a value of any length. -/
theorem size_set_gt (codec : Msgpack) (numShards : ℕ) (hpos : 0 < numShards)
    {limit : ℤ} (hlimit : limit ≤ 0) (onEvict onExpire : Bool) (bound : ℕ) :
    (bound : ℤ) < (SequentialRuns.run (MemoryStore.step codec)
      (new numShards hpos limit onEvict onExpire)
      [(.instant 0, .set [] (List.replicate bound 0) 0)]).2.size := by
  let m := new numShards hpos limit onEvict onExpire
  let call : Readings × StoreOp :=
    (.instant 0, .set [] (List.replicate bound 0) 0)
  have hbuilt := (builtWith_new numShards hpos limit onEvict onExpire).run
    codec [call]
  have hempty : m.getShard [] = Shard.new limit onEvict onExpire :=
    List.eq_of_mem_replicate (m.getShard_mem [])
  have hgrown : (Shard.step codec (m.getShard []) call).2.size =
      bound + 184 := by
    rw [hempty]
    simp [call, Shard.step, Shard.set, Shard.setLocked, Shard.new,
      Shard.storeLocked_unlimited, hlimit, Shard.pushEntry, estimateSize]
  have hmem : (Shard.step codec (m.getShard []) call).2 ∈
      (m.setShard [] (Shard.step codec (m.getShard []) call).2).shards :=
    List.mem_set (m.shardIndex_lt []) _
  have hnonneg : ∀ size ∈ (m.setShard []
      (Shard.step codec (m.getShard []) call).2).shards.map Shard.size,
      0 ≤ size := by
    intro size hsize
    obtain ⟨s, hs, rfl⟩ := List.mem_map.mp hsize
    exact (hbuilt.shard s hs).1.toCoherent.size_nonneg
  have hle := List.single_le_sum hnonneg _ (List.mem_map_of_mem hmem)
  rw [hgrown] at hle
  exact lt_of_lt_of_le (by omega) hle

end MemoryStore

namespace Startup

/-! ## The budget -/

/-- A validated memory configuration with a budget.  The shards together stay
within the budget in every run, exactly if the number of bytes has not wrapped
below the number of shards. -/
theorem Config.size_le_budget_iff {c valid : Config}
    (hvalid : c.validate = .ok valid) (hmode : c.storageMode = .memory)
    (hmax : 0 < c.maxMemoryMB) :
    (∀ (codec : Msgpack) (calls : List (Readings × StoreOp)),
      (run (MemoryStore.step codec)
        (valid.memoryStore (accepted_of_validate hvalid hmode).numShards_pos)
        calls).2.size ≤ c.maxMemoryMB.toInt * 1024 * 1024) ↔
      valid.numShards.toInt ≤ (c.maxMemoryMB * 1024 * 1024).toInt := by
  have haccepted := accepted_of_validate hvalid hmode
  have hpos := haccepted.numShards_pos
  have hmax' : 0 < valid.maxMemoryMB := haccepted.maxMemoryMB_eq.symm ▸ hmax
  have hbudget : (c.maxMemoryMB * 1024 * 1024).toInt = valid.budget.toInt := by
    rw [budget, haccepted.maxMemoryMB_eq]
  have hnonneg : 0 ≤ valid.maxMemoryMB.toInt := by
    rw [Int64.lt_iff_toInt_lt] at hmax'
    simpa using hmax'.le
  rw [hbudget, ← haccepted.maxMemoryMB_eq, ← perShardMax_pos_iff hmax' hpos]
  constructor
  · intro hbounded
    by_contra hlimit
    have hlarge := MemoryStore.size_set_gt Msgpack.int64
      valid.numShards.toInt.toNat (by omega) (not_lt.mp hlimit) true true
      (valid.maxMemoryMB.toInt * 1024 * 1024).toNat
    have hsmall := hbounded Msgpack.int64 [(.instant 0, .set []
      (List.replicate (valid.maxMemoryMB.toInt * 1024 * 1024).toNat 0) 0)]
    simp only [memoryStore] at hsmall
    omega
  · intro hlimit codec calls
    have hbuilt := (MemoryStore.builtWith_new valid.numShards.toInt.toNat
      (by omega) valid.perShardMax.toInt true true).run codec calls
    have hquotient : valid.perShardMax.toInt * valid.numShards.toInt ≤
        valid.budget.toInt := by
      have hle := (perShardMax_pos_iff hmax' hpos).mp hlimit
      rw [toInt_perShardMax hmax' hpos,
        Int.tdiv_eq_ediv_of_nonneg (hpos.le.trans hle)]
      exact Int.ediv_mul_le _ hpos.ne'
    calc (run (MemoryStore.step codec) (valid.memoryStore hpos) calls).2.size
        ≤ valid.numShards.toInt.toNat * valid.perShardMax.toInt :=
          hbuilt.size_le hlimit
      _ = valid.perShardMax.toInt * valid.numShards.toInt := by
          rw [Int.toNat_of_nonneg hpos.le, mul_comm]
      _ ≤ valid.budget.toInt := hquotient
      _ ≤ valid.maxMemoryMB.toInt * 1024 * 1024 := toInt_budget_le hnonneg

/-- One megabyte for two shards, and one Set. -/
theorem Config.size_le_budget_two_shards :
    (run (MemoryStore.step .int64)
      (Config.memoryStore ⟨2, 1, 1000000000, .memory, []⟩ (by decide))
      [(.instant 0, .set (ascii "k") (ascii "v") 0)]).2.size ≤
      (1 : Int64).toInt * 1024 * 1024 := by
  have hvalid : Config.validate ⟨2, 1, 1000000000, .memory, []⟩ =
      .ok ⟨2, 1, 1000000000, .memory, []⟩ := by decide
  exact (size_le_budget_iff hvalid rfl (by decide)).mpr (by decide) .int64 _

/-- One megabyte for `2^21` shards: the limit of a shard is zero, so none of
them has a limit, and a value of one megabyte fits. -/
theorem Config.size_exceeds_budget :
    let c : Config := ⟨2097152, 1, 1000000000, .memory, []⟩
    c.validate = .ok c ∧
      (1 : Int64).toInt * 1024 * 1024 <
        (run (MemoryStore.step .int64) (c.memoryStore (by decide))
          [(.instant 0, .set [] (List.replicate 1048576 0) 0)]).2.size := by
  have hlimit : (Config.perShardMax
      ⟨2097152, 1, 1000000000, .memory, []⟩).toInt ≤ 0 := by decide
  exact ⟨by decide, MemoryStore.size_set_gt .int64 2097152 (by decide) hlimit
    true true 1048576⟩

end Startup

end CacheGrid
