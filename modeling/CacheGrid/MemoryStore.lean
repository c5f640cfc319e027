import CacheGrid.Shard

/-!
# The in-memory store

`MemoryStore` routes every key to one of its shards by FNV-1a hash and mask.
The shard index is the hash masked by `numShards - 1`; it can never leave the
slice, and the structure carries that fact.
-/

namespace CacheGrid

structure MemoryStore where
  shards : List Shard
  mask : UInt32
  mask_lt : mask.toNat < shards.length

namespace MemoryStore

def new (numShards : ℕ) (hpos : 0 < numShards) (perShardMaxBytes : ℤ)
    (onEvict onExpire : Bool) : MemoryStore where
  shards := List.replicate numShards
    (Shard.new perShardMaxBytes onEvict onExpire)
  mask := UInt32.ofNat (numShards - 1)
  mask_lt := by
    rw [List.length_replicate, UInt32.toNat_ofNat']
    exact (Nat.mod_le _ _).trans_lt (Nat.sub_lt hpos Nat.one_pos)

/-- `h.Sum32() & m.mask` -/
def shardIndex (m : MemoryStore) (key : GoString) : ℕ :=
  (fnv32a key &&& m.mask).toNat

theorem shardIndex_lt (m : MemoryStore) (key : GoString) :
    m.shardIndex key < m.shards.length := by
  unfold shardIndex
  rw [UInt32.toNat_and]
  exact Nat.and_le_right.trans_lt m.mask_lt

def getShard (m : MemoryStore) (key : GoString) : Shard :=
  m.shards.get ⟨m.shardIndex key, m.shardIndex_lt key⟩

def setShard (m : MemoryStore) (key : GoString) (s : Shard) : MemoryStore where
  shards := m.shards.set (m.shardIndex key) s
  mask := m.mask
  mask_lt := by
    rw [List.length_set]
    exact m.mask_lt

def onShard (m : MemoryStore) (codec : Msgpack) (key : GoString)
    (call : Readings × StoreOp) :
    (StoreResult × List Callback) × MemoryStore :=
  let r := (m.getShard key).step codec call
  (r.1, m.setShard key r.2)

/-- The loop of `MemoryStore.DeleteExpired`, from the shard with number
`first` on; every shard reads the clock for itself. -/
def sweepShards (clock : Readings) : ℕ → List Shard →
    ℕ × List Callback × List Shard
  | _, [] => (0, [], [])
  | first, s :: rest =>
    let swept := s.deleteExpired (clock.skip first)
    let others := sweepShards clock (first + 1) rest
    (swept.1 + others.1, swept.2.1 ++ others.2.1,
      swept.2.2 :: others.2.2)

theorem sweepShards_length (clock : Readings) (first : ℕ)
    (shards : List Shard) :
    (sweepShards clock first shards).2.2.length = shards.length := by
  induction shards generalizing first with
  | nil => rfl
  | cons s rest ih => simp [sweepShards, ih]

def deleteExpired (m : MemoryStore) (clock : Readings) :
    ℕ × List Callback × MemoryStore :=
  let swept := sweepShards clock 0 m.shards
  (swept.1, swept.2.1, {
    shards := swept.2.2
    mask := m.mask
    mask_lt := by
      rw [sweepShards_length]
      exact m.mask_lt })

def step (codec : Msgpack) (m : MemoryStore) (call : Readings × StoreOp) :
    (StoreResult × List Callback) × MemoryStore :=
  match call.2 with
  | .get key => m.onShard codec key call
  | .set key _ _ => m.onShard codec key call
  | .delete key => m.onShard codec key call
  | .exists key => m.onShard codec key call
  | .ttl key => m.onShard codec key call
  | .incr key _ _ => m.onShard codec key call
  | .deleteExpired =>
    let r := m.deleteExpired call.1
    ((.removed r.1, r.2.1), r.2.2)

end MemoryStore

end CacheGrid
