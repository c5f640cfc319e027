import CacheGrid.GoValues

/-!
# The storage interface

`Store` is the interface shared by the memory and the disk backend.  Its
methods are the constructors of `StoreOp`, what they return is a
`StoreResult`, and the two callbacks a store may invoke are `Callback`s.

Counters are stored as msgpack integers.  The encoder is a third-party
package, so `Msgpack` takes its two functions as parameters.
-/

namespace CacheGrid

/-- The part of the msgpack package that `Serialize` and `Deserialize` use
for an `int64`. -/
structure Msgpack where
  marshal : Int64 → Except GoString Bytes
  unmarshal : Bytes → Except GoString Int64

namespace Msgpack

/-- The first `width` bytes as a number; `io.ReadFull` says whether any byte
was there. -/
def readN (width : ℕ) (bytes : Bytes) : Except GoString ℕ :=
  if width ≤ bytes.length then .ok (beNat (bytes.take width))
  else if bytes = [] then .error (ascii "EOF")
  else .error (ascii "unexpected EOF")

/-- The codes of the integers that follow in bytes of their own: how many
bytes, and the conversion to `int64`. -/
def integerCode : UInt8 → Option (ℕ × (ℕ → Int64))
  | 0xcc => some (1, Int64.ofNat)
  | 0xcd => some (2, Int64.ofNat)
  | 0xce => some (4, Int64.ofNat)
  | 0xcf => some (8, fun n => (UInt64.ofNat n).toInt64)
  | 0xd0 => some (1, fun n => (UInt8.ofNat n).toInt8.toInt64)
  | 0xd1 => some (2, fun n => (UInt16.ofNat n).toInt16.toInt64)
  | 0xd2 => some (4, fun n => (UInt32.ofNat n).toInt32.toInt64)
  | 0xd3 => some (8, fun n => (UInt64.ofNat n).toInt64)
  | _ => none

/-- The msgpack format of an `int64`.  It is written as a code and eight
bytes; every integer code is read, nil as zero, and bytes after the number are
ignored. -/
def int64 : Msgpack where
  marshal := fun n => .ok (0xd3 :: putInt64 n)
  unmarshal := fun
    | [] => .error (ascii "EOF")
    | code :: rest =>
      if code = 0xc0 then .ok 0
      else if code ≤ 0x7f ∨ 0xe0 ≤ code then .ok code.toInt8.toInt64
      else
        match integerCode code with
        | some (width, convert) => convert <$> readN width rest
        | none => .error (ascii "msgpack: invalid code=" ++
            hexadecimal code.toNat ++ ascii " decoding int64")

end Msgpack

inductive StoreOp where
  | get (key : GoString)
  | set (key : GoString) (value : Bytes) (ttl : Duration)
  | delete (key : GoString)
  | exists (key : GoString)
  | ttl (key : GoString)
  | incr (key : GoString) (delta : Int64) (defaultTTL : Duration)
  | deleteExpired
  deriving DecidableEq

inductive StoreResult where
  /-- `Get`: the value, or a miss. -/
  | value (found : Option Bytes)
  /-- `Set` returns nothing. -/
  | done
  /-- `Delete` and `Exists`. -/
  | flag (ok : Bool)
  /-- `TTL`: `-1` without expiry, `0` if missing or expired. -/
  | remaining (ttl : Duration)
  | counter (result : Except GoString Int64)
  /-- `DeleteExpired`: the number of entries removed. -/
  | removed (count : ℕ)
  deriving DecidableEq

/-- An invocation of `OnEvict` or `OnExpire`. -/
inductive Callback where
  | evict (key : GoString) (value : Bytes)
  | expire (key : GoString) (value : Bytes)
  deriving DecidableEq

def Callback.key : Callback → GoString
  | .evict key _ => key
  | .expire key _ => key

end CacheGrid
