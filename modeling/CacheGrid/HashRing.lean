import CacheGrid.GoValues

/-!
# The hash ring

`internal/cluster/hashring.go`: every member of the cluster owns a number of
positions on a ring of 32-bit hashes, and a key belongs to the member at the
first position from its own hash on.
-/

namespace CacheGrid

def hashKey (key : GoString) : UInt32 := fnv32a key

/-- The loop of `sort.Search`, at most `fuel` times. -/
def searchLoop (f : ℕ → Bool) : ℕ → ℕ → ℕ → ℕ
  | 0, i, _ => i
  | fuel + 1, i, j =>
    if i < j then
      let h := (i + j) / 2
      if f h then searchLoop f fuel i h else searchLoop f fuel (h + 1) j
    else i

def sortSearch (n : ℕ) (f : ℕ → Bool) : ℕ := searchLoop f n 0 n

def defaultVirtualNodes : ℕ := 150

structure Ring where
  vnodes : ℕ
  sortedHashes : List UInt32
  hashMap : AList fun _ : UInt32 => GoString
  members : Finset GoString

namespace Ring

def new (vnodes : ℤ) : Ring where
  vnodes := if vnodes ≤ 0 then defaultVirtualNodes else vnodes.toNat
  sortedHashes := []
  hashMap := ∅
  members := ∅

def virtualName (name : GoString) (i : ℕ) : GoString :=
  name ++ ascii "-" ++ decimal i

def positions (r : Ring) (name : GoString) : List UInt32 :=
  (List.range r.vnodes).map fun i => hashKey (virtualName name i)

def addNode (r : Ring) (name : GoString) : Ring :=
  if name ∈ r.members then r
  else
    { r with
      members := insert name r.members
      sortedHashes := (r.sortedHashes ++ r.positions name).insertionSort (· ≤ ·)
      hashMap := (r.positions name).foldl
        (fun hashMap h => hashMap.insert h name) r.hashMap }

/-- `r.hashMap[h]`, the empty string for a missing hash. -/
def nameAt (hashMap : AList fun _ : UInt32 => GoString) (h : UInt32) :
    GoString :=
  (hashMap.lookup h).getD []

/-- The loop of `RemoveNode`.  A hash that occurs twice finds its entry
deleted at the second occurrence, which therefore stays. -/
def removeLoop (name : GoString) :
    List UInt32 → (AList fun _ : UInt32 => GoString) →
      List UInt32 × AList fun _ : UInt32 => GoString
  | [], hashMap => ([], hashMap)
  | h :: rest, hashMap =>
    if nameAt hashMap h ≠ name then
      let r := removeLoop name rest hashMap
      (h :: r.1, r.2)
    else removeLoop name rest (hashMap.erase h)

def removeNode (r : Ring) (name : GoString) : Ring :=
  if name ∈ r.members then
    let kept := removeLoop name r.sortedHashes r.hashMap
    { r with
      members := r.members.erase name
      sortedHashes := kept.1
      hashMap := kept.2 }
  else r

def getNode (r : Ring) (key : GoString) : GoString :=
  if r.sortedHashes.length = 0 then []
  else
    let h := hashKey key
    let idx := sortSearch r.sortedHashes.length
      fun i => decide (h ≤ r.sortedHashes.getD i 0)
    -- wrap around
    let idx := if r.sortedHashes.length ≤ idx then 0 else idx
    nameAt r.hashMap (r.sortedHashes.getD idx 0)

/-! ## The positions stay sorted -/

theorem removeLoop_sublist (name : GoString) (hashes : List UInt32)
    (hashMap : AList fun _ : UInt32 => GoString) :
    (removeLoop name hashes hashMap).1.Sublist hashes := by
  induction hashes generalizing hashMap with
  | nil => exact List.Sublist.refl _
  | cons h rest ih =>
    rw [removeLoop]
    split
    · exact (ih hashMap).cons_cons h
    · exact (ih _).cons h

theorem sorted_addNode {r : Ring} (name : GoString)
    (hsorted : r.sortedHashes.Pairwise (· ≤ ·)) :
    (r.addNode name).sortedHashes.Pairwise (· ≤ ·) := by
  unfold addNode
  split
  · exact hsorted
  · exact List.pairwise_insertionSort _ _

theorem sorted_removeNode {r : Ring} (name : GoString)
    (hsorted : r.sortedHashes.Pairwise (· ≤ ·)) :
    (r.removeNode name).sortedHashes.Pairwise (· ≤ ·) := by
  unfold removeNode
  split
  · exact hsorted.sublist (removeLoop_sublist _ _ _)
  · exact hsorted

end Ring

inductive RingOp where
  | add (name : GoString)
  | remove (name : GoString)

def Ring.step (r : Ring) : RingOp → Ring
  | .add name => r.addNode name
  | .remove name => r.removeNode name

end CacheGrid
