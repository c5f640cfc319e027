import CacheGrid.RingOwnership

/-!
# The replicas of a key

`GetNodes` walks the ring clockwise from the position of a key and collects
the names it meets, each once, until it has as many as were asked for.  The
owners of a key are therefore the names on the ring in the order of their
first appearance, `GetNode` first, and a shorter list is the beginning of a
longer one.

The operations are followed here to the checks that the Go runtime makes: an
index must be within the list, and a slice cannot be made with a negative
capacity.  `RemoveNode` makes one with the capacity that is left after all
virtual nodes of a member are gone.
-/

namespace CacheGrid

open ClockwiseSearch SequentialRuns

inductive RingPanic where
  | indexOutOfRange
  | capOutOfRange
  deriving DecidableEq

/-- The loop of `sort.Search` for a predicate that may panic. -/
def searchLoopChecked (f : ℕ → Except RingPanic Bool) :
    ℕ → ℕ → ℕ → Except RingPanic ℕ
  | 0, i, _ => .ok i
  | fuel + 1, i, j =>
    if i < j then do
      let h := (i + j) / 2
      let found ← f h
      if found then searchLoopChecked f fuel i h
      else searchLoopChecked f fuel (h + 1) j
    else .ok i

namespace Ring

def hashAt (r : Ring) (i : ℕ) : Except RingPanic UInt32 :=
  match r.sortedHashes[i]? with
  | some h => .ok h
  | none => .error .indexOutOfRange

def startIndex (r : Ring) (key : GoString) : Except RingPanic ℕ := do
  let h := hashKey key
  let idx ← searchLoopChecked
    (fun i => do
      let p ← r.hashAt i
      return decide (h ≤ p))
    r.sortedHashes.length 0 r.sortedHashes.length
  -- wrap around
  return if r.sortedHashes.length ≤ idx then 0 else idx

def getNodeChecked (r : Ring) (key : GoString) : Except RingPanic GoString :=
  if r.sortedHashes.length = 0 then .ok []
  else do
    let idx ← r.startIndex key
    let p ← r.hashAt idx
    return nameAt r.hashMap p

def removeNodeChecked (r : Ring) (name : GoString) : Except RingPanic Ring :=
  if name ∈ r.members then
    if (r.sortedHashes.length : ℤ) - r.vnodes < 0 then
      .error .capOutOfRange
    else .ok (r.removeNode name)
  else .ok r

/-- The loop of `GetNodes` with `remaining` positions to go. -/
def collectLoop (r : Ring) (idx : ℕ) (n : ℤ) :
    ℕ → ℕ → Finset GoString → List GoString →
      Except RingPanic (List GoString)
  | 0, _, _, result => .ok result
  | remaining + 1, i, seen, result =>
    if (result.length : ℤ) < n then do
      let p ← r.hashAt ((idx + i) % r.sortedHashes.length)
      let name := nameAt r.hashMap p
      if name ∈ seen then collectLoop r idx n remaining (i + 1) seen result
      else
        collectLoop r idx n remaining (i + 1) (insert name seen)
          (result ++ [name])
    else .ok result

def getNodes (r : Ring) (key : GoString) (n : ℤ) :
    Except RingPanic (List GoString) :=
  if r.sortedHashes.length = 0 then .ok []
  else do
    let memberCount := r.members.card
    let n := if n > memberCount then (memberCount : ℤ) else n
    let idx ← r.startIndex key
    -- a negative size is only a bad hint for the map, not for the slice
    if n < 0 then .error .capOutOfRange
    else collectLoop r idx n r.sortedHashes.length 0 ∅ []

def stepChecked (r : Ring) : RingOp → Except RingPanic Ring
  | .add name => .ok (r.addNode name)
  | .remove name => r.removeNodeChecked name

/-! ## Every index is in range -/

theorem hashAt_of_lt {r : Ring} {i : ℕ} (hi : i < r.sortedHashes.length) :
    r.hashAt i = .ok r.sortedHashes[i] := by
  simp [hashAt, hi]

end Ring

theorem searchLoopChecked_eq {f : ℕ → Except RingPanic Bool} {g : ℕ → Bool}
    {n : ℕ} (hok : ∀ k < n, f k = .ok (g k)) (fuel i : ℕ) {j : ℕ}
    (hj : j ≤ n) :
    searchLoopChecked f fuel i j = .ok (searchLoop g fuel i j) := by
  induction fuel generalizing i j with
  | zero => rfl
  | succ fuel ih =>
    rw [searchLoopChecked, searchLoop]
    by_cases hlt : i < j
    · have hmid : f ((i + j) / 2) = .ok (g ((i + j) / 2)) :=
        hok _ (by omega)
      simp only [hlt, if_true, hmid]
      cases g ((i + j) / 2) with
      | true => exact ih i (by omega)
      | false => exact ih _ hj
    · simp only [hlt, if_false]

namespace Ring

/-- The walk starts at a position of the ring, the one whose name `GetNode`
answers, and from there goes through all positions clockwise. -/
theorem startIndex_spec {r : Ring}
    (hsorted : r.sortedHashes.Pairwise (· ≤ ·)) (hne : r.sortedHashes ≠ [])
    (key : GoString) :
    ∃ (k : ℕ) (hk : k < r.sortedHashes.length),
      r.startIndex key = .ok k ∧
      r.getNode key = nameAt r.hashMap r.sortedHashes[k] ∧
      clockwise (hashKey key) r.sortedHashes = r.sortedHashes.rotate k := by
  obtain ⟨hk, hname⟩ := getNode_found hne key
  have hsearch := searchLoopChecked_eq
    (f := fun i => do
      let p ← r.hashAt i
      return decide (hashKey key ≤ p))
    (g := fun i => decide (hashKey key ≤ r.sortedHashes.getD i 0))
    (fun i hi => by rw [hashAt_of_lt hi, reached_eq r key i hi]; rfl)
    r.sortedHashes.length 0 le_rfl
  refine ⟨_, hk, ?_, hname, ?_⟩
  · simp only [startIndex, hsearch]
    rfl
  · exact clockwise_eq_rotate (reached_eq r key)
      (search_isBoundary hsorted key)

theorem getNodeChecked_eq {r : Ring}
    (hsorted : r.sortedHashes.Pairwise (· ≤ ·)) (key : GoString) :
    r.getNodeChecked key = .ok (r.getNode key) := by
  by_cases hempty : r.sortedHashes = []
  · simp [getNodeChecked, getNode, hempty]
  · obtain ⟨k, hk, hstart, hname, _⟩ := startIndex_spec hsorted hempty key
    have hlength : r.sortedHashes.length ≠ 0 := by simpa using hempty
    rw [getNodeChecked, if_neg hlength, hstart, hname]
    simp only [bind, Except.bind, hashAt_of_lt hk, pure, Except.pure]

/-! ## The names that are collected -/

/-- The names met on the way around the ring from a key on. -/
def namesFrom (r : Ring) (key : GoString) : List GoString :=
  (clockwise (hashKey key) r.sortedHashes).map (nameAt r.hashMap)

def owners (r : Ring) : Finset GoString :=
  (r.sortedHashes.map (nameAt r.hashMap)).toFinset

theorem toFinset_namesFrom (r : Ring) (key : GoString) :
    (r.namesFrom key).toFinset = r.owners := by
  ext name
  simp [namesFrom, owners, mem_clockwise]

/-- Wherever the loop stands, it ends with the first `n` of the names that it
has or that are still to come. -/
theorem collectLoop_eq {r : Ring} {idx n remaining i : ℕ}
    (hremaining : i + remaining = r.sortedHashes.length)
    {result : List GoString} (hnodup : result.Nodup)
    (hlength : result.length ≤ n) :
    r.collectLoop idx n remaining i result.toFinset result =
      .ok ((result ++ ((r.sortedHashes.rotate idx).drop i).map
        (nameAt r.hashMap)).eraseDups.take n) := by
  induction remaining generalizing i result with
  | zero =>
    have hdone : (r.sortedHashes.rotate idx).drop i = [] := by
      apply List.drop_eq_nil_of_le
      rw [List.length_rotate]
      omega
    rw [collectLoop, hdone, List.map_nil, List.append_nil,
      eraseDups_of_nodup hnodup, List.take_of_length_le hlength]
  | succ remaining ih =>
    rw [collectLoop]
    by_cases hfull : (result.length : ℤ) < n
    · have hi : i < (r.sortedHashes.rotate idx).length := by
        rw [List.length_rotate]
        omega
      have hmod : (idx + i) % r.sortedHashes.length <
          r.sortedHashes.length := Nat.mod_lt _ (by omega)
      have hat : (r.sortedHashes.rotate idx)[i] =
          r.sortedHashes[(idx + i) % r.sortedHashes.length] := by
        simp only [List.getElem_rotate, Nat.add_comm idx i]
      rw [List.drop_eq_getElem_cons hi, List.map_cons, hat]
      simp only [hfull, if_true, hashAt_of_lt hmod, bind, Except.bind,
        List.mem_toFinset]
      generalize nameAt r.hashMap
        r.sortedHashes[(idx + i) % r.sortedHashes.length] = name
      by_cases hseen : name ∈ result
      · rw [if_pos hseen, eraseDups_append_cons_of_mem hseen]
        exact ih (i := i + 1) (by omega) hnodup hlength
      · have hgrown : (result ++ [name]).Nodup := by
          rw [← List.concat_eq_append]
          exact hnodup.concat hseen
        have hset : insert name result.toFinset =
            (result ++ [name]).toFinset := by
          rw [List.toFinset_append, Finset.union_comm]
          rfl
        rw [if_neg hseen, hset,
          List.append_cons result name (List.map _ _)]
        refine ih (i := i + 1) (by omega) hgrown ?_
        rw [List.length_append, List.length_singleton]
        omega
    · have heq : n = result.length := by omega
      rw [if_neg hfull, heq, take_eraseDups_append hnodup]

theorem getNodes_eq {r : Ring} (hsorted : r.sortedHashes.Pairwise (· ≤ ·))
    (key : GoString) {n : ℤ} (hn : 0 ≤ n) :
    r.getNodes key n =
      .ok ((r.namesFrom key).eraseDups.take
        (min n.toNat r.members.card)) := by
  by_cases hempty : r.sortedHashes = []
  · simp [getNodes, namesFrom, clockwise, hempty]
  · obtain ⟨k, hk, hstart, _, hwalk⟩ := startIndex_spec hsorted hempty key
    have hcount : (if n > r.members.card then (r.members.card : ℤ) else n) =
        ((min n.toNat r.members.card : ℕ) : ℤ) := by
      split <;> omega
    have hlength : r.sortedHashes.length ≠ 0 := by simpa using hempty
    have hloop : r.collectLoop k (min n.toNat r.members.card : ℕ)
        r.sortedHashes.length 0 ∅ [] = _ :=
      collectLoop_eq (Nat.zero_add _) List.nodup_nil (Nat.zero_le _)
    rw [getNodes, if_neg hlength]
    simp only [hstart, hcount, bind, Except.bind]
    rw [if_neg (by omega)]
    simpa [namesFrom, hwalk] using hloop

theorem getNodes_ne_indexOutOfRange {r : Ring}
    (hsorted : r.sortedHashes.Pairwise (· ≤ ·)) (key : GoString) (n : ℤ) :
    r.getNodes key n ≠ .error .indexOutOfRange := by
  by_cases hn : 0 ≤ n
  · rw [getNodes_eq hsorted key hn]
    simp
  · by_cases hempty : r.sortedHashes = []
    · simp [getNodes, hempty]
    · obtain ⟨k, _, hstart, _⟩ := startIndex_spec hsorted hempty key
      have hlength : r.sortedHashes.length ≠ 0 := by simpa using hempty
      have hfew : ¬ n > r.members.card := by omega
      rw [getNodes, if_neg hlength]
      simp only [hstart, bind, Except.bind, if_neg hfew]
      rw [if_pos (by omega)]
      simp

/-! ## Rings that are reached -/

theorem Accounted.removeNodeChecked_eq {r : Ring} (haccounted : r.Accounted)
    (name : GoString) : r.removeNodeChecked name = .ok (r.removeNode name) := by
  unfold removeNodeChecked
  split
  · rename_i hmember
    have hcard : 0 < r.members.card := Finset.card_pos.mpr ⟨name, hmember⟩
    have hroom : r.vnodes ≤ r.sortedHashes.length :=
      (Nat.le_mul_of_pos_right r.vnodes hcard).trans haccounted.enough
    rw [if_neg (by omega)]
  · rename_i hmember
    rw [removeNode_of_notMem hmember]

theorem Accounted.stepChecked_eq {r : Ring} (haccounted : r.Accounted)
    (op : RingOp) : r.stepChecked op = .ok (r.step op) := by
  cases op with
  | add name => rfl
  | remove name => exact haccounted.removeNodeChecked_eq name

theorem accounted_after (vnodes : ℤ) {ops : List RingOp}
    (hnames : ∀ op ∈ ops, op.name ≠ []) : (after vnodes ops).Accounted :=
  run_invariant_of_meets Accounted (fun _ _ hr hname => hr.step hname)
    (accounted_new vnodes) (Meets.of_forall hnames _)

/-- The books of the ring balance after every sequence of membership changes,
coinciding hashes or not, and so no operation fails a check of the runtime:
`RemoveNode` finds at least the positions of the node it removes, and the
searches stay within the list. -/
theorem positions_accounted (vnodes : ℤ) {ops : List RingOp}
    (hnames : ∀ op ∈ ops, op.name ≠ []) :
    (after vnodes ops).sortedHashes.Pairwise (· ≤ ·) ∧
      (∀ h name, (after vnodes ops).hashMap.lookup h = some name →
        name ∈ (after vnodes ops).members ∧
          h ∈ (after vnodes ops).positions name) ∧
      (after vnodes ops).vnodes * (after vnodes ops).members.card ≤
        (after vnodes ops).sortedHashes.length ∧
      ops.foldlM stepChecked (.new vnodes) = .ok (after vnodes ops) ∧
      (∀ name, (after vnodes ops).removeNodeChecked name =
        .ok ((after vnodes ops).removeNode name)) ∧
      (∀ key, (after vnodes ops).getNodeChecked key =
        .ok ((after vnodes ops).getNode key)) ∧
      (∀ key n, (after vnodes ops).getNodes key n ≠
        .error .indexOutOfRange) := by
  have haccounted := accounted_after vnodes hnames
  refine ⟨haccounted.sorted, ?_, haccounted.enough, ?_,
    haccounted.removeNodeChecked_eq, getNodeChecked_eq haccounted.sorted,
    getNodes_ne_indexOutOfRange haccounted.sorted⟩
  · intro h name hlookup
    obtain ⟨hmember, hposition, _⟩ := haccounted.named h name hlookup
    exact ⟨hmember, hposition⟩
  · exact foldlM_eq_run Accounted (fun _ _ hr hname => hr.step hname)
      (fun _ op hr _ => hr.stepChecked_eq op) (accounted_new vnodes)
      (Meets.of_forall hnames _)

/-- The virtual nodes of `costarring` and `liquid` coincide, and the ring
keeps positions of both when `liquid` leaves. -/
theorem positions_accounted_colliding :
    let ops : List RingOp := [.add (ascii "costarring"),
      .add (ascii "liquid"), .remove (ascii "liquid")]
    (after 3 ops).vnodes * (after 3 ops).members.card ≤
      (after 3 ops).sortedHashes.length := by
  intro ops
  have hnames : ∀ op ∈ ops, op.name ≠ [] := by decide
  exact (positions_accounted 3 hnames).2.2.1

/-- The owners of a key, for every ring with a member: without repetitions,
the owner first, a shorter list the beginning of a longer one, as many as were
asked for and there are, and in the order in which the names first appear
clockwise from the key's position. -/
theorem getNodes_coherent {vnodes : ℤ} {ops : List RingOp}
    (hnames : ∀ op ∈ ops, op.name ≠ [])
    (hmembers : (after vnodes ops).members.Nonempty) (key : GoString)
    {m n : ℤ} (hm : 1 ≤ m) (hmn : m ≤ n) :
    ∃ fewer nodes, (after vnodes ops).getNodes key m = .ok fewer ∧
      (after vnodes ops).getNodes key n = .ok nodes ∧
      nodes.Nodup ∧
      nodes.head? = some ((after vnodes ops).getNode key) ∧
      fewer <+: nodes ∧
      nodes.length = min n.toNat (min (after vnodes ops).members.card
        (after vnodes ops).owners.card) ∧
      nodes <+: ((after vnodes ops).namesFrom key).eraseDups := by
  have haccounted := accounted_after vnodes hnames
  generalize after vnodes ops = r at *
  have hne := haccounted.sortedHashes_ne_nil hmembers
  have hcard : 0 < r.members.card := Finset.card_pos.mpr hmembers
  obtain ⟨k, hk, _, hname, hwalk⟩ := startIndex_spec haccounted.sorted hne key
  refine ⟨_, _, getNodes_eq haccounted.sorted key (by omega),
    getNodes_eq haccounted.sorted key (by omega), ?_, ?_, ?_, ?_, ?_⟩
  · exact (nodup_eraseDups _).sublist (List.take_sublist _ _)
  · have hhead : (r.namesFrom key).head? = some (r.getNode key) := by
      rw [namesFrom, hwalk, List.head?_map, List.head?_rotate hk,
        List.getElem?_eq_getElem hk, hname]
      rfl
    obtain ⟨rest, hnamesFrom⟩ : ∃ rest,
        r.namesFrom key = r.getNode key :: rest := by
      rcases hlist : r.namesFrom key with _ | ⟨first, rest⟩
      · simp [hlist] at hhead
      · rw [hlist, List.head?_cons, Option.some_inj] at hhead
        exact ⟨rest, by rw [hhead]⟩
    rw [hnamesFrom, List.eraseDups_cons, List.head?_take, if_neg (by omega),
      List.head?_cons]
  · exact List.take_prefix_take_left (by omega)
  · rw [List.length_take, length_eraseDups, toFinset_namesFrom]
    omega
  · exact List.take_prefix _ _

theorem getNodes_coherent_three :
    let ops : List RingOp := [.add (ascii "node-1"), .add (ascii "node-2"),
      .add (ascii "node-3")]
    ∃ fewer nodes, (after 3 ops).getNodes (ascii "k") 2 = .ok fewer ∧
      (after 3 ops).getNodes (ascii "k") 5 = .ok nodes ∧
      nodes.length = 3 ∧ fewer <+: nodes := by
  intro ops
  have hnames : ∀ op ∈ ops, op.name ≠ [] := by decide
  have hmembers : (after 3 ops).members.Nonempty := by decide +kernel
  obtain ⟨fewer, nodes, hfewer, hnodes, _, _, hstarts, hlength, _⟩ :=
    getNodes_coherent hnames hmembers (ascii "k") (m := 2) (n := 5)
      (by decide) (by decide)
  refine ⟨fewer, nodes, hfewer, hnodes, hlength.trans ?_, hstarts⟩
  decide +kernel

end Ring

end CacheGrid
