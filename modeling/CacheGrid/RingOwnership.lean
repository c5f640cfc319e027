import CacheGrid.HashRing
import CacheGrid.ClockwiseSearch
import CacheGrid.SequentialRuns

/-!
# Who owns a key

`GetNode` finds the first position of the ring from the hash of a key on, and
answers the name the map has for it.  So ownership depends on two things
alone: the set of positions, and the name at each of them.

Two virtual nodes may have the same 32-bit hash.  Then their position stands
twice in the list but once in the map, the node added last has the name, and
RemoveNode takes away the map entry with the first of the two: the second
stays, and its name is the empty string.
-/

namespace CacheGrid

open ClockwiseSearch SequentialRuns

instance hashLinearOrder : LinearOrder UInt32 where
  le_refl := UInt32.le_refl
  le_trans := fun _ _ _ => UInt32.le_trans
  lt_iff_le_not_ge := by
    intro a b
    rw [UInt32.lt_iff_toNat_lt, UInt32.le_iff_toNat_le,
      UInt32.le_iff_toNat_le]
    omega
  le_antisymm := fun _ _ => UInt32.le_antisymm
  le_total := UInt32.le_total
  toDecidableLE := inferInstance

/-! ## Binary search -/

theorem searchLoop_isBoundary {f : ℕ → Bool} {n : ℕ}
    (hmono : ∀ a b, a ≤ b → b < n → f a = true → f b = true)
    {fuel i j : ℕ} (hij : i ≤ j) (hj : j ≤ n) (hfuel : j - i ≤ fuel)
    (hbefore : ∀ k < i, f k = false)
    (hafter : ∀ k, j ≤ k → k < n → f k = true) :
    IsBoundary f n (searchLoop f fuel i j) := by
  induction fuel generalizing i j with
  | zero =>
    have heq : i = j := by omega
    subst heq
    exact ⟨hj, hbefore, hafter⟩
  | succ fuel ih =>
    rw [searchLoop]
    by_cases hlt : i < j
    · simp only [hlt, if_true]
      by_cases hmid : f ((i + j) / 2) = true
      · rw [if_pos hmid]
        refine ih (by omega) (by omega) (by omega) hbefore ?_
        intro k hle hk
        exact hmono _ k hle hk hmid
      · rw [if_neg hmid]
        refine ih (by omega) hj (by omega) ?_ hafter
        intro k hk
        by_contra htrue
        refine hmid (hmono k _ (by omega) (by omega) ?_)
        simpa using htrue
    · rw [if_neg hlt]
      have heq : i = j := by omega
      subst heq
      exact ⟨hj, hbefore, hafter⟩

theorem sortSearch_isBoundary {f : ℕ → Bool} {n : ℕ}
    (hmono : ∀ a b, a ≤ b → b < n → f a = true → f b = true) :
    IsBoundary f n (sortSearch n f) := by
  apply searchLoop_isBoundary hmono (Nat.zero_le n) le_rfl (Nat.sub_le n 0)
  · intro k hk
    omega
  · intro k hle hk
    omega

variable {r : Ring}

namespace Ring

theorem getD_of_lt {l : List UInt32} {j : ℕ} (hj : j < l.length) :
    l.getD j 0 = l[j] := by
  simp [List.getD_eq_getElem?_getD, hj]

def hashes (r : Ring) : Set UInt32 := { h | h ∈ r.sortedHashes }

theorem search_isBoundary (hsorted : r.sortedHashes.Pairwise (· ≤ ·))
    (key : GoString) :
    IsBoundary (fun i => decide (hashKey key ≤ r.sortedHashes.getD i 0))
      r.sortedHashes.length
      (sortSearch r.sortedHashes.length
        fun i => decide (hashKey key ≤ r.sortedHashes.getD i 0)) := by
  apply sortSearch_isBoundary
  intro a b hab hb ha
  have hlt : a < r.sortedHashes.length := hab.trans_lt hb
  rw [getD_of_lt hlt, decide_eq_true_iff] at ha
  rw [getD_of_lt hb, decide_eq_true_iff]
  rcases hab.eq_or_lt with rfl | hab
  · exact ha
  · exact ha.trans (List.pairwise_iff_getElem.mp hsorted a b hlt hb hab)

theorem reached_eq (r : Ring) (key : GoString) (j : ℕ)
    (hj : j < r.sortedHashes.length) :
    decide (hashKey key ≤ r.sortedHashes.getD j 0) =
      decide (hashKey key ≤ r.sortedHashes[j]) := by
  rw [getD_of_lt hj]

theorem getNode_found (hne : r.sortedHashes ≠ []) (key : GoString) :
    let found := sortSearch r.sortedHashes.length
      fun i => decide (hashKey key ≤ r.sortedHashes.getD i 0)
    let k := if r.sortedHashes.length ≤ found then 0 else found
    ∃ hk : k < r.sortedHashes.length,
      r.getNode key = nameAt r.hashMap r.sortedHashes[k] := by
  intro found k
  have hpos : 0 < r.sortedHashes.length := List.length_pos_iff.mpr hne
  have hk : k < r.sortedHashes.length := by
    simp only [k]
    split <;> omega
  refine ⟨hk, ?_⟩
  rw [← getD_of_lt hk]
  simp only [getNode, hpos.ne', if_false]
  rfl

theorem getNode_isFirst (hsorted : r.sortedHashes.Pairwise (· ≤ ·))
    (hne : r.sortedHashes ≠ []) (key : GoString) :
    ∃ p, IsFirst r.hashes (hashKey key) p ∧
      r.getNode key = nameAt r.hashMap p := by
  obtain ⟨hk, hname⟩ := getNode_found hne key
  refine ⟨_, ?_, hname⟩
  exact isFirst_getElem hsorted (reached_eq r key)
    (search_isBoundary hsorted key) hk rfl

theorem getNode_eq_of_same {r r' : Ring}
    (hsorted : r.sortedHashes.Pairwise (· ≤ ·))
    (hsorted' : r'.sortedHashes.Pairwise (· ≤ ·))
    (hhashes : r.hashes = r'.hashes)
    (hnames : ∀ h ∈ r.hashes, nameAt r.hashMap h = nameAt r'.hashMap h)
    (key : GoString) : r.getNode key = r'.getNode key := by
  by_cases hempty : r.sortedHashes = []
  · have hempty' : r'.sortedHashes = [] := by
      rw [List.eq_nil_iff_forall_not_mem]
      intro h hmem
      have hin : h ∈ r.hashes := hhashes ▸ hmem
      simp [hashes, hempty] at hin
    simp [getNode, hempty, hempty']
  · have hempty' : r'.sortedHashes ≠ [] := by
      obtain ⟨h, hmem⟩ := List.exists_mem_of_ne_nil _ hempty
      have hin : h ∈ r'.hashes := hhashes ▸ hmem
      exact List.ne_nil_of_mem hin
    obtain ⟨p, hfirst, hname⟩ := getNode_isFirst hsorted hempty key
    obtain ⟨p', hfirst', hname'⟩ := getNode_isFirst hsorted' hempty' key
    have heq : p = p' := hfirst.unique (hhashes ▸ hfirst')
    rw [hname, hname', ← heq]
    exact hnames p hfirst.mem

/-! ## What AddNode and RemoveNode do to a position -/

theorem lookup_foldl_insert (positions : List UInt32) (name : GoString)
    (hashMap : AList fun _ : UInt32 => GoString) (h : UInt32) :
    (positions.foldl (fun hashMap h => hashMap.insert h name)
        hashMap).lookup h =
      if h ∈ positions then some name else hashMap.lookup h := by
  induction positions generalizing hashMap with
  | nil => rfl
  | cons first rest ih =>
    rw [List.foldl_cons, ih]
    by_cases hrest : h ∈ rest
    · simp [hrest]
    · by_cases hfirst : h = first
      · subst hfirst
        simp
      · simp [hrest, hfirst, AList.lookup_insert_ne hfirst]

variable {name : GoString}

theorem addNode_of_mem (hmem : name ∈ r.members) : r.addNode name = r := by
  simp [addNode, hmem]

theorem count_addNode (hnew : name ∉ r.members) (h : UInt32) :
    (r.addNode name).sortedHashes.count h =
      r.sortedHashes.count h + (r.positions name).count h := by
  simp only [addNode, hnew, if_false]
  rw [(List.perm_insertionSort _ _).count_eq, List.count_append]

variable {h : UInt32}

theorem mem_addNode (hnew : name ∉ r.members) :
    h ∈ (r.addNode name).sortedHashes ↔
      h ∈ r.sortedHashes ∨ h ∈ r.positions name := by
  simp only [← List.count_pos_iff, count_addNode hnew]
  omega

theorem lookup_addNode (hnew : name ∉ r.members) (h : UInt32) :
    (r.addNode name).hashMap.lookup h =
      if h ∈ r.positions name then some name else r.hashMap.lookup h := by
  simp only [addNode, hnew, if_false]
  exact lookup_foldl_insert _ _ _ _

theorem nameAt_erase (hashMap : AList fun _ : UInt32 => GoString)
    (x h : UInt32) :
    nameAt (hashMap.erase x) h = if h = x then [] else nameAt hashMap h := by
  unfold nameAt
  by_cases hx : h = x
  · subst hx
    simp
  · simp [hx, AList.lookup_erase_ne hx]

theorem lookup_removeLoop (name : GoString) (hashes : List UInt32)
    (hashMap : AList fun _ : UInt32 => GoString) (h : UInt32) :
    (removeLoop name hashes hashMap).2.lookup h =
      if h ∈ hashes ∧ nameAt hashMap h = name then none
      else hashMap.lookup h := by
  induction hashes generalizing hashMap with
  | nil => simp [removeLoop]
  | cons x rest ih =>
    rw [removeLoop]
    by_cases hx : nameAt hashMap x = name
    · rw [if_neg (by simpa using hx), ih, nameAt_erase]
      by_cases hhx : h = x
      · subst hhx
        simp [hx]
      · simp [hhx, AList.lookup_erase_ne hhx]
    · rw [if_pos hx]
      simp only [ih]
      by_cases hhx : h = x
      · subst hhx
        simp [hx]
      · simp [hhx]

/-- The loop takes away one occurrence of every hash with the name: from then
on the map has no name for it. -/
theorem count_removeLoop (hname : name ≠ []) (hashes : List UInt32)
    (hashMap : AList fun _ : UInt32 => GoString) (h : UInt32) :
    (removeLoop name hashes hashMap).1.count h =
      if nameAt hashMap h = name then hashes.count h - 1
      else hashes.count h := by
  induction hashes generalizing hashMap with
  | nil => simp [removeLoop]
  | cons x rest ih =>
    rw [removeLoop]
    by_cases hx : nameAt hashMap x = name
    · rw [if_neg (by simpa using hx), ih, nameAt_erase]
      by_cases hhx : h = x
      · subst hhx
        simp [hx, hname.symm]
      · simp [hhx, Ne.symm hhx]
    · rw [if_pos hx]
      simp only [List.count_cons, ih]
      by_cases hhx : h = x
      · subst hhx
        simp [hx]
      · simp [Ne.symm hhx]

theorem length_removeLoop (hname : name ≠ []) (hashes : List UInt32)
    (hashMap : AList fun _ : UInt32 => GoString) :
    hashes.length = (removeLoop name hashes hashMap).1.length +
      (hashes.toFinset.filter fun h => nameAt hashMap h = name).card := by
  induction hashes generalizing hashMap with
  | nil => simp [removeLoop]
  | cons x rest ih =>
    rw [removeLoop, List.toFinset_cons, Finset.filter_insert]
    by_cases hx : nameAt hashMap x = name
    · rw [if_neg (by simpa using hx), if_pos hx, List.length_cons,
        ih (hashMap.erase x)]
      have hothers : rest.toFinset.filter
          (fun h => nameAt (hashMap.erase x) h = name) =
          (rest.toFinset.filter fun h => nameAt hashMap h = name).erase
            x := by
        ext h
        by_cases hhx : h = x
        · simp [nameAt_erase, hhx, hname.symm]
        · simp [nameAt_erase, hhx]
      rw [hothers, Finset.card_insert_eq_ite]
      split
      · next hmem =>
          rw [Finset.card_erase_of_mem hmem]
          have hpos := Finset.card_pos.mpr ⟨x, hmem⟩
          omega
      · next hmem =>
          rw [Finset.erase_eq_of_notMem hmem]
          omega
    · rw [if_pos hx, if_neg hx, List.length_cons, List.length_cons,
        ih hashMap]
      omega

theorem mem_removeLoop {hashes : List UInt32}
    {hashMap : AList fun _ : UInt32 => GoString} (hmem : h ∈ hashes)
    (hother : nameAt hashMap h ≠ name) :
    h ∈ (removeLoop name hashes hashMap).1 := by
  induction hashes generalizing hashMap with
  | nil => contradiction
  | cons x rest ih =>
    rw [removeLoop]
    by_cases hx : nameAt hashMap x = name
    · have hhx : h ≠ x := fun heq => hother (heq ▸ hx)
      rw [if_neg (by simpa using hx)]
      apply ih ((List.mem_cons.mp hmem).resolve_left hhx)
      rwa [nameAt_erase, if_neg hhx]
    · rw [if_pos hx]
      rcases List.mem_cons.mp hmem with rfl | hrest
      · exact List.mem_cons_self
      · exact List.mem_cons_of_mem x (ih hrest hother)

theorem removeNode_of_notMem (hmem : name ∉ r.members) :
    r.removeNode name = r := by
  simp [removeNode, hmem]

theorem hashes_removeNode_subset (r : Ring) (name : GoString) :
    (r.removeNode name).hashes ⊆ r.hashes := by
  intro h hmem
  by_cases hmember : name ∈ r.members
  · simp only [hashes, removeNode, hmember, if_true] at hmem
    exact (removeLoop_sublist _ _ _).subset hmem
  · rwa [removeNode_of_notMem hmember] at hmem

theorem nameAt_removeNode (hother : nameAt r.hashMap h ≠ name) :
    nameAt (r.removeNode name).hashMap h = nameAt r.hashMap h := by
  by_cases hmember : name ∈ r.members
  · simp only [removeNode, hmember, if_true]
    unfold nameAt at hother ⊢
    rw [lookup_removeLoop, if_neg]
    exact fun hremoved => hother hremoved.2
  · rw [removeNode_of_notMem hmember]

theorem mem_removeNode (hmem : h ∈ r.hashes)
    (hother : nameAt r.hashMap h ≠ name) :
    h ∈ (r.removeNode name).hashes := by
  by_cases hmember : name ∈ r.members
  · simp only [hashes, removeNode, hmember, if_true]
    exact mem_removeLoop hmem hother
  · rwa [removeNode_of_notMem hmember]

/-! ## Few keys move -/

theorem getNode_addNode (hsorted : r.sortedHashes.Pairwise (· ≤ ·))
    (name key : GoString) :
    (r.addNode name).getNode key = name ∨
      (r.addNode name).getNode key = r.getNode key := by
  by_cases hmember : name ∈ r.members
  · exact Or.inr (by rw [addNode_of_mem hmember])
  · have hsub : r.hashes ⊆ (r.addNode name).hashes := fun h hmem =>
      (mem_addNode hmember).mpr (Or.inl hmem)
    by_cases hempty : (r.addNode name).sortedHashes = []
    · have hbefore : r.sortedHashes = [] := by
        rw [List.eq_nil_iff_forall_not_mem]
        intro h hmem
        have hafter : h ∈ (r.addNode name).sortedHashes := hsub hmem
        simp [hempty] at hafter
      exact Or.inr (by simp [getNode, hempty, hbefore])
    · obtain ⟨p, hfirst, hname⟩ :=
        getNode_isFirst (sorted_addNode name hsorted) hempty key
      have hlookup := lookup_addNode hmember p
      by_cases hnew : p ∈ r.positions name
      · rw [if_pos hnew] at hlookup
        exact Or.inl (by simp [hname, nameAt, hlookup])
      · -- the position was there before, and its name has not changed
        have hold : p ∈ r.hashes :=
          ((mem_addNode hmember).mp hfirst.mem).resolve_right hnew
        obtain ⟨q, hfirst', hname'⟩ :=
          getNode_isFirst hsorted (List.ne_nil_of_mem hold) key
        have heq : p = q := (hfirst.of_subset hsub hold).unique hfirst'
        rw [if_neg hnew] at hlookup
        rw [hname, hname', ← heq]
        exact Or.inr (by simp [nameAt, hlookup])

theorem getNode_removeNode (hsorted : r.sortedHashes.Pairwise (· ≤ ·))
    {name key : GoString} (hother : r.getNode key ≠ name) :
    (r.removeNode name).getNode key = r.getNode key := by
  by_cases hempty : r.sortedHashes = []
  · have hafter : (r.removeNode name).sortedHashes = [] := by
      rw [List.eq_nil_iff_forall_not_mem]
      intro h hmem
      have hbefore := hashes_removeNode_subset r name hmem
      simp [hashes, hempty] at hbefore
    simp [getNode, hempty, hafter]
  · obtain ⟨p, hfirst, hname⟩ := getNode_isFirst hsorted hempty key
    rw [hname] at hother ⊢
    have hstays := mem_removeNode hfirst.mem hother
    obtain ⟨q, hfirst', hname'⟩ :=
      getNode_isFirst (sorted_removeNode name hsorted)
        (List.ne_nil_of_mem hstays) key
    have heq : p = q :=
      (hfirst.of_subset (hashes_removeNode_subset r name) hstays).unique
        hfirst'
    rw [hname', ← heq, nameAt_removeNode hother]

/-! ## Membership changes one after the other -/

def act (r : Ring) (op : RingOp) : Unit × Ring := ((), r.step op)

def after (vnodes : ℤ) (ops : List RingOp) : Ring :=
  (run act (.new vnodes) ops).2

theorem sorted_step (op : RingOp) (hsorted : r.sortedHashes.Pairwise (· ≤ ·)) :
    (r.step op).sortedHashes.Pairwise (· ≤ ·) := by
  cases op with
  | add name => exact sorted_addNode name hsorted
  | remove name => exact sorted_removeNode name hsorted

theorem sorted_after (vnodes : ℤ) (ops : List RingOp) :
    (after vnodes ops).sortedHashes.Pairwise (· ≤ ·) :=
  run_invariant (fun r : Ring => r.sortedHashes.Pairwise (· ≤ ·))
    (fun _ op hsorted => sorted_step op hsorted) List.Pairwise.nil ops

/-- On every ring that membership changes lead to, coinciding hashes or not,
a node that is added takes keys for itself only, and a node that is removed
gives away only its own. -/
theorem membership_moves_few_keys (vnodes : ℤ) (ops : List RingOp)
    (name key : GoString) :
    (((after vnodes ops).addNode name).getNode key = name ∨
        ((after vnodes ops).addNode name).getNode key =
          (after vnodes ops).getNode key) ∧
      ((after vnodes ops).getNode key ≠ name →
        ((after vnodes ops).removeNode name).getNode key =
          (after vnodes ops).getNode key) :=
  ⟨getNode_addNode (sorted_after vnodes ops) name key,
    getNode_removeNode (sorted_after vnodes ops)⟩

/-! ## The books of a ring -/

@[simp] theorem vnodes_addNode (r : Ring) (name : GoString) :
    (r.addNode name).vnodes = r.vnodes := by
  unfold addNode
  split <;> rfl

@[simp] theorem vnodes_removeNode (r : Ring) (name : GoString) :
    (r.removeNode name).vnodes = r.vnodes := by
  unfold removeNode
  split <;> rfl

theorem positions_eq {r r' : Ring} (hvnodes : r.vnodes = r'.vnodes)
    (name : GoString) : r.positions name = r'.positions name := by
  simp [positions, hvnodes]

theorem members_addNode (r : Ring) (name : GoString) :
    (r.addNode name).members = insert name r.members := by
  unfold addNode
  split
  · next hmem => rw [Finset.insert_eq_of_mem hmem]
  · rfl

theorem members_removeNode (r : Ring) (name : GoString) :
    (r.removeNode name).members = r.members.erase name := by
  unfold removeNode
  split
  · rfl
  · next hmem => rw [Finset.erase_eq_of_notMem hmem]

theorem lookup_removeNode (hmember : name ∈ r.members) (h : UInt32) :
    (r.removeNode name).hashMap.lookup h =
      if h ∈ r.sortedHashes ∧ nameAt r.hashMap h = name then none
      else r.hashMap.lookup h := by
  simp only [removeNode, hmember, if_true]
  exact lookup_removeLoop _ _ _ _

theorem count_removeNode (hname : name ≠ []) (hmember : name ∈ r.members)
    (h : UInt32) :
    (r.removeNode name).sortedHashes.count h =
      if nameAt r.hashMap h = name then r.sortedHashes.count h - 1
      else r.sortedHashes.count h := by
  simp only [removeNode, hmember, if_true]
  exact count_removeLoop hname _ _ _

/-- Every named position is on the ring and belongs to a member, and there are
at least as many positions as the members have virtual nodes. -/
structure Accounted (r : Ring) : Prop where
  vnodes_pos : 0 < r.vnodes
  sorted : r.sortedHashes.Pairwise (· ≤ ·)
  member_ne : ∀ name ∈ r.members, name ≠ []
  named : ∀ h name, r.hashMap.lookup h = some name →
    name ∈ r.members ∧ h ∈ r.positions name ∧ h ∈ r.sortedHashes
  enough : r.vnodes * r.members.card ≤ r.sortedHashes.length

theorem accounted_new (vnodes : ℤ) : (new vnodes).Accounted where
  vnodes_pos := by
    simp only [new]
    split
    · decide
    · omega
  sorted := List.Pairwise.nil
  member_ne := by simp [new]
  named := by simp [new]
  enough := by simp [new]

theorem Accounted.sortedHashes_ne_nil (haccounted : r.Accounted)
    (hmembers : r.members.Nonempty) : r.sortedHashes ≠ [] := by
  intro hempty
  have henough := haccounted.enough
  rw [hempty, List.length_nil, Nat.le_zero, Nat.mul_eq_zero] at henough
  have hvnodes := haccounted.vnodes_pos
  have hcard := Finset.card_pos.mpr hmembers
  omega

theorem length_positions (r : Ring) (name : GoString) :
    (r.positions name).length = r.vnodes := by
  simp [positions]

theorem Accounted.addNode (haccounted : r.Accounted) (hname : name ≠ []) :
    (r.addNode name).Accounted := by
  by_cases hmember : name ∈ r.members
  · rwa [addNode_of_mem hmember]
  · constructor
    · simpa using haccounted.vnodes_pos
    · exact sorted_addNode name haccounted.sorted
    · intro other hother
      rw [members_addNode, Finset.mem_insert] at hother
      rcases hother with rfl | hother
      · exact hname
      · exact haccounted.member_ne other hother
    · intro h other hlookup
      rw [lookup_addNode hmember] at hlookup
      rw [members_addNode, positions_eq (vnodes_addNode r name),
        mem_addNode hmember]
      split at hlookup
      · next hnew =>
          obtain rfl := Option.some.inj hlookup
          exact ⟨Finset.mem_insert_self _ _, hnew, Or.inr hnew⟩
      · obtain ⟨hmem, hposition, hon⟩ :=
          haccounted.named h other hlookup
        exact ⟨Finset.mem_insert_of_mem hmem, hposition, Or.inl hon⟩
    · have henough := haccounted.enough
      rw [vnodes_addNode, members_addNode,
        Finset.card_insert_of_notMem hmember]
      simp only [Ring.addNode, hmember, if_false, List.length_insertionSort,
        List.length_append, length_positions]
      rw [Nat.mul_succ]
      omega

/-- A member has at most `vnodes` named positions, and no more are removed
with it. -/
theorem Accounted.card_named_le (haccounted : r.Accounted) (hname : name ≠ []) :
    (r.sortedHashes.toFinset.filter fun h =>
      nameAt r.hashMap h = name).card ≤ r.vnodes := by
  have hsub : (r.sortedHashes.toFinset.filter fun h =>
      nameAt r.hashMap h = name) ⊆ (r.positions name).toFinset := by
    intro h hmem
    have hnamed := (Finset.mem_filter.mp hmem).2
    unfold nameAt at hnamed
    cases hlookup : r.hashMap.lookup h with
    | none =>
      rw [hlookup] at hnamed
      exact absurd hnamed.symm hname
    | some other =>
      rw [hlookup] at hnamed
      obtain rfl : other = name := hnamed
      exact List.mem_toFinset.mpr (haccounted.named h other hlookup).2.1
  calc
    _ ≤ (r.positions name).toFinset.card := Finset.card_le_card hsub
    _ ≤ (r.positions name).length := List.toFinset_card_le _
    _ = r.vnodes := length_positions r name

theorem Accounted.removeNode (haccounted : r.Accounted) (hname : name ≠ []) :
    (r.removeNode name).Accounted := by
  by_cases hmember : name ∈ r.members
  · constructor
    · simpa using haccounted.vnodes_pos
    · exact sorted_removeNode name haccounted.sorted
    · intro other hother
      rw [members_removeNode] at hother
      exact haccounted.member_ne other (Finset.mem_of_mem_erase hother)
    · intro h other hlookup
      rw [lookup_removeNode hmember] at hlookup
      split at hlookup
      · contradiction
      · next hkept =>
          obtain ⟨hmem, hposition, hon⟩ :=
            haccounted.named h other hlookup
          have hat : nameAt r.hashMap h = other := by
            simp [nameAt, hlookup]
          have hother : other ≠ name := fun heq =>
            hkept ⟨hon, hat.trans heq⟩
          rw [members_removeNode, positions_eq (vnodes_removeNode r name)]
          exact ⟨Finset.mem_erase.mpr ⟨hother, hmem⟩, hposition,
            mem_removeNode hon (hat ▸ hother)⟩
    · have henough := haccounted.enough
      have hremoved := haccounted.card_named_le hname
      have hlength := length_removeLoop hname r.sortedHashes r.hashMap
      have hcard : r.members.card = (r.members.erase name).card + 1 := by
        rw [Finset.card_erase_of_mem hmember]
        have hpos := Finset.card_pos.mpr ⟨name, hmember⟩
        omega
      rw [hcard, Nat.mul_succ] at henough
      rw [vnodes_removeNode, members_removeNode]
      simp only [Ring.removeNode, hmember, if_true]
      omega
  · rwa [removeNode_of_notMem hmember]

end Ring

def RingOp.name : RingOp → GoString
  | .add name => name
  | .remove name => name

namespace Ring

theorem Accounted.step (haccounted : r.Accounted) {op : RingOp}
    (hname : op.name ≠ []) : (r.step op).Accounted := by
  cases op with
  | add name => exact haccounted.addNode hname
  | remove name => exact haccounted.removeNode hname

end Ring

end CacheGrid
