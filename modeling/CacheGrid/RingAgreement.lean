import CacheGrid.RingOwnership

/-!
# Agreement on owners, and owners that exist

As long as no two virtual nodes on a ring have the same hash, the ring is a
function of its members: whatever the order in which nodes have joined and
left, the owners are the same, and an owner is always a member.

Both fail when hashes coincide.  FNV-1a hashes byte by byte, so two names with
the same hash, such as `liquid` and `costarring`, have the same hash for every
one of their virtual nodes.
-/

namespace CacheGrid

open ClockwiseSearch SequentialRuns

namespace Ring

/-! ## Owners are members -/

/-- Every position of the node that is removed is on the ring only once, so
that the whole node goes. -/
def RemovesWhole (r : Ring) : RingOp → Prop
  | .add _ => True
  | .remove name => name ∈ r.members → ∀ h ∈ r.sortedHashes,
      nameAt r.hashMap h = name → r.sortedHashes.count h = 1

-- the bounded quantifiers run over the list, not over all hashes
instance (r : Ring) : (op : RingOp) → Decidable (r.RemovesWhole op)
  | .add _ => isTrue trivial
  | .remove name =>
    have : Decidable (∀ h ∈ r.sortedHashes, nameAt r.hashMap h = name →
        r.sortedHashes.count h = 1) := List.decidableBAll _ _
    inferInstanceAs (Decidable (name ∈ r.members →
      ∀ h ∈ r.sortedHashes, nameAt r.hashMap h = name →
        r.sortedHashes.count h = 1))

def FullyNamed (r : Ring) : Prop :=
  ∀ h ∈ r.sortedHashes, ∃ name, r.hashMap.lookup h = some name

variable {r : Ring}

theorem FullyNamed.addNode (hnamed : r.FullyNamed) (name : GoString) :
    (r.addNode name).FullyNamed := by
  by_cases hmember : name ∈ r.members
  · rwa [addNode_of_mem hmember]
  · intro h hmem
    rw [lookup_addNode hmember]
    split
    · exact ⟨name, rfl⟩
    · next hold =>
        exact hnamed h (((mem_addNode hmember).mp hmem).resolve_right hold)

variable {name : GoString}

theorem FullyNamed.removeNode (hnamed : r.FullyNamed) (hname : name ≠ [])
    (hwhole : r.RemovesWhole (.remove name)) :
    (r.removeNode name).FullyNamed := by
  by_cases hmember : name ∈ r.members
  · intro h hmem
    have hon := hashes_removeNode_subset r name hmem
    have hcount := count_removeNode hname hmember h
    have hother : nameAt r.hashMap h ≠ name := by
      intro heq
      rw [if_pos heq, hwhole hmember h hon heq] at hcount
      exact List.count_eq_zero.mp hcount hmem
    rw [lookup_removeNode hmember, if_neg fun hremoved => hother hremoved.2]
    exact hnamed h hon
  · rwa [removeNode_of_notMem hmember]

theorem Accounted.getNode_mem (haccounted : r.Accounted)
    (hnamed : r.FullyNamed) (hmembers : r.members.Nonempty) (key : GoString) :
    r.getNode key ∈ r.members := by
  have hne := haccounted.sortedHashes_ne_nil hmembers
  obtain ⟨p, hfirst, hat⟩ := getNode_isFirst haccounted.sorted hne key
  obtain ⟨name, hlookup⟩ := hnamed p hfirst.mem
  have howner : r.getNode key = name := by
    simp [hat, nameAt, hlookup]
  rw [howner]
  exact (haccounted.named p name hlookup).1

/-- A ring from which nodes are only removed whole has an owner for every key,
and the owner is a member. -/
theorem getNode_mem_members {vnodes : ℤ} {ops : List RingOp}
    (hops : Meets act (fun r op => op.name ≠ [] ∧ r.RemovesWhole op)
      (.new vnodes) ops)
    (hmembers : (after vnodes ops).members.Nonempty) (key : GoString) :
    (after vnodes ops).getNode key ∈ (after vnodes ops).members := by
  have hbooks : (after vnodes ops).Accounted ∧
      (after vnodes ops).FullyNamed := by
    refine run_invariant_of_meets
      (fun r : Ring => r.Accounted ∧ r.FullyNamed) ?_
      ⟨accounted_new vnodes, by simp [FullyNamed, new]⟩ hops
    intro r op hr hop
    refine ⟨hr.1.step hop.1, ?_⟩
    cases op with
    | add name => exact hr.2.addNode name
    | remove name => exact hr.2.removeNode hop.1 hop.2
  exact hbooks.1.getNode_mem hbooks.2 hmembers key

theorem getNode_mem_members_rejoin :
    let ops : List RingOp := [.add (ascii "node-1"), .add (ascii "node-2"),
      .remove (ascii "node-1"), .add (ascii "node-3"),
      .add (ascii "node-1"), .remove (ascii "node-2")]
    (after 3 ops).getNode (ascii "k") ∈ (after 3 ops).members := by
  intro ops
  exact getNode_mem_members (by decide +kernel) (by decide +kernel) _

/-- `liquid` leaves, and the positions of `costarring` have lost their name. -/
theorem owner_lost_after_removal :
    let ops : List RingOp := [.add (ascii "costarring"),
      .add (ascii "liquid"), .remove (ascii "liquid")]
    (∀ op ∈ ops, op.name ≠ []) ∧
      (after 3 ops).members = {ascii "costarring"} ∧
      (after 3 ops).getNode (ascii "k") = [] := by
  decide +kernel

/-! ## Owners are agreed on -/

/-- A node that is added meets none of its positions on the ring, and a node
that is removed has its virtual nodes at different positions. -/
def KeepsApart (r : Ring) : RingOp → Prop
  | .add name => name ∉ r.members →
      ∀ h ∈ r.positions name, h ∉ r.sortedHashes
  | .remove name => name ∈ r.members → (r.positions name).Nodup

instance (r : Ring) : (op : RingOp) → Decidable (r.KeepsApart op)
  | .add name =>
    have : Decidable (∀ h ∈ r.positions name, h ∉ r.sortedHashes) :=
      List.decidableBAll _ _
    inferInstanceAs (Decidable (name ∉ r.members →
      ∀ h ∈ r.positions name, h ∉ r.sortedHashes))
  | .remove name => inferInstanceAs (Decidable (name ∈ r.members →
      (r.positions name).Nodup))

/-- The positions and their names are those of the members' virtual nodes, as
often as they occur there. -/
structure Exact (r : Ring) : Prop where
  named_iff : ∀ h name, r.hashMap.lookup h = some name ↔
    name ∈ r.members ∧ h ∈ r.positions name
  fullyNamed : r.FullyNamed
  count_eq : ∀ h name, r.hashMap.lookup h = some name →
    r.sortedHashes.count h = (r.positions name).count h

theorem exact_new (vnodes : ℤ) : (new vnodes).Exact where
  named_iff := by simp [new]
  fullyNamed := by simp [FullyNamed, new]
  count_eq := by simp [new]

theorem Exact.addNode (hexact : r.Exact) (hapart : r.KeepsApart (.add name)) :
    (r.addNode name).Exact := by
  by_cases hmember : name ∈ r.members
  · rwa [addNode_of_mem hmember]
  · have hnone : ∀ h ∈ r.positions name, r.sortedHashes.count h = 0 :=
      fun h hposition =>
        List.count_eq_zero.mpr (hapart hmember h hposition)
    have hother : ∀ h other, other ∈ r.members → h ∈ r.positions other →
        h ∉ r.positions name := by
      intro h other hmem hposition hnew
      have hlookup := (hexact.named_iff h other).mpr ⟨hmem, hposition⟩
      have hcount := hexact.count_eq h other hlookup
      rw [hnone h hnew, eq_comm, List.count_eq_zero] at hcount
      contradiction
    constructor
    · intro h other
      rw [lookup_addNode hmember, members_addNode,
        positions_eq (vnodes_addNode r name), Finset.mem_insert]
      split
      · next hnew =>
          constructor
          · intro heq
            obtain rfl := Option.some.inj heq
            exact ⟨Or.inl rfl, hnew⟩
          · rintro ⟨rfl | hmem, hposition⟩
            · rfl
            · exact absurd hnew (hother h other hmem hposition)
      · next hold =>
          rw [hexact.named_iff]
          constructor
          · exact fun hnamed => ⟨Or.inr hnamed.1, hnamed.2⟩
          · rintro ⟨rfl | hmem, hposition⟩
            · contradiction
            · exact ⟨hmem, hposition⟩
    · exact hexact.fullyNamed.addNode name
    · intro h other hlookup
      rw [lookup_addNode hmember] at hlookup
      rw [count_addNode hmember, positions_eq (vnodes_addNode r name)]
      split at hlookup
      · next hnew =>
          obtain rfl := Option.some.inj hlookup
          rw [hnone h hnew, Nat.zero_add]
      · next hold =>
          rw [hexact.count_eq h other hlookup,
            List.count_eq_zero.mpr hold, Nat.add_zero]

theorem Exact.removeNode (hexact : r.Exact) (hname : name ≠ [])
    (hapart : r.KeepsApart (.remove name)) :
    (r.removeNode name).Exact := by
  by_cases hmember : name ∈ r.members
  · have hnameAt : ∀ h, nameAt r.hashMap h = name ↔
        r.hashMap.lookup h = some name := by
      intro h
      unfold nameAt
      cases r.hashMap.lookup h with
      | none => simpa using hname.symm
      | some other => simp
    have hon : ∀ h, r.hashMap.lookup h = some name → h ∈ r.sortedHashes := by
      intro h hlookup
      rw [← List.count_pos_iff, hexact.count_eq h name hlookup,
        List.count_pos_iff]
      exact ((hexact.named_iff h name).mp hlookup).2
    have hlookup : ∀ h, (r.removeNode name).hashMap.lookup h =
        if r.hashMap.lookup h = some name then none
        else r.hashMap.lookup h := by
      intro h
      rw [lookup_removeNode hmember]
      by_cases hnamed : r.hashMap.lookup h = some name
      · rw [if_pos ⟨hon h hnamed, (hnameAt h).mpr hnamed⟩, if_pos hnamed]
      · rw [if_neg fun hremoved => hnamed ((hnameAt h).mp hremoved.2),
          if_neg hnamed]
    have hwhole : r.RemovesWhole (.remove name) := by
      intro _ h _ hnamed
      have hlookup := (hnameAt h).mp hnamed
      rw [hexact.count_eq h name hlookup]
      exact List.count_eq_one_of_mem (hapart hmember)
        ((hexact.named_iff h name).mp hlookup).2
    constructor
    · intro h other
      rw [hlookup, members_removeNode,
        positions_eq (vnodes_removeNode r name), Finset.mem_erase]
      by_cases hnamed : r.hashMap.lookup h = some name
      · simp only [hnamed, if_true]
        constructor
        · intro hnone
          contradiction
        · rintro ⟨⟨hne, hmem⟩, hposition⟩
          have hsame := (hexact.named_iff h other).mpr ⟨hmem, hposition⟩
          rw [hnamed, Option.some.injEq] at hsame
          exact absurd hsame.symm hne
      · rw [if_neg hnamed, hexact.named_iff]
        constructor
        · rintro ⟨hmem, hposition⟩
          refine ⟨⟨?_, hmem⟩, hposition⟩
          rintro rfl
          exact hnamed ((hexact.named_iff h other).mpr ⟨hmem, hposition⟩)
        · exact fun hkept => ⟨hkept.1.2, hkept.2⟩
    · exact hexact.fullyNamed.removeNode hname hwhole
    · intro h other hkept
      rw [hlookup] at hkept
      split at hkept
      · contradiction
      · next hnamed =>
          rw [count_removeNode hname hmember, if_neg (mt (hnameAt h).mp hnamed),
            positions_eq (vnodes_removeNode r name)]
          exact hexact.count_eq h other hkept
  · rwa [removeNode_of_notMem hmember]

theorem Exact.step (hexact : r.Exact) {op : RingOp} (hname : op.name ≠ [])
    (hapart : r.KeepsApart op) :
    (r.step op).Exact := by
  cases op with
  | add name => exact hexact.addNode hapart
  | remove name => exact hexact.removeNode hname hapart

theorem Exact.mem_hashes_iff (hexact : r.Exact) (h : UInt32) :
    h ∈ r.hashes ↔ ∃ name ∈ r.members, h ∈ r.positions name := by
  constructor
  · intro hmem
    obtain ⟨name, hlookup⟩ := hexact.fullyNamed h hmem
    obtain ⟨hmember, hposition⟩ := (hexact.named_iff h name).mp hlookup
    exact ⟨name, hmember, hposition⟩
  · rintro ⟨name, hmember, hposition⟩
    have hlookup := (hexact.named_iff h name).mpr ⟨hmember, hposition⟩
    change h ∈ r.sortedHashes
    rwa [← List.count_pos_iff, hexact.count_eq h name hlookup,
      List.count_pos_iff]

theorem vnodes_step (r : Ring) (op : RingOp) :
    (r.step op).vnodes = r.vnodes := by
  cases op with
  | add name => exact vnodes_addNode r name
  | remove name => exact vnodes_removeNode r name

theorem vnodes_after (vnodes : ℤ) (ops : List RingOp) :
    (after vnodes ops).vnodes = (new vnodes).vnodes :=
  run_invariant (fun r : Ring => r.vnodes = (new vnodes).vnodes)
    (fun r op hvnodes => (vnodes_step r op).trans hvnodes) rfl ops

theorem exact_after {vnodes : ℤ} {ops : List RingOp}
    (hops : Meets act (fun r op => op.name ≠ [] ∧ r.KeepsApart op)
      (.new vnodes) ops) : (after vnodes ops).Exact :=
  run_invariant_of_meets Exact
    (fun _ _ hexact hop => hexact.step hop.1 hop.2) (exact_new vnodes) hops

/-- Rings that have come to the same members in different ways, without two
virtual nodes at one position, give every key the same owner. -/
theorem getNode_agrees {vnodes : ℤ} {ops others : List RingOp}
    (hops : Meets act (fun r op => op.name ≠ [] ∧ r.KeepsApart op)
      (.new vnodes) ops)
    (hothers : Meets act (fun r op => op.name ≠ [] ∧ r.KeepsApart op)
      (.new vnodes) others)
    (hmembers : (after vnodes ops).members = (after vnodes others).members)
    (key : GoString) :
    (after vnodes ops).getNode key = (after vnodes others).getNode key := by
  have hexact := exact_after hops
  have hexact' := exact_after hothers
  have hpositions : ∀ name, (after vnodes ops).positions name =
      (after vnodes others).positions name :=
    positions_eq ((vnodes_after vnodes ops).trans
      (vnodes_after vnodes others).symm)
  apply getNode_eq_of_same (sorted_after vnodes ops)
    (sorted_after vnodes others)
  · ext h
    rw [hexact.mem_hashes_iff, hexact'.mem_hashes_iff, hmembers]
    simp only [hpositions]
  · intro h hmem
    obtain ⟨name, hlookup⟩ := hexact.fullyNamed h hmem
    have hlookup' : (after vnodes others).hashMap.lookup h = some name := by
      rw [hexact'.named_iff, ← hmembers, ← hpositions]
      exact (hexact.named_iff h name).mp hlookup
    simp [nameAt, hlookup, hlookup']

theorem getNode_agrees_reordered :
    let ops : List RingOp := [.add (ascii "node-1"), .add (ascii "node-2"),
      .add (ascii "node-3"), .remove (ascii "node-2")]
    let others : List RingOp := [.add (ascii "node-3"),
      .add (ascii "node-1"), .add (ascii "node-1")]
    (after 3 ops).getNode (ascii "k") =
      (after 3 others).getNode (ascii "k") := by
  intro ops others
  exact getNode_agrees (by decide +kernel) (by decide +kernel)
    (by decide +kernel) _

/-- Whichever of the two joins last owns every key. -/
theorem owners_depend_on_order :
    let ops : List RingOp := [.add (ascii "costarring"),
      .add (ascii "liquid")]
    let others : List RingOp := [.add (ascii "liquid"),
      .add (ascii "costarring")]
    (∀ op ∈ ops ++ others, op.name ≠ []) ∧
      (after 3 ops).members = (after 3 others).members ∧
      (after 3 ops).getNode (ascii "k") = ascii "liquid" ∧
      (after 3 others).getNode (ascii "k") = ascii "costarring" := by
  decide +kernel

end Ring

end CacheGrid
