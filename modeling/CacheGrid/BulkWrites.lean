import CacheGrid.CallOutcomes
import CacheGrid.GridCluster
import CacheGrid.StoreLaws
import Mathlib.Data.List.TakeWhile

/-!
# Writing many keys at once

`Cache.MSet` ranges over a map, in an order that Go does not determine, and
returns at the first item that cannot be stored: one with an empty key, or one
whose value cannot be serialized.  The items before it are in the store by
then, the others are not.  Whether there is an error does not depend on the
order, but what is left in the store does, unless the items that could be
stored were there already.
-/

namespace CacheGrid

open InterleavedPrograms SequentialRuns TimedMap

structure Item (V : Type) where
  value : GoValue V
  ttl : Duration

namespace Grid

section Program

variable {V D : Type} (z : Serializer V D)

/-- The loop of `MSet`, along the order in which the map is visited. -/
def msetLoop (c : GoString) :
    List (GoString × Item V) → Program (Option CacheError)
  | [] => pure none
  | (key, item) :: rest => do
    match ← set z c key item.value item.ttl with
    | some err => pure (some err)
    | none => msetLoop c rest

def mset (c : GoString) (items : List (GoString × Item V)) :
    Program (Option CacheError) := do
  if ← perform (.loadClosed c) then pure (some .shutdown)
  else msetLoop z c items

/-! ## What is stored -/

/-- `Set` stores the item: its key is not empty and its value can be
serialized. -/
def storable (item : GoString × Item V) : Bool :=
  item.1 ≠ [] && (z.serialize item.2.value).isOk

def recordOf (config : CacheConfig) (s : ℤ) (item : GoString × Item V) :
    Option (Record Bytes) :=
  (z.serialize item.2.value).toOption.map fun data =>
    ⟨data, deadlineOf s (config.effectiveTTL item.2.ttl)⟩

def writeAll (config : CacheConfig) (s : ℤ)
    (contents : Contents GoString Bytes) (items : List (GoString × Item V)) :
    Contents GoString Bytes :=
  items.foldl
    (fun contents item =>
      Function.update contents item.1 (recordOf z config s item))
    contents

end Program

section Writes

variable {V D : Type} {z : Serializer V D} {config : CacheConfig} {s : ℤ}

theorem storable_iff {item : GoString × Item V} :
    storable z item = true ↔
      item.1 ≠ [] ∧ ∃ data, z.serialize item.2.value = .ok data := by
  unfold storable
  cases z.serialize item.2.value <;> simp [Except.isOk, Except.toBool]

theorem writeAll_perm {items items' : List (GoString × Item V)}
    (hperm : items.Perm items') (hkeys : (items.map Prod.fst).Nodup)
    (contents : Contents GoString Bytes) :
    writeAll z config s contents items =
      writeAll z config s contents items' := by
  apply hperm.foldl_eq'
  intro item hitem other hother contents
  by_cases hsame : item.1 = other.1
  · rw [List.inj_on_of_nodup_map hkeys hitem hother hsame]
  · exact Function.update_comm hsame _ _ contents

theorem writeAll_of_present {items : List (GoString × Item V)}
    {contents : Contents GoString Bytes}
    (hpresent : ∀ item ∈ items, contents item.1 = recordOf z config s item) :
    writeAll z config s contents items = contents := by
  induction items with
  | nil => rfl
  | cons item items ih =>
    rw [List.forall_mem_cons] at hpresent
    rw [writeAll, List.foldl_cons, ← hpresent.1, Function.update_eq_self]
    exact ih hpresent.2

end Writes

/-! ## Runs of the call -/

section Runs

variable {V D : Type} {z : Serializer V D} {σ : Type} {impl : StoreImpl σ}
  {codec : Msgpack} {good : σ → Prop} {contents : σ → Contents GoString Bytes}
  {g : Grid σ} {c : GoString} {n : CacheNode σ} {s : ℤ}

theorem alone_set_storable (hlaw : KeepsLedger impl codec good contents)
    (hnode : g.nodes c = some n) (hlocal : n.topology = none)
    (hopen : n.closed = false) (hgood : good n.store)
    {item : GoString × Item V} (hstorable : storable z item = true) :
    ∃ after n', after.nodes c = some n' ∧ n'.frame = n.frame ∧
      good n'.store ∧
      contents n'.store = Function.update (contents n.store) item.1
        (recordOf z n.config s item) ∧
      (set z c item.1 item.2.value item.2.ttl).alone (machine impl) Op.timed
        (Timeline.instant s).choice g =
        some (none, (Timeline.instant s).choice, after) := by
  obtain ⟨hkey, data, hdata⟩ := storable_iff.mp hstorable
  obtain ⟨result, after, haccess, halone⟩ := @alone_set_local σ V D impl
    z g c item.1 n (Timeline.instant s).choice hnode hlocal hopen hkey
    item.2.value data hdata item.2.ttl
  obtain ⟨n', hnode', hframe, _, hcalled⟩ := haccess.node hnode
  refine ⟨after, n', hnode', hframe, ?_, ?_, halone⟩
  · rw [hcalled]
    exact hlaw.good_call hgood _
  · rw [hcalled, hlaw.contents_eq hgood rfl, recordOf, hdata]
    rfl

theorem alone_set_not_storable (hnode : g.nodes c = some n)
    (hopen : n.closed = false) {item : GoString × Item V}
    (hstorable : storable z item = false) (choices : ℕ → Choice) :
    ∃ err, (set z c item.1 item.2.value item.2.ttl).alone (machine impl)
      Op.timed choices g = some (some err, choices, g) := by
  by_cases hkey : item.1 = []
  · unfold set
    rw [if_pos hkey]
    exact ⟨.keyEmpty, rfl⟩
  · cases hdata : z.serialize item.2.value with
    | error cause =>
      exact ⟨_, alone_set_unserializable hnode hopen hkey hdata _⟩
    | ok data =>
      rw [storable_iff.mpr ⟨hkey, data, hdata⟩] at hstorable
      contradiction

/-- What the loop leaves behind: the items before the first one that cannot be
stored are written. -/
theorem alone_msetLoop (hlaw : KeepsLedger impl codec good contents)
    (hnode : g.nodes c = some n) (hlocal : n.topology = none)
    (hopen : n.closed = false) (hgood : good n.store)
    (visit : List (GoString × Item V)) :
    ∃ err after n', after.nodes c = some n' ∧
      (msetLoop z c visit).alone (machine impl) Op.timed
        (Timeline.instant s).choice g =
        some (err, (Timeline.instant s).choice, after) ∧
      err.isSome = visit.any (fun item => !storable z item) ∧
      contents n'.store = writeAll z n.config s (contents n.store)
        (visit.takeWhile (storable z)) := by
  induction visit generalizing g n with
  | nil => exact ⟨none, g, n, hnode, rfl, rfl, rfl⟩
  | cons item visit ih =>
    cases hstorable : storable z item with
    | true =>
      obtain ⟨middle, m, hnode', hframe, hgood', hcontents, hset⟩ :=
        @alone_set_storable V D z σ impl codec good contents g c n s hlaw
          hnode hlocal hopen hgood item hstorable
      obtain ⟨htopology, hclosed, hconfig⟩ := Frame.mk.inj hframe
      obtain ⟨err, after, n', hafter, hrest, herr, hfinal⟩ := ih hnode'
        (htopology.trans hlocal) (hclosed.trans hopen) hgood'
      refine ⟨err, after, n', hafter, ?_, ?_, ?_⟩
      · rw [msetLoop, Prog.alone_bind_of_eq hset]
        exact hrest
      · rw [herr, List.any_cons, hstorable]
        rfl
      · rw [hfinal, hcontents, hconfig,
          List.takeWhile_cons_of_pos hstorable]
        rfl
    | false =>
      obtain ⟨err, hset⟩ := @alone_set_not_storable V D z σ impl g c n
        hnode hopen item hstorable (Timeline.instant s).choice
      refine ⟨some err, g, n, hnode, ?_, ?_, ?_⟩
      · rw [msetLoop, Prog.alone_bind_of_eq hset]
        rfl
      · rw [List.any_cons, hstorable]
        rfl
      · rw [List.takeWhile_cons_of_neg (by simp [hstorable])]
        rfl

/-- Whether `MSet` at `s` returns an error, and the records it leaves. -/
def msetOutcome (impl : StoreImpl σ) (contents : σ → Contents GoString Bytes)
    (z : Serializer V D) (g : Grid σ) (c : GoString) (s : ℤ)
    (visit : List (GoString × Item V)) :
    Option (Bool × Contents GoString Bytes) :=
  ((mset z c visit).alone (machine impl) Op.timed (Timeline.instant s).choice
    g).bind fun r => (r.2.2.stores c).map fun store =>
      (r.1.isSome, contents store)

theorem msetOutcome_closed (hnode : g.nodes c = some n)
    (hclosed : n.closed = true) (visit : List (GoString × Item V)) :
    msetOutcome impl contents z g c s visit =
      some (true, contents n.store) := by
  have halone : (mset z c visit).alone (machine impl) Op.timed
      (Timeline.instant s).choice g =
      some (some .shutdown, (Timeline.instant s).choice, g) := by
    unfold mset
    rw [Prog.alone_perform_bind (onNodeRead_eq hnode _)]
    simp only [hclosed]
    rfl
  rw [msetOutcome, halone, Option.bind_some, stores_of_node hnode]
  rfl

theorem msetOutcome_open (hlaw : KeepsLedger impl codec good contents)
    (hnode : g.nodes c = some n) (hlocal : n.topology = none)
    (hopen : n.closed = false) (hgood : good n.store)
    (visit : List (GoString × Item V)) :
    msetOutcome impl contents z g c s visit =
      some (visit.any fun item => !storable z item,
        writeAll z n.config s (contents n.store)
          (visit.takeWhile (storable z))) := by
  obtain ⟨err, after, n', hnode', hloop, herr, hcontents⟩ :=
    @alone_msetLoop V D z σ impl codec good contents g c n s hlaw hnode hlocal
      hopen hgood visit
  have halone : (mset z c visit).alone (machine impl) Op.timed
      (Timeline.instant s).choice g =
      some (err, (Timeline.instant s).choice, after) := by
    unfold mset
    rw [Prog.alone_perform_bind (onNodeRead_eq hnode _)]
    simp only [hopen]
    exact hloop
  rw [msetOutcome, halone, Option.bind_some, stores_of_node hnode',
    Option.map_some, herr, hcontents]

theorem exists_visits {items : List (GoString × Item V)}
    {bad item : GoString × Item V} (hbad : bad ∈ items) (hitem : item ∈ items)
    (hne : item ≠ bad) :
    ∃ rest, (bad :: item :: rest).Perm items ∧
      (item :: bad :: rest).Perm items := by
  classical
  have hfirst := List.perm_cons_erase hbad
  have hsecond := List.perm_cons_erase
    ((List.mem_erase_of_ne hne).mpr hitem)
  have hboth : (bad :: item :: (items.erase bad).erase item).Perm items :=
    (hfirst.trans (hsecond.cons bad)).symm
  exact ⟨_, hboth, (List.Perm.swap bad item _).trans hboth⟩

/-- All orders of the visit lead to the same store if and only if the cache is
shut down, every item can be stored, or those that can are there already. -/
theorem mset_outcome_eq_iff (hlaw : KeepsLedger impl codec good contents)
    (hnode : g.nodes c = some n) (hlocal : n.topology = none)
    (hgood : good n.store) {items : List (GoString × Item V)}
    (hkeys : (items.map Prod.fst).Nodup) :
    (∀ visit visit', visit.Perm items → visit'.Perm items →
      msetOutcome impl contents z g c s visit =
        msetOutcome impl contents z g c s visit') ↔
      n.closed = true ∨ (∀ item ∈ items, storable z item = true) ∨
        ∀ item ∈ items, storable z item = true →
          contents n.store item.1 = recordOf z n.config s item := by
  cases hclosed : n.closed with
  | true =>
    refine iff_of_true ?_ (Or.inl rfl)
    intro visit visit' _ _
    rw [msetOutcome_closed hnode hclosed, msetOutcome_closed hnode hclosed]
  | false =>
    have houtcome := @msetOutcome_open V D z σ impl codec good contents g c n
      s hlaw hnode hlocal hclosed hgood
    constructor
    · intro hsame
      by_contra hnot
      simp only [Bool.false_eq_true, false_or, not_or, not_forall,
        exists_prop] at hnot
      obtain ⟨⟨bad, hbad, hfails⟩, item, hitem, hstored, hmissing⟩ := hnot
      have hne : item ≠ bad := by
        rintro rfl
        exact hfails hstored
      obtain ⟨rest, hfirst, hsecond⟩ := exists_visits hbad hitem hne
      have heq := hsame _ _ hfirst hsecond
      rw [houtcome, houtcome, List.takeWhile_cons_of_neg hfails,
        List.takeWhile_cons_of_pos hstored,
        List.takeWhile_cons_of_neg hfails, Option.some_inj,
        Prod.mk.injEq] at heq
      have hat := congrFun heq.2 item.1
      simp only [writeAll, List.foldl_cons, List.foldl_nil,
        Function.update_self] at hat
      exact hmissing hat
    · intro hcases visit visit' hvisit hvisit'
      have hany : visit.any (fun item => !storable z item) =
          visit'.any (fun item => !storable z item) :=
        (hvisit.trans hvisit'.symm).any_eq
      rw [houtcome, houtcome, hany]
      rcases hcases with hfalse | hall | hpresent
      · cases hfalse
      · have hall_visit : ∀ {visit : List (GoString × Item V)},
            visit.Perm items → visit.takeWhile (storable z) = visit := by
          intro visit hperm
          rw [List.takeWhile_eq_self_iff]
          intro item hitem
          exact hall item (hperm.mem_iff.mp hitem)
        rw [hall_visit hvisit, hall_visit hvisit',
          writeAll_perm (hvisit.trans hvisit'.symm)
            ((hvisit.map Prod.fst).nodup_iff.mpr hkeys)]
      · have hkept : ∀ {visit : List (GoString × Item V)},
            visit.Perm items →
            writeAll z n.config s (contents n.store)
              (visit.takeWhile (storable z)) = contents n.store := by
          intro visit hperm
          apply writeAll_of_present
          intro item hitem
          exact hpresent item
            (hperm.mem_iff.mp ((List.takeWhile_prefix _).subset hitem))
            (List.mem_takeWhile_imp hitem)
        rw [hkept hvisit, hkept hvisit']

theorem mset_error_eq (hlaw : KeepsLedger impl codec good contents)
    (hnode : g.nodes c = some n) (hlocal : n.topology = none)
    (hgood : good n.store) {items visit : List (GoString × Item V)}
    (hvisit : visit.Perm items) :
    ∃ left, msetOutcome impl contents z g c s visit =
      some (n.closed || items.any fun item => !storable z item, left) := by
  cases hclosed : n.closed with
  | true => exact ⟨_, msetOutcome_closed hnode hclosed visit⟩
  | false =>
    rw [msetOutcome_open hlaw hnode hlocal hclosed hgood, hvisit.any_eq]
    exact ⟨_, rfl⟩

end Runs

/-- A memory store without a limit.  Whether `MSet` fails is the same for all
orders in which the items are visited; what it leaves in the store is the same
for all of them exactly if the cache is shut down, all items can be stored, or
those that can are in the store as they would be written. -/
theorem mset_order_iff {V D : Type} (z : Serializer V D) (codec : Msgpack)
    {g : Grid MemoryStore} {c : GoString} {n : CacheNode MemoryStore}
    (hnode : g.nodes c = some n) (hlocal : n.topology = none)
    (hunlimited : n.store.Unlimited) {items : List (GoString × Item V)}
    (hkeys : (items.map Prod.fst).Nodup) (s : ℤ) :
    (∀ visit, visit.Perm items → ∃ left,
      msetOutcome (MemoryStore.impl codec) MemoryStore.contents z g c s visit =
        some (n.closed || items.any fun item => !storable z item, left)) ∧
    ((∀ visit visit', visit.Perm items → visit'.Perm items →
      msetOutcome (MemoryStore.impl codec) MemoryStore.contents z g c s visit =
        msetOutcome (MemoryStore.impl codec) MemoryStore.contents z g c s
          visit') ↔
      n.closed = true ∨ (∀ item ∈ items, storable z item = true) ∨
        ∀ item ∈ items, storable z item = true →
          n.store.contents item.1 = recordOf z n.config s item) := by
  have hlaw := MemoryStore.keepsLedger codec
  refine ⟨?_, mset_outcome_eq_iff hlaw hnode hlocal hunlimited hkeys⟩
  intro visit hvisit
  exact mset_error_eq hlaw hnode hlocal hunlimited hvisit

def emptyCache : Grid MemoryStore :=
  launchLocal ⟨.partitioned, 0⟩ (MemoryStore.new 1 Nat.one_pos 0 false false)

def twoItems : List (GoString × Item Empty) :=
  [(ascii "k", ⟨.bytes [1], 0⟩), (ascii "l", ⟨.bytes [2], 5⟩)]

theorem mset_order_two_items :
    (∀ item ∈ twoItems, storable Serializer.basic item = true) ∧
      msetOutcome (MemoryStore.impl .int64) MemoryStore.contents
        Serializer.basic emptyCache [] 0 twoItems =
      msetOutcome (MemoryStore.impl .int64) MemoryStore.contents
        Serializer.basic emptyCache [] 0 twoItems.reverse := by
  have hnode : emptyCache.nodes [] = some (newNode none [] ⟨.partitioned, 0⟩
      (MemoryStore.new 1 Nat.one_pos 0 false false)) := rfl
  have hstorable : ∀ item ∈ twoItems,
      storable Serializer.basic item = true := by decide
  have horder := (mset_order_iff Serializer.basic .int64 hnode rfl
    (MemoryStore.unlimited_new 1 Nat.one_pos le_rfl false false)
    (by decide) 0).2.mpr (Or.inr (Or.inl hstorable))
  exact ⟨hstorable,
    horder twoItems twoItems.reverse (.refl _) (List.reverse_perm _)⟩

/-- An item with an empty key: whether the other one is stored depends on
which of them is visited first. -/
theorem mset_depends_on_order :
    let bad : GoString × Item Empty := ([], ⟨.bytes [2], 0⟩)
    let item : GoString × Item Empty := (ascii "k", ⟨.bytes [1], 0⟩)
    let left := fun visit => (msetOutcome (MemoryStore.impl .int64)
      MemoryStore.contents Serializer.basic emptyCache [] 0 visit).map
        fun outcome => (outcome.1, (outcome.2 (ascii "k")).isSome)
    left [bad, item] = some (true, false) ∧
      left [item, bad] = some (true, true) := by
  decide +kernel

end Grid

end CacheGrid
