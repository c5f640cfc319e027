import CacheGrid.Shard
import CacheGrid.SequentialRuns

/-!
# The map, the list and the running size of a shard agree

`Coherent` ties the three structures of a shard together.  Set and the
successful branch of Incr pass through states in which one key is detached
from the list but may still be in the map, so the intermediate statement
`CoherentAway` leaves that key out.
-/

namespace CacheGrid

open SequentialRuns

def without (key : GoString) (entries : List Entry) : List Entry :=
  entries.filter fun e => e.key ≠ key

def totalSize (entries : List Entry) : ℤ := (entries.map Entry.size).sum

variable {key : GoString} {e : Entry} {entries : List Entry}

@[simp] theorem mem_without :
    e ∈ without key entries ↔ e ∈ entries ∧ e.key ≠ key := by
  simp [without]

theorem without_eq_self (habsent : ∀ e ∈ entries, e.key ≠ key) :
    without key entries = entries := by
  unfold without
  rw [List.filter_eq_self]
  intro e he
  simpa using habsent e he

theorem without_sublist (key : GoString) (entries : List Entry) :
    (without key entries).Sublist entries := List.filter_sublist

@[simp] theorem totalSize_nil : totalSize [] = 0 := rfl

@[simp] theorem totalSize_cons (e : Entry) (entries : List Entry) :
    totalSize (e :: entries) = e.size + totalSize entries := by
  simp [totalSize]

theorem entry_eq_of_key_eq (hnodup : (entries.map Entry.key).Nodup)
    {e other : Entry} (he : e ∈ entries) (hother : other ∈ entries)
    (hkey : e.key = other.key) :
    e = other :=
  List.inj_on_of_nodup_map hnodup he hother hkey

theorem without_eq_erase (hnodup : (entries.map Entry.key).Nodup)
    (he : e ∈ entries) :
    without e.key entries = entries.erase e := by
  rw [hnodup.of_map.erase_eq_filter]
  apply List.filter_congr
  intro other hother
  by_cases heq : other = e
  · simp [heq]
  · have hkey : other.key ≠ e.key := by
      intro hkey
      exact heq (entry_eq_of_key_eq hnodup hother he hkey)
    simp [heq, hkey]

theorem totalSize_without (hnodup : (entries.map Entry.key).Nodup)
    (he : e ∈ entries) :
    totalSize (without e.key entries) = totalSize entries - e.size := by
  rw [without_eq_erase hnodup he]
  have hsum := List.sum_map_erase Entry.size he
  unfold totalSize
  omega

theorem LRUList.remove_elements {l : LRUList}
    (hnodup : (l.elements.map Entry.key).Nodup) (he : e ∈ l.elements) :
    (l.remove e.element).elements = without e.key l.elements := by
  unfold LRUList.remove LRUList.keep without
  apply List.filter_congr
  intro other hother
  have hiff : other.element = e.element ↔ other.key = e.key := by
    constructor
    · intro helement
      rw [List.inj_on_of_nodup_map l.nodup hother he helement]
    · intro hkey
      rw [entry_eq_of_key_eq hnodup hother he hkey]
  simp [hiff]

theorem LRUList.moveToFront_elements {l : LRUList}
    (hnodup : (l.elements.map Entry.key).Nodup) (he : e ∈ l.elements) :
    (l.moveToFront e.element).elements = e :: without e.key l.elements := by
  have hrest : l.elements.filter (fun other => other.element ≠ e.element) =
      without e.key l.elements := LRUList.remove_elements hnodup he
  have hfront : l.elements.filter (fun other => other.element = e.element) =
      [e] := by
    have hcongr : l.elements.filter
        (fun other => other.element = e.element) =
          l.elements.filter (fun other => other = e) := by
      apply List.filter_congr
      intro other hother
      have hiff : other.element = e.element ↔ other = e :=
        ⟨List.inj_on_of_nodup_map l.nodup hother he, fun heq => by rw [heq]⟩
      simp [hiff]
    rw [hcongr, List.filter_eq,
      List.count_eq_one_of_mem hnodup.of_map he]
    rfl
  calc
    (l.moveToFront e.element).elements =
        l.elements.filter (fun other => other.element = e.element) ++
          l.elements.filter (fun other => other.element ≠ e.element) := rfl
    _ = e :: without e.key l.elements := by
      rw [hfront, hrest]
      rfl

namespace Shard

/-- The map and the list hold the same entries, each key once and under its
own name, and the size counter is the sum of their sizes. -/
structure Coherent (s : Shard) : Prop where
  keysNodup : (s.lru.elements.map Entry.key).Nodup
  lookup_iff : ∀ key e,
    s.items.lookup key = some e ↔ e ∈ s.lru.elements ∧ e.key = key
  sizes : ∀ e ∈ s.lru.elements, e.size = estimateSize e.key e.value
  total : s.size = totalSize s.lru.elements

/-- `Coherent` for every key but one, which is not in the list; the map may
hold anything under it. -/
structure CoherentAway (key : GoString) (s : Shard) : Prop where
  keysNodup : (s.lru.elements.map Entry.key).Nodup
  detached : ∀ e ∈ s.lru.elements, e.key ≠ key
  lookup_iff : ∀ other e, other ≠ key →
    (s.items.lookup other = some e ↔
      e ∈ s.lru.elements ∧ e.key = other)
  sizes : ∀ e ∈ s.lru.elements, e.size = estimateSize e.key e.value
  total : s.size = totalSize s.lru.elements

theorem coherent_new (maxSize : ℤ) (onEvict onExpire : Bool) :
    (new maxSize onEvict onExpire).Coherent := by
  constructor <;> simp [new, LRUList.new]

def settings (s : Shard) : ℤ × Bool × Bool :=
  (s.maxSize, s.onEvict, s.onExpire)

/-- `base` is `s` with `key` taken out of the list and off the size; its map
may still hold anything under `key`. -/
structure Detached (s base : Shard) (key : GoString) : Prop where
  away : base.CoherentAway key
  elements : base.lru.elements = without key s.lru.elements
  settings_eq : base.settings = s.settings
  lookup_eq : ∀ other, other ≠ key →
    base.items.lookup other = s.items.lookup other

variable {s : Shard}

theorem Coherent.detached_of_absent (hcoherent : s.Coherent)
    (habsent : s.items.lookup key = none) :
    Detached s s key := by
  have hdetached : ∀ e ∈ s.lru.elements, e.key ≠ key := by
    intro e he hkey
    have hlookup := (hcoherent.lookup_iff key e).mpr ⟨he, hkey⟩
    rw [habsent] at hlookup
    contradiction
  exact {
    away := {
      keysNodup := hcoherent.keysNodup
      detached := hdetached
      lookup_iff := fun other e _ => hcoherent.lookup_iff other e
      sizes := hcoherent.sizes
      total := hcoherent.total }
    elements := (without_eq_self hdetached).symm
    settings_eq := rfl
    lookup_eq := fun _ _ => rfl }

theorem Coherent.detached_remove (hcoherent : s.Coherent)
    (hlookup : s.items.lookup key = some e)
    {items : AList fun _ : GoString => Entry}
    (hitems : ∀ other, other ≠ key → items.lookup other = s.items.lookup other) :
    Detached s { s with
      items := items
      lru := s.lru.remove e.element
      size := s.size - e.size } key := by
  obtain ⟨hmem, hkey⟩ := (hcoherent.lookup_iff key e).mp hlookup
  have helements := LRUList.remove_elements hcoherent.keysNodup hmem
  rw [hkey] at helements
  refine ⟨?_, helements, rfl, hitems⟩
  constructor
  · change ((s.lru.remove e.element).elements.map Entry.key).Nodup
    rw [helements]
    exact hcoherent.keysNodup.sublist ((without_sublist _ _).map Entry.key)
  · intro other hother
    change other ∈ (s.lru.remove e.element).elements at hother
    rw [helements] at hother
    exact (mem_without.mp hother).2
  · intro other stored hne
    change items.lookup other = some stored ↔
      stored ∈ (s.lru.remove e.element).elements ∧ stored.key = other
    rw [hitems other hne, hcoherent.lookup_iff, helements, mem_without]
    constructor
    · rintro ⟨hstored, rfl⟩
      exact ⟨⟨hstored, hne⟩, rfl⟩
    · rintro ⟨⟨hstored, _⟩, hstoredKey⟩
      exact ⟨hstored, hstoredKey⟩
  · intro stored hstored
    change stored ∈ (s.lru.remove e.element).elements at hstored
    rw [helements] at hstored
    exact hcoherent.sizes stored (mem_without.mp hstored).1
  · change s.size - e.size = totalSize (s.lru.remove e.element).elements
    rw [helements, ← hkey, totalSize_without hcoherent.keysNodup hmem,
      hcoherent.total]

theorem Coherent.detached_removeLocked (hcoherent : s.Coherent)
    (hlookup : s.items.lookup key = some e) :
    Detached s (s.removeLocked key e) key :=
  hcoherent.detached_remove hlookup fun _ hne => AList.lookup_erase_ne hne

theorem Coherent.removeLocked (hcoherent : s.Coherent)
    (hlookup : s.items.lookup key = some e) :
    (s.removeLocked key e).Coherent := by
  have haway := (hcoherent.detached_removeLocked hlookup).away
  refine ⟨haway.keysNodup, ?_, haway.sizes, haway.total⟩
  intro other stored
  by_cases hother : other = key
  · subst other
    have herased : (s.removeLocked key e).items.lookup key = none :=
      AList.lookup_erase key s.items
    rw [herased]
    constructor
    · intro h
      contradiction
    · rintro ⟨hstored, hkey⟩
      exact absurd hkey (haway.detached stored hstored)
  · exact haway.lookup_iff other stored hother

theorem Coherent.moveToFront (hcoherent : s.Coherent)
    (hmem : e ∈ s.lru.elements) :
    Coherent { s with lru := s.lru.moveToFront e.element } := by
  have helements :=
    LRUList.moveToFront_elements hcoherent.keysNodup hmem
  have hperm : (s.lru.moveToFront e.element).elements.Perm
      s.lru.elements := by
    rw [helements, without_eq_erase hcoherent.keysNodup hmem]
    exact (List.perm_cons_erase hmem).symm
  constructor
  · exact (hperm.map Entry.key).nodup_iff.mpr hcoherent.keysNodup
  · intro key stored
    rw [hperm.mem_iff]
    exact hcoherent.lookup_iff key stored
  · intro stored hstored
    exact hcoherent.sizes stored (hperm.mem_iff.mp hstored)
  · exact hcoherent.total.trans (hperm.map Entry.size).sum_eq.symm

/-! ## Storing and evicting -/

def pushedEntry (s : Shard) (key : GoString) (value : Bytes)
    (expiresAt : Option ℤ) : Entry :=
  ⟨key, value, expiresAt, estimateSize key value, s.lru.nextElement⟩

@[simp] theorem pushEntry_elements (s : Shard) (key : GoString)
    (value : Bytes) (expiresAt : Option ℤ) :
    (s.pushEntry key value expiresAt).lru.elements =
      s.pushedEntry key value expiresAt :: s.lru.elements := rfl

@[simp] theorem pushEntry_items (s : Shard) (key : GoString)
    (value : Bytes) (expiresAt : Option ℤ) :
    (s.pushEntry key value expiresAt).items =
      s.items.insert key (s.pushedEntry key value expiresAt) := rfl

@[simp] theorem pushEntry_maxSize (s : Shard) (key : GoString)
    (value : Bytes) (expiresAt : Option ℤ) :
    (s.pushEntry key value expiresAt).maxSize = s.maxSize := rfl

@[simp] theorem pushEntry_onEvict (s : Shard) (key : GoString)
    (value : Bytes) (expiresAt : Option ℤ) :
    (s.pushEntry key value expiresAt).onEvict = s.onEvict := rfl

theorem CoherentAway.pushEntry (haway : s.CoherentAway key) (value : Bytes)
    (expiresAt : Option ℤ) :
    (s.pushEntry key value expiresAt).Coherent := by
  constructor
  · rw [pushEntry_elements, List.map_cons, List.nodup_cons]
    refine ⟨?_, haway.keysNodup⟩
    intro hmem
    obtain ⟨e, he, hkey⟩ := List.mem_map.mp hmem
    exact haway.detached e he hkey
  · intro other e
    rw [pushEntry_items, pushEntry_elements, List.mem_cons]
    by_cases hother : other = key
    · subst other
      rw [AList.lookup_insert, Option.some.injEq]
      constructor
      · rintro rfl
        exact ⟨Or.inl rfl, rfl⟩
      · rintro ⟨rfl | he, hkey⟩
        · rfl
        · exact absurd hkey (haway.detached e he)
    · rw [AList.lookup_insert_ne hother, haway.lookup_iff other e hother]
      constructor
      · rintro ⟨he, hkey⟩
        exact ⟨Or.inr he, hkey⟩
      · rintro ⟨rfl | he, hkey⟩
        · exact absurd hkey.symm hother
        · exact ⟨he, hkey⟩
  · intro e he
    rw [pushEntry_elements, List.mem_cons] at he
    rcases he with rfl | he
    · rfl
    · exact haway.sizes e he
  · rw [pushEntry_elements, totalSize_cons]
    change s.size + estimateSize key value =
      estimateSize key value + totalSize s.lru.elements
    rw [haway.total, add_comm]

theorem removeOldest_eq_remove {l : LRUList}
    (hnodup : (l.elements.map Entry.key).Nodup) {front : List Entry}
    {oldest : Entry} (hsplit : l.elements = front ++ [oldest]) :
    l.removeOldest = (some oldest, l.remove oldest.element) := by
  have hmem : oldest ∈ l.elements := by simp [hsplit]
  have helements : (l.remove oldest.element).elements = front := by
    rw [LRUList.remove_elements hnodup hmem,
      without_eq_erase hnodup hmem, hsplit]
    have hfresh : oldest ∉ front := by
      have hlist := hnodup.of_map
      rw [hsplit, List.nodup_append] at hlist
      intro hfront
      exact hlist.2.2 oldest hfront oldest (by simp) rfl
    rw [List.erase_append_right _ hfresh]
    simp
  have hlru : l.removeOldest.2 = l.remove oldest.element := by
    have hfields : l.removeOldest.2.elements =
        (l.remove oldest.element).elements := by
      rw [helements]
      simp [LRUList.removeOldest, hsplit]
    unfold LRUList.removeOldest LRUList.remove LRUList.keep at hfields ⊢
    rw [LRUList.mk.injEq]
    exact ⟨hfields, rfl⟩
  have hoption : l.removeOldest.1 = some oldest := by
    simp [LRUList.removeOldest, hsplit]
  exact Prod.ext hoption hlru

/-- What eviction does to a coherent shard: it keeps the longest prefix of
the list that fits, evicts the rest from the back and reports every evicted
entry once. -/
structure Evicts (s : Shard) (callbacks : List Callback) (after : Shard)
    (kept evicted : List Entry) : Prop where
  split : s.lru.elements = kept ++ evicted
  elements : after.lru.elements = kept
  coherent : after.Coherent
  fits : kept = [] ∨ after.size ≤ s.maxSize
  longest : ∀ front, front <+: s.lru.elements →
    totalSize front ≤ s.maxSize → front <+: kept
  callbacks_eq : callbacks =
    if s.onEvict then evicted.reverse.map fun e => .evict e.key e.value
    else []
  maxSize_eq : after.maxSize = s.maxSize

theorem Coherent.evicts_nothing (hcoherent : s.Coherent)
    (hfits : s.lru.elements = [] ∨ s.size ≤ s.maxSize) :
    Evicts s [] s s.lru.elements [] where
  split := by simp
  elements := rfl
  coherent := hcoherent
  fits := hfits
  longest := fun _ hfront _ => hfront
  callbacks_eq := by simp
  maxSize_eq := rfl

theorem Evicts.concat {s after : Shard} {callbacks : List Callback}
    {front kept evicted : List Entry} {oldest : Entry}
    (hcoherent : s.Coherent) (hover : s.maxSize < s.size)
    (hsplit : s.lru.elements = front ++ [oldest])
    (hfront : (s.removeLocked oldest.key oldest).lru.elements = front)
    (hevicts : Evicts (s.removeLocked oldest.key oldest) callbacks after kept
      evicted) :
    Evicts s
      (if s.onEvict then .evict oldest.key oldest.value :: callbacks
        else callbacks)
      after kept (evicted ++ [oldest]) where
  split := by
    have hkept : front = kept ++ evicted := hfront ▸ hevicts.split
    rw [hsplit, hkept, List.append_assoc]
  elements := hevicts.elements
  coherent := hevicts.coherent
  fits := hevicts.fits
  longest := by
    intro other hother hsize
    rw [hsplit, List.prefix_concat_iff] at hother
    rcases hother with rfl | hother
    · have htotal := hcoherent.total
      rw [hsplit] at htotal
      omega
    · exact hevicts.longest other (hfront ▸ hother) hsize
  callbacks_eq := by
    have hcallbacks := hevicts.callbacks_eq
    change _ = if s.onEvict then _ else _ at hcallbacks
    rw [hcallbacks]
    cases s.onEvict <;> simp
  maxSize_eq := hevicts.maxSize_eq

theorem evictLoop_evicts (rounds : ℕ) (hcoherent : s.Coherent)
    (hrounds : s.lru.len ≤ rounds) :
    ∃ kept evicted,
      Evicts s (evictLoop rounds s).1 (evictLoop rounds s).2 kept evicted := by
  induction rounds generalizing s with
  | zero =>
    have hempty : s.lru.elements = [] :=
      List.length_eq_zero_iff.mp (Nat.le_zero.mp hrounds)
    exact ⟨_, _, hcoherent.evicts_nothing (Or.inl hempty)⟩
  | succ rounds ih =>
    by_cases hover : s.maxSize < s.size ∧ 0 < s.lru.len
    · -- one round: the oldest entry leaves, then the loop goes on
      obtain ⟨front, oldest, hsplit⟩ :=
        (List.eq_nil_or_concat s.lru.elements).resolve_left
          (List.ne_nil_of_length_pos hover.2)
      rw [List.concat_eq_append] at hsplit
      have hlookup : s.items.lookup oldest.key = some oldest :=
        (hcoherent.lookup_iff _ _).mpr ⟨by simp [hsplit], rfl⟩
      have holdest :=
        removeOldest_eq_remove hcoherent.keysNodup hsplit
      have hfront : (s.removeLocked oldest.key oldest).lru.elements =
          front := by
        change (s.lru.remove oldest.element).elements = front
        have := congrArg (fun r => r.2.elements) holdest
        simpa [LRUList.removeOldest, hsplit] using this.symm
      have hfewer : (s.removeLocked oldest.key oldest).lru.len ≤ rounds := by
        have hlen : s.lru.len = front.length + 1 := by
          simp [LRUList.len, hsplit]
        have : (s.removeLocked oldest.key oldest).lru.len =
            front.length := congrArg List.length hfront
        omega
      obtain ⟨kept, evicted, hevicts⟩ :=
        ih (hcoherent.removeLocked hlookup) hfewer
      have hloop : evictLoop (rounds + 1) s =
          (if s.onEvict then
              .evict oldest.key oldest.value ::
                (evictLoop rounds (s.removeLocked oldest.key oldest)).1
            else (evictLoop rounds (s.removeLocked oldest.key oldest)).1,
            (evictLoop rounds (s.removeLocked oldest.key oldest)).2) := by
        rw [evictLoop, if_pos hover, holdest]
        rfl
      rw [hloop]
      exact ⟨kept, evicted ++ [oldest],
        hevicts.concat hcoherent hover.1 hsplit hfront⟩
    · have hfits : s.lru.elements = [] ∨ s.size ≤ s.maxSize := by
        by_cases hempty : s.lru.elements = []
        · exact Or.inl hempty
        · have hpos : 0 < s.lru.len := List.length_pos_of_ne_nil hempty
          exact Or.inr (by
            by_contra hlarge
            exact hover ⟨not_le.mp hlarge, hpos⟩)
      rw [evictLoop, if_neg hover]
      exact ⟨_, _, hcoherent.evicts_nothing hfits⟩

/-! ## Every operation keeps the invariant -/

structure Invariant (s : Shard) : Prop extends Coherent s where
  bounded : 0 < s.maxSize → s.size ≤ s.maxSize

theorem Coherent.size_nonneg_of_mem (hcoherent : s.Coherent)
    (he : e ∈ s.lru.elements) : 0 ≤ e.size := by
  rw [hcoherent.sizes e he]
  unfold estimateSize
  omega

theorem Invariant.removeLocked (hinv : s.Invariant)
    (hlookup : s.items.lookup key = some e) :
    (s.removeLocked key e).Invariant := by
  refine ⟨hinv.toCoherent.removeLocked hlookup, ?_⟩
  intro hpositive
  have hmem := ((hinv.lookup_iff key e).mp hlookup).1
  have hsize := hinv.size_nonneg_of_mem hmem
  have hbounded := hinv.bounded hpositive
  change s.size - e.size ≤ s.maxSize
  omega

theorem storeLocked_unlimited (hunlimited : s.maxSize ≤ 0) (key : GoString)
    (value : Bytes) (expiresAt : Option ℤ) :
    s.storeLocked key value expiresAt =
      ([], s.pushEntry key value expiresAt) := by
  unfold storeLocked evictLocked
  rw [if_pos (by simpa using hunlimited)]

theorem CoherentAway.storeLocked_evicts (haway : s.CoherentAway key)
    (hlimited : 0 < s.maxSize) (value : Bytes) (expiresAt : Option ℤ) :
    ∃ kept evicted,
      Evicts (s.pushEntry key value expiresAt)
        (s.storeLocked key value expiresAt).1
        (s.storeLocked key value expiresAt).2 kept evicted := by
  unfold storeLocked evictLocked
  rw [if_neg (by simpa using hlimited)]
  exact evictLoop_evicts _ (haway.pushEntry value expiresAt) le_rfl

theorem CoherentAway.storeLocked (haway : s.CoherentAway key) (value : Bytes)
    (expiresAt : Option ℤ) :
    (s.storeLocked key value expiresAt).2.Invariant := by
  by_cases hlimited : 0 < s.maxSize
  · obtain ⟨kept, evicted, hevicts⟩ :=
      haway.storeLocked_evicts hlimited value expiresAt
    refine ⟨hevicts.coherent, ?_⟩
    intro hpositive
    rw [hevicts.maxSize_eq]
    rcases hevicts.fits with hempty | hfits
    · have htotal := hevicts.coherent.total
      rw [hevicts.elements, hempty, totalSize_nil] at htotal
      rw [htotal]
      exact hlimited.le
    · exact hfits
  · rw [storeLocked_unlimited (not_lt.mp hlimited)]
    refine ⟨haway.pushEntry value expiresAt, ?_⟩
    intro hpositive
    exact absurd hpositive hlimited

theorem Invariant.get {s : Shard} (hinv : s.Invariant) (clock : Readings)
    (key : GoString) : (s.get clock key).2.Invariant := by
  unfold Shard.get
  cases hlookup : s.items.lookup key with
  | none => exact hinv
  | some e =>
    simp only
    split
    · exact hinv.removeLocked hlookup
    · exact ⟨hinv.moveToFront ((hinv.lookup_iff key e).mp hlookup).1,
        hinv.bounded⟩

theorem Coherent.setLocked_cases (hcoherent : s.Coherent) (key : GoString)
    (value : Bytes) (expiresAt : Option ℤ) :
    ∃ base, Detached s base key ∧
      s.setLocked key value expiresAt =
        base.storeLocked key value expiresAt := by
  unfold Shard.setLocked
  cases hlookup : s.items.lookup key with
  | none => exact ⟨s, hcoherent.detached_of_absent hlookup, rfl⟩
  | some existing =>
    exact ⟨_, hcoherent.detached_remove hlookup fun _ _ => rfl, rfl⟩

theorem Coherent.set_cases (hcoherent : s.Coherent) (clock : Readings)
    (key : GoString) (value : Bytes) (ttl : Duration) :
    ∃ base, Detached s base key ∧
      s.set clock key value ttl =
        base.storeLocked key value (expiry (clock.now 0) ttl) :=
  hcoherent.setLocked_cases key value (expiry (clock.now 0) ttl)

theorem Invariant.set (hinv : s.Invariant) (clock : Readings) (key : GoString)
    (value : Bytes) (ttl : Duration) :
    (s.set clock key value ttl).2.Invariant := by
  obtain ⟨base, hbase, hset⟩ := hinv.set_cases clock key value ttl
  rw [hset]
  exact hbase.away.storeLocked value _

theorem Invariant.delete (hinv : s.Invariant) (key : GoString) :
    (s.delete key).2.Invariant := by
  unfold Shard.delete
  cases hlookup : s.items.lookup key with
  | none => exact hinv
  | some e => exact hinv.removeLocked hlookup

theorem Invariant.removeIfExpired (hinv : s.Invariant) (now : ℤ)
    (key : GoString) : (s.removeIfExpired now key).Invariant := by
  unfold Shard.removeIfExpired
  cases hlookup : s.items.lookup key with
  | none => exact hinv
  | some e =>
    simp only
    split
    · exact hinv.removeLocked hlookup
    · exact hinv

theorem exists_cases (s : Shard) (clock : Readings) (key : GoString) :
    (s.exists clock key).2 = s ∨
      (s.exists clock key).2 = s.removeIfExpired (clock.now 1) key := by
  unfold Shard.exists
  cases s.items.lookup key with
  | none => exact Or.inl rfl
  | some e =>
    simp only
    split
    · exact Or.inr rfl
    · exact Or.inl rfl

theorem ttl_cases (s : Shard) (clock : Readings) (key : GoString) :
    (s.ttl clock key).2 = s ∨
      (s.ttl clock key).2 = s.removeIfExpired (clock.now 1) key := by
  unfold Shard.ttl
  cases s.items.lookup key with
  | none => exact Or.inl rfl
  | some e =>
    simp only
    split
    · exact Or.inr rfl
    · exact Or.inl rfl

theorem Invariant.exists (hinv : s.Invariant) (clock : Readings)
    (key : GoString) :
    (s.exists clock key).2.Invariant := by
  rcases exists_cases s clock key with hsame | hremoved
  · rw [hsame]
    exact hinv
  · rw [hremoved]
    exact hinv.removeIfExpired _ key

theorem Invariant.ttl (hinv : s.Invariant) (clock : Readings) (key : GoString) :
    (s.ttl clock key).2.Invariant := by
  rcases ttl_cases s clock key with hsame | hremoved
  · rw [hsame]
    exact hinv
  · rw [hremoved]
    exact hinv.removeIfExpired _ key

theorem incrStore_invariant (hinv : s.Invariant) (haway : s.CoherentAway key)
    (codec : Msgpack) (now : ℤ) (current delta : Int64) (ttl : Duration) :
    (s.incrStore codec now key current delta ttl).2.2.Invariant := by
  unfold incrStore
  cases codec.marshal (current + delta) with
  | error err => exact hinv
  | ok value => exact haway.storeLocked value _

theorem isExpired_iff {now : ℤ} :
    e.isExpired now = true ↔ ∃ deadline, e.expiresAt = some deadline ∧
      deadline < now := by
  unfold Entry.isExpired
  cases e.expiresAt <;> simp

theorem isExpired_mono {now later : ℤ} (hle : now ≤ later)
    (hexpired : e.isExpired now = true) : e.isExpired later = true := by
  rw [isExpired_iff] at hexpired ⊢
  obtain ⟨deadline, heq, hlt⟩ := hexpired
  exact ⟨deadline, heq, hlt.trans_le hle⟩

def counterTTL (s : Shard) (clock : Readings) (key : GoString)
    (ttl : Duration) : Duration :=
  match s.items.lookup key with
  | none => ttl
  | some e =>
    if e.isExpired (clock.now 0) then ttl else preservedTTL e (clock.now 1)

theorem Invariant.incr_cases (hinv : s.Invariant) (codec : Msgpack)
    (clock : Readings) (key : GoString) (delta : Int64) (ttl : Duration) :
    (∃ err, s.incr codec clock key delta ttl = (.error err, [], s)) ∨
      ∃ base current, base.Invariant ∧ Detached s base key ∧
        s.incr codec clock key delta ttl =
          base.incrStore codec (clock.now 2) key current delta
            (s.counterTTL clock key ttl) := by
  unfold Shard.incr counterTTL
  cases hlookup : s.items.lookup key with
  | none =>
    exact Or.inr ⟨s, 0, hinv, hinv.detached_of_absent hlookup, rfl⟩
  | some e =>
    have hremoved := hinv.removeLocked hlookup
    have hdetached := hinv.detached_removeLocked hlookup
    simp only
    split
    · -- the second reading is no earlier, so it finds the entry expired too
      rename_i hexpired
      rw [if_pos (isExpired_mono (clock.mono (Nat.zero_le 1)) hexpired)]
      exact Or.inr ⟨_, 0, hremoved, hdetached, rfl⟩
    · cases codec.unmarshal e.value with
      | error err => exact Or.inl ⟨err, rfl⟩
      | ok current =>
        exact Or.inr ⟨_, current, hremoved, hdetached, rfl⟩

theorem Invariant.incr {s : Shard} (hinv : s.Invariant) (codec : Msgpack)
    (clock : Readings) (key : GoString) (delta : Int64) (ttl : Duration) :
    (s.incr codec clock key delta ttl).2.2.Invariant := by
  rcases hinv.incr_cases codec clock key delta ttl with
    ⟨err, hincr⟩ | ⟨base, current, hbaseInv, hbase, hincr⟩
  · rw [hincr]
    exact hinv
  · rw [hincr]
    exact incrStore_invariant hbaseInv hbase.away ..

structure Sweeps (now : ℤ) (entries : List (Σ _ : GoString, Entry))
    (s : Shard) (swept : ℕ × List Callback × Shard) : Prop where
  invariant : swept.2.2.Invariant
  sublist : swept.2.2.lru.elements.Sublist s.lru.elements
  lookup : ∀ key, swept.2.2.items.lookup key =
    if (entries.dlookup key).any (fun e => e.isExpired now) then none
    else s.items.lookup key
  count : swept.1 = (entries.filter fun p => p.2.isExpired now).length
  callbacks_eq : swept.2.1 =
    if s.onExpire then
      (entries.filter fun p => p.2.isExpired now).map
        fun p => .expire p.1 p.2.value
    else []

theorem Sweeps.cons_expired {now : ℤ} {rest : List (Σ _ : GoString, Entry)}
    {swept : ℕ × List Callback × Shard} (hinv : s.Invariant)
    (hhead : s.items.lookup key = some e) (hexpired : e.isExpired now = true)
    (hswept : Sweeps now rest (s.removeLocked key e) swept) :
    Sweeps now (⟨key, e⟩ :: rest) s
      (swept.1 + 1,
        if s.onExpire then .expire key e.value :: swept.2.1 else swept.2.1,
        swept.2.2) where
  invariant := hswept.invariant
  sublist := by
    refine hswept.sublist.trans ?_
    rw [(hinv.detached_removeLocked hhead).elements]
    exact without_sublist _ _
  lookup := by
    intro other
    rw [hswept.lookup other]
    change (if _ then none else (s.items.erase key).lookup other) = _
    by_cases hother : other = key
    · subst other
      simp [List.dlookup_cons_eq, hexpired]
    · rw [AList.lookup_erase_ne hother,
        List.dlookup_cons_ne rest ⟨key, e⟩ hother]
  count := by
    rw [hswept.count]
    simp [hexpired]
  callbacks_eq := by
    have hcallbacks := hswept.callbacks_eq
    change _ = if s.onExpire then _ else _ at hcallbacks
    rw [hcallbacks]
    cases s.onExpire <;> simp [hexpired]

theorem Sweeps.cons_live {now : ℤ} {rest : List (Σ _ : GoString, Entry)}
    {swept : ℕ × List Callback × Shard} (hfresh : key ∉ rest.keys)
    (hlive : ¬ e.isExpired now = true) (hswept : Sweeps now rest s swept) :
    Sweeps now (⟨key, e⟩ :: rest) s swept where
  invariant := hswept.invariant
  sublist := hswept.sublist
  lookup := by
    intro other
    rw [hswept.lookup other]
    by_cases hother : other = key
    · subst other
      have hnone : rest.dlookup key = none := by
        rw [List.dlookup_eq_none]
        exact hfresh
      simp [List.dlookup_cons_eq, hlive, hnone]
    · rw [List.dlookup_cons_ne rest ⟨key, e⟩ hother]
  count := by
    rw [hswept.count]
    simp [hlive]
  callbacks_eq := by
    rw [hswept.callbacks_eq]
    simp [hlive]

theorem sweep_sweeps (now : ℤ) (entries : List (Σ _ : GoString, Entry))
    (hinv : s.Invariant) (hkeys : entries.NodupKeys)
    (hstored : ∀ p ∈ entries, s.items.lookup p.1 = some p.2) :
    Sweeps now entries s (sweep now entries s) := by
  induction entries generalizing s with
  | nil =>
    exact {
      invariant := hinv
      sublist := .refl _
      lookup := by simp [sweep]
      count := rfl
      callbacks_eq := by simp [sweep] }
  | cons head rest ih =>
    obtain ⟨key, e⟩ := head
    rw [List.nodupKeys_cons] at hkeys
    by_cases hexpired : e.isExpired now = true
    · have hhead : s.items.lookup key = some e :=
        hstored ⟨key, e⟩ (by simp)
      have hrest : ∀ p ∈ rest,
          (s.removeLocked key e).items.lookup p.1 = some p.2 := by
        intro p hp
        have hne : p.1 ≠ key := fun heq =>
          hkeys.1 (List.mem_map.mpr ⟨p, hp, heq⟩)
        change (s.items.erase key).lookup p.1 = some p.2
        rw [AList.lookup_erase_ne hne]
        exact hstored p (List.mem_cons_of_mem _ hp)
      have hswept := ih (hinv.removeLocked hhead) hkeys.2 hrest
      have hsweep : sweep now (⟨key, e⟩ :: rest) s =
          ((sweep now rest (s.removeLocked key e)).1 + 1,
            if s.onExpire then
              .expire key e.value ::
                (sweep now rest (s.removeLocked key e)).2.1
            else (sweep now rest (s.removeLocked key e)).2.1,
            (sweep now rest (s.removeLocked key e)).2.2) := by
        simp [sweep, hexpired]
      rw [hsweep]
      exact hswept.cons_expired hinv hhead hexpired
    · have hswept := ih hinv hkeys.2 fun p hp =>
        hstored p (List.mem_cons_of_mem _ hp)
      have hsweep : sweep now (⟨key, e⟩ :: rest) s = sweep now rest s := by
        simp [sweep, hexpired]
      rw [hsweep]
      exact hswept.cons_live hkeys.1 hexpired

theorem Invariant.deleteExpired_sweeps (hinv : s.Invariant) (clock : Readings) :
    Sweeps (clock.now 0) s.items.entries s (s.deleteExpired clock) := by
  apply sweep_sweeps _ _ hinv s.items.nodupKeys
  intro p hp
  exact AList.mem_lookup_iff.mpr hp

theorem Invariant.step (hinv : s.Invariant) (codec : Msgpack)
    (call : Readings × StoreOp) : (Shard.step codec s call).2.Invariant := by
  obtain ⟨clock, op⟩ := call
  cases op with
  | get key => exact hinv.get clock key
  | set key value ttl => exact hinv.set clock key value ttl
  | delete key => exact hinv.delete key
  | «exists» key => exact hinv.exists clock key
  | ttl key => exact hinv.ttl clock key
  | incr key delta defaultTTL =>
    exact hinv.incr codec clock key delta defaultTTL
  | deleteExpired => exact (hinv.deleteExpired_sweeps clock).invariant

theorem invariant_new (maxSize : ℤ) (onEvict onExpire : Bool) :
    (new maxSize onEvict onExpire).Invariant :=
  ⟨coherent_new maxSize onEvict onExpire, fun hpositive => hpositive.le⟩

/-! ## What no operation changes -/

theorem evictLoop_settings (rounds : ℕ) (s : Shard) :
    (evictLoop rounds s).2.settings = s.settings := by
  induction rounds generalizing s with
  | zero => rfl
  | succ rounds ih =>
    rw [evictLoop]
    split
    · split
      · exact ih _
      · exact ih _
    · rfl

theorem storeLocked_settings (s : Shard) (key : GoString) (value : Bytes)
    (expiresAt : Option ℤ) :
    (s.storeLocked key value expiresAt).2.settings = s.settings := by
  unfold storeLocked evictLocked
  split
  · rfl
  · exact evictLoop_settings _ _

theorem removeIfExpired_settings (s : Shard) (now : ℤ) (key : GoString) :
    (s.removeIfExpired now key).settings = s.settings := by
  unfold removeIfExpired
  split
  · rfl
  · split <;> rfl

theorem incrStore_settings (s : Shard) (codec : Msgpack) (now : ℤ)
    (key : GoString) (current delta : Int64) (ttl : Duration) :
    (s.incrStore codec now key current delta ttl).2.2.settings =
      s.settings := by
  unfold incrStore
  split
  · rfl
  · exact storeLocked_settings _ _ _ _

theorem sweep_settings (now : ℤ) (entries : List (Σ _ : GoString, Entry))
    (s : Shard) : (sweep now entries s).2.2.settings = s.settings := by
  induction entries generalizing s with
  | nil => rfl
  | cons head rest ih =>
    rw [sweep]
    split
    · exact ih _
    · exact ih _

theorem step_settings (codec : Msgpack) (s : Shard)
    (call : Readings × StoreOp) :
    (step codec s call).2.settings = s.settings := by
  obtain ⟨clock, op⟩ := call
  cases op with
  | get key =>
    simp only [step, Shard.get]
    split
    · rfl
    · split <;> rfl
  | set key value ttl =>
    simp only [step, Shard.set, Shard.setLocked]
    split
    · exact storeLocked_settings _ _ _ _
    · exact storeLocked_settings _ _ _ _
  | delete key =>
    simp only [step, Shard.delete]
    split <;> rfl
  | «exists» key =>
    simp only [step]
    rcases exists_cases s clock key with hsame | hremoved
    · rw [hsame]
    · rw [hremoved, removeIfExpired_settings]
  | ttl key =>
    simp only [step]
    rcases ttl_cases s clock key with hsame | hremoved
    · rw [hsame]
    · rw [hremoved, removeIfExpired_settings]
  | incr key delta defaultTTL =>
    simp only [step, Shard.incr]
    split
    · exact incrStore_settings _ _ _ _ _ _ _
    · split
      · rw [incrStore_settings]
        split <;> rfl
      · split
        · rfl
        · exact incrStore_settings _ _ _ _ _ _ _
  | deleteExpired => exact sweep_settings _ _ _

/-- What holds of a shard after any run from an empty one. -/
theorem run_reachable (codec : Msgpack) (maxSize : ℤ)
    (onEvict onExpire : Bool) (calls : List (Readings × StoreOp)) :
    (run (step codec) (new maxSize onEvict onExpire) calls).2.Invariant ∧
      (run (step codec) (new maxSize onEvict onExpire) calls).2.settings =
        (maxSize, onEvict, onExpire) :=
  run_invariant
    (fun s => s.Invariant ∧ s.settings = (maxSize, onEvict, onExpire))
    (fun s call hs =>
      ⟨hs.1.step codec call, (step_settings codec s call).trans hs.2⟩)
    ⟨invariant_new maxSize onEvict onExpire, rfl⟩ calls

theorem Coherent.entries_perm (hcoherent : s.Coherent) :
    (s.items.entries.map Sigma.snd).Perm s.lru.elements := by
  have hown : ∀ p ∈ s.items.entries, p.2.key = p.1 := by
    intro p hp
    exact ((hcoherent.lookup_iff p.1 p.2).mp
      (AList.mem_lookup_iff.mpr hp)).2
  have hkeys : (s.items.entries.map Sigma.snd).map Entry.key =
      s.items.keys := by
    rw [List.map_map]
    exact List.map_congr_left hown
  have hnodup : (s.items.entries.map Sigma.snd).Nodup := by
    apply List.Nodup.of_map Entry.key
    rw [hkeys]
    exact s.items.keys_nodup
  apply (List.perm_ext_iff_of_nodup hnodup hcoherent.keysNodup.of_map).mpr
  intro e
  constructor
  · intro he
    obtain ⟨p, hp, rfl⟩ := List.mem_map.mp he
    exact ((hcoherent.lookup_iff p.1 p.2).mp
      (AList.mem_lookup_iff.mpr hp)).1
  · intro he
    have hlookup := (hcoherent.lookup_iff e.key e).mpr ⟨he, rfl⟩
    exact List.mem_map.mpr ⟨⟨e.key, e⟩, AList.mem_lookup_iff.mp hlookup, rfl⟩

/-- After every run of operations on a new shard, at any clock readings that
do not decrease during a call: the list names each key of the map exactly once
and nothing else, every entry is stored under its own key, with its own size,
and is the entry in the list, the size counter is the sum of the sizes of the
stored entries, and it respects the limit if there is one. -/
theorem run_accounts_exactly (codec : Msgpack) (maxSize : ℤ)
    (onEvict onExpire : Bool) (calls : List (Readings × StoreOp)) :
    let s := (run (step codec) (new maxSize onEvict onExpire) calls).2
    (s.lru.elements.map Entry.key).Nodup ∧
      (∀ key, key ∈ s.lru.elements.map Entry.key ↔ key ∈ s.items) ∧
      (∀ key e, s.items.lookup key = some e →
        e ∈ s.lru.elements ∧ e.key = key ∧
          e.size = estimateSize e.key e.value) ∧
      s.size = (s.items.entries.map fun p => p.2.size).sum ∧
      (0 < maxSize → s.size ≤ maxSize) := by
  intro s
  obtain ⟨hinv, hsettings⟩ :=
    run_reachable codec maxSize onEvict onExpire calls
  have hmaxSize : s.maxSize = maxSize := congrArg Prod.fst hsettings
  refine ⟨hinv.keysNodup, ?_, ?_, ?_, ?_⟩
  · intro key
    rw [← AList.lookup_isSome, Option.isSome_iff_exists, List.mem_map]
    exact exists_congr fun e => (hinv.lookup_iff key e).symm
  · intro key e hlookup
    obtain ⟨hmem, hkey⟩ := (hinv.lookup_iff key e).mp hlookup
    exact ⟨hmem, hkey, hinv.sizes e hmem⟩
  · have hsum := (hinv.entries_perm.map Entry.size).sum_eq
    rw [List.map_map] at hsum
    exact hinv.total.trans hsum.symm
  · intro hlimited
    rw [← hmaxSize] at hlimited ⊢
    exact hinv.bounded hlimited

end Shard

end CacheGrid
