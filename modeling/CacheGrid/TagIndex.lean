import CacheGrid.GoValues
import CacheGrid.SequentialRuns

/-!
# The tag index

`tags.go`: the two maps between tags and keys.  A tag without keys has no
entry.  As long as the two maps agree the index is a relation between keys and
tags: Add replaces the tags of one key, Remove takes them all, and neither
touches another key.  They agree after every sequence of the two.
-/

namespace CacheGrid

open SequentialRuns

structure TagIndex where
  tagToKeys : AList fun _ : GoString => Finset GoString
  keyToTags : AList fun _ : GoString => List GoString

namespace TagIndex

def new : TagIndex := ⟨∅, ∅⟩

/-- The body of the loops that take `key` from a tag. -/
def untag (key : GoString)
    (tagToKeys : AList fun _ : GoString => Finset GoString)
    (tag : GoString) : AList fun _ : GoString => Finset GoString :=
  match tagToKeys.lookup tag with
  | none => tagToKeys
  | some keys =>
    if keys.erase key = ∅ then tagToKeys.erase tag
    else tagToKeys.insert tag (keys.erase key)

/-- The body of the loop that gives `key` a tag. -/
def tagKey (key : GoString)
    (tagToKeys : AList fun _ : GoString => Finset GoString)
    (tag : GoString) : AList fun _ : GoString => Finset GoString :=
  tagToKeys.insert tag (insert key ((tagToKeys.lookup tag).getD ∅))

def add (ti : TagIndex) (key : GoString) (tags : List GoString) : TagIndex :=
  let cleared :=
    match ti.keyToTags.lookup key with
    | none => ti.tagToKeys
    | some oldTags => oldTags.foldl (untag key) ti.tagToKeys
  { keyToTags := ti.keyToTags.insert key tags
    tagToKeys := tags.foldl (tagKey key) cleared }

def remove (ti : TagIndex) (key : GoString) : TagIndex :=
  match ti.keyToTags.lookup key with
  | none => ti
  | some tags =>
    { keyToTags := ti.keyToTags.erase key
      tagToKeys := tags.foldl (untag key) ti.tagToKeys }

/-- The keys that GetKeysByTag returns, in no particular order. -/
def getKeysByTag (ti : TagIndex) (tag : GoString) : Finset GoString :=
  (ti.tagToKeys.lookup tag).getD ∅

/-! ## The index as a relation -/

def tagsOf (ti : TagIndex) (key : GoString) : List GoString :=
  (ti.keyToTags.lookup key).getD []

def Records (ti : TagIndex) (key : GoString) : Prop :=
  ti.keyToTags.lookup key ≠ none ∨ ∃ tag, key ∈ ti.getKeysByTag tag

/-- The two maps agree, and no key is recorded with an empty list of tags. -/
structure WellFormed (ti : TagIndex) : Prop where
  mem_iff : ∀ key tag, key ∈ ti.getKeysByTag tag ↔ tag ∈ ti.tagsOf key
  ne_nil : ∀ key, ti.keyToTags.lookup key ≠ some []

section Maps

variable (key : GoString)
  (tagToKeys : AList fun _ : GoString => Finset GoString)

theorem mem_untag (tag other tag' : GoString) :
    other ∈ ((untag key tagToKeys tag).lookup tag').getD ∅ ↔
      other ∈ (tagToKeys.lookup tag').getD ∅ ∧
        ¬(other = key ∧ tag' = tag) := by
  unfold untag
  cases hlookup : tagToKeys.lookup tag with
  | none =>
    by_cases htag : tag' = tag
    · rw [htag, hlookup]
      simp
    · simp [htag]
  | some keys =>
    by_cases htag : tag' = tag
    · subst htag
      by_cases hempty : keys.erase key = ∅
      · have hmem : other ∈ keys.erase key ↔ False := by simp [hempty]
        rw [Finset.mem_erase] at hmem
        simp only [hempty, if_true, hlookup, AList.lookup_erase,
          Option.getD_none, Option.getD_some, Finset.notMem_empty,
          and_true]
        tauto
      · simp [hempty, hlookup, and_comm]
    · by_cases hempty : keys.erase key = ∅
      · simp [hempty, AList.lookup_erase_ne htag, htag]
      · simp [hempty, AList.lookup_insert_ne htag, htag]

theorem mem_foldl_untag (tags : List GoString) (other tag' : GoString) :
    other ∈ ((tags.foldl (untag key) tagToKeys).lookup tag').getD ∅ ↔
      other ∈ (tagToKeys.lookup tag').getD ∅ ∧
        ¬(other = key ∧ tag' ∈ tags) := by
  induction tags generalizing tagToKeys with
  | nil => simp
  | cons tag tags ih =>
    rw [List.foldl_cons, ih, mem_untag, List.mem_cons]
    tauto

theorem mem_tagKey (tag other tag' : GoString) :
    other ∈ ((tagKey key tagToKeys tag).lookup tag').getD ∅ ↔
      (other = key ∧ tag' = tag) ∨
        other ∈ (tagToKeys.lookup tag').getD ∅ := by
  unfold tagKey
  by_cases htag : tag' = tag
  · subst htag
    simp [Finset.mem_insert]
  · simp [AList.lookup_insert_ne htag, htag]

theorem mem_foldl_tagKey (tags : List GoString) (other tag' : GoString) :
    other ∈ ((tags.foldl (tagKey key) tagToKeys).lookup tag').getD ∅ ↔
      (other = key ∧ tag' ∈ tags) ∨
        other ∈ (tagToKeys.lookup tag').getD ∅ := by
  induction tags generalizing tagToKeys with
  | nil => simp
  | cons tag tags ih =>
    rw [List.foldl_cons, ih, mem_tagKey, List.mem_cons]
    tauto

end Maps

theorem tagsOf_add (ti : TagIndex) (key : GoString) (tags : List GoString) :
    (ti.add key tags).tagsOf key = tags := by
  simp [tagsOf, add]

theorem lookup_add_of_ne (ti : TagIndex) {key other : GoString}
    (hne : other ≠ key) (tags : List GoString) :
    (ti.add key tags).keyToTags.lookup other = ti.keyToTags.lookup other :=
  AList.lookup_insert_ne hne

theorem lookup_remove (ti : TagIndex) (key : GoString) :
    (ti.remove key).keyToTags.lookup key = none := by
  unfold remove
  split
  · assumption
  · exact AList.lookup_erase _ _

theorem remove_remove (ti : TagIndex) (key : GoString) :
    (ti.remove key).remove key = ti.remove key := by
  rw [remove, ti.lookup_remove key]

theorem lookup_remove_of_ne (ti : TagIndex) {key other : GoString}
    (hne : other ≠ key) :
    (ti.remove key).keyToTags.lookup other = ti.keyToTags.lookup other := by
  unfold remove
  split
  · rfl
  · exact AList.lookup_erase_ne hne

theorem mem_getKeysByTag_add_of_ne (ti : TagIndex) {key other : GoString}
    (hne : other ≠ key) (tags : List GoString) (tag : GoString) :
    other ∈ (ti.add key tags).getKeysByTag tag ↔
      other ∈ ti.getKeysByTag tag := by
  simp only [getKeysByTag, add, mem_foldl_tagKey, hne, false_and, false_or]
  split
  · rfl
  · simp [mem_foldl_untag, hne]

theorem mem_getKeysByTag_remove_of_ne (ti : TagIndex) {key other : GoString}
    (hne : other ≠ key) (tag : GoString) :
    other ∈ (ti.remove key).getKeysByTag tag ↔
      other ∈ ti.getKeysByTag tag := by
  unfold getKeysByTag remove
  split
  · rfl
  · simp [mem_foldl_untag, hne]

theorem wellFormed_new : WellFormed new := by
  constructor <;> simp [getKeysByTag, tagsOf, new]

variable {ti : TagIndex}

theorem mem_getKeysByTag_add_self {key tag : GoString}
    (hold : key ∈ ti.getKeysByTag tag ↔ tag ∈ ti.tagsOf key)
    (tags : List GoString) :
    key ∈ (ti.add key tags).getKeysByTag tag ↔ tag ∈ tags := by
  simp only [getKeysByTag, tagsOf] at hold
  simp only [getKeysByTag, add, mem_foldl_tagKey, true_and]
  cases hlookup : ti.keyToTags.lookup key with
  | none =>
    simp only [hlookup, Option.getD_none, List.not_mem_nil] at hold
    simp only [hold, or_false]
  | some oldTags =>
    simp only [hlookup, Option.getD_some] at hold
    simp only [mem_foldl_untag, hold]
    tauto

theorem notMem_getKeysByTag_remove_self {key tag : GoString}
    (hold : key ∈ ti.getKeysByTag tag ↔ tag ∈ ti.tagsOf key) :
    key ∉ (ti.remove key).getKeysByTag tag := by
  simp only [getKeysByTag, tagsOf] at hold
  unfold getKeysByTag remove
  cases hlookup : ti.keyToTags.lookup key with
  | none =>
    simp only [hlookup, Option.getD_none, List.not_mem_nil] at hold
    simp only [hold, not_false_iff]
  | some oldTags =>
    simp only [hlookup, Option.getD_some] at hold
    simp only [mem_foldl_untag, hold]
    tauto

theorem mem_iff_add
    (hold : ∀ key tag, key ∈ ti.getKeysByTag tag ↔ tag ∈ ti.tagsOf key)
    (key : GoString) (tags : List GoString) (other tag : GoString) :
    other ∈ (ti.add key tags).getKeysByTag tag ↔
      tag ∈ (ti.add key tags).tagsOf other := by
  by_cases hother : other = key
  · rw [hother, mem_getKeysByTag_add_self (hold key tag), tagsOf_add]
  · rw [mem_getKeysByTag_add_of_ne ti hother, hold]
    simp only [tagsOf, lookup_add_of_ne ti hother]

theorem mem_iff_remove
    (hold : ∀ key tag, key ∈ ti.getKeysByTag tag ↔ tag ∈ ti.tagsOf key)
    (key other tag : GoString) :
    other ∈ (ti.remove key).getKeysByTag tag ↔
      tag ∈ (ti.remove key).tagsOf other := by
  by_cases hother : other = key
  · rw [hother]
    simp [notMem_getKeysByTag_remove_self (hold key tag), tagsOf,
      lookup_remove]
  · rw [mem_getKeysByTag_remove_of_ne ti hother, hold]
    simp only [tagsOf, lookup_remove_of_ne ti hother]

theorem WellFormed.add (hwell : ti.WellFormed) (key : GoString)
    {tags : List GoString} (htags : tags ≠ []) :
    (ti.add key tags).WellFormed where
  mem_iff := mem_iff_add hwell.mem_iff key tags
  ne_nil other := by
    by_cases hother : other = key
    · rw [hother]
      simpa [TagIndex.add] using htags
    · rw [lookup_add_of_ne ti hother]
      exact hwell.ne_nil other

theorem WellFormed.remove (hwell : ti.WellFormed) (key : GoString) :
    (ti.remove key).WellFormed where
  mem_iff := mem_iff_remove hwell.mem_iff key
  ne_nil other := by
    by_cases hother : other = key
    · rw [hother, lookup_remove]
      exact nofun
    · rw [lookup_remove_of_ne ti hother]
      exact hwell.ne_nil other

/-! ## Sequences of Add and Remove -/

inductive Op where
  | add (key : GoString) (tags : List GoString)
  | remove (key : GoString)

def step (ti : TagIndex) : Op → Unit × TagIndex
  | .add key tags => ((), ti.add key tags)
  | .remove key => ((), ti.remove key)

def after (ops : List Op) : TagIndex := (run step new ops).2

def KeepsNoEmpty (tagToKeys : AList fun _ : GoString => Finset GoString) :
    Prop :=
  ∀ tag, tagToKeys.lookup tag ≠ some ∅

theorem KeepsNoEmpty.untag
    {tagToKeys : AList fun _ : GoString => Finset GoString}
    (hkeeps : KeepsNoEmpty tagToKeys) (key tag : GoString) :
    KeepsNoEmpty (untag key tagToKeys tag) := by
  intro other
  unfold TagIndex.untag
  split
  · exact hkeeps other
  · rename_i keys _
    by_cases hempty : keys.erase key = ∅
    · rw [if_pos hempty]
      by_cases hother : other = tag
      · rw [hother, AList.lookup_erase]
        simp
      · rw [AList.lookup_erase_ne hother]
        exact hkeeps other
    · rw [if_neg hempty]
      by_cases hother : other = tag
      · rw [hother, AList.lookup_insert]
        simpa using hempty
      · rw [AList.lookup_insert_ne hother]
        exact hkeeps other

theorem KeepsNoEmpty.tagKey
    {tagToKeys : AList fun _ : GoString => Finset GoString}
    (hkeeps : KeepsNoEmpty tagToKeys) (key tag : GoString) :
    KeepsNoEmpty (tagKey key tagToKeys tag) := by
  intro other
  unfold TagIndex.tagKey
  by_cases hother : other = tag
  · rw [hother, AList.lookup_insert, ne_eq, Option.some_inj]
    exact Finset.insert_ne_empty key _
  · rw [AList.lookup_insert_ne hother]
    exact hkeeps other

theorem KeepsNoEmpty.foldl
    {body : (AList fun _ : GoString => Finset GoString) → GoString →
      AList fun _ : GoString => Finset GoString}
    (hbody : ∀ {tagToKeys}, KeepsNoEmpty tagToKeys → ∀ tag,
      KeepsNoEmpty (body tagToKeys tag))
    {tagToKeys : AList fun _ : GoString => Finset GoString}
    (hkeeps : KeepsNoEmpty tagToKeys) (tags : List GoString) :
    KeepsNoEmpty (tags.foldl body tagToKeys) := by
  induction tags generalizing tagToKeys with
  | nil => exact hkeeps
  | cons tag tags ih => exact ih (hbody hkeeps tag)

theorem KeepsNoEmpty.add (hkeeps : KeepsNoEmpty ti.tagToKeys) (key : GoString)
    (tags : List GoString) :
    KeepsNoEmpty (ti.add key tags).tagToKeys := by
  unfold TagIndex.add
  apply KeepsNoEmpty.foldl fun hkept tag => hkept.tagKey key tag
  split
  · exact hkeeps
  · exact hkeeps.foldl (fun hkept tag => hkept.untag key tag) _

theorem KeepsNoEmpty.remove (hkeeps : KeepsNoEmpty ti.tagToKeys)
    (key : GoString) :
    KeepsNoEmpty (ti.remove key).tagToKeys := by
  unfold TagIndex.remove
  split
  · exact hkeeps
  · exact hkeeps.foldl (fun hkept tag => hkept.untag key tag) _

/-- The maps mirror each other.  Unlike in a well-formed index, a key may be
recorded with no tags. -/
structure Mirrored (ti : TagIndex) : Prop where
  mem_iff : ∀ key tag, key ∈ ti.getKeysByTag tag ↔ tag ∈ ti.tagsOf key
  keepsNoEmpty : KeepsNoEmpty ti.tagToKeys

theorem mirrored_new : Mirrored new := by
  constructor
  · simp [getKeysByTag, tagsOf, new]
  · intro tag
    simp [new]

theorem Mirrored.step (hmirrored : ti.Mirrored) (op : Op) :
    (ti.step op).2.Mirrored := by
  cases op with
  | add key tags =>
    exact ⟨mem_iff_add hmirrored.mem_iff key tags,
      hmirrored.keepsNoEmpty.add key tags⟩
  | remove key =>
    exact ⟨mem_iff_remove hmirrored.mem_iff key,
      hmirrored.keepsNoEmpty.remove key⟩

/-- After every sequence of calls the maps mirror each other, and an Add that
follows gives its key exactly the tags of the call and leaves those of the
other keys. -/
theorem mirrored_after (ops : List Op) :
    (∀ key tag, key ∈ (after ops).getKeysByTag tag ↔
        tag ∈ (after ops).tagsOf key) ∧
      (∀ tag, (after ops).tagToKeys.lookup tag ≠ some ∅) ∧
      ∀ key tags,
        (after (ops ++ [.add key tags])).keyToTags.lookup key = some tags ∧
        (∀ tag, key ∈ (after (ops ++ [.add key tags])).getKeysByTag tag ↔
          tag ∈ tags) ∧
        ∀ other, other ≠ key →
          (after (ops ++ [.add key tags])).keyToTags.lookup other =
            (after ops).keyToTags.lookup other ∧
          ∀ tag, other ∈ (after (ops ++ [.add key tags])).getKeysByTag tag ↔
            other ∈ (after ops).getKeysByTag tag := by
  have hmirrored : (after ops).Mirrored :=
    run_invariant Mirrored (fun _ op hti => hti.step op) mirrored_new ops
  refine ⟨hmirrored.mem_iff, hmirrored.keepsNoEmpty, ?_⟩
  intro key tags
  have hafter : after (ops ++ [.add key tags]) = (after ops).add key tags :=
    run_append_singleton_state step new ops (.add key tags)
  rw [hafter]
  refine ⟨AList.lookup_insert _, ?_, ?_⟩
  · intro tag
    exact mem_getKeysByTag_add_self (hmirrored.mem_iff key tag) tags
  · intro other hother
    exact ⟨lookup_add_of_ne _ hother tags,
      mem_getKeysByTag_add_of_ne _ hother tags⟩

end TagIndex

end CacheGrid
