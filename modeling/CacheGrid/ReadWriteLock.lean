import Mathlib.Data.Finset.Card
import Mathlib.Tactic

/-!
# A lock for many readers or one writer

The lock counts its readers and knows whether there is a writer.  What each
thread holds is not part of the lock: `Holds` relates the two, for any number
of threads, and is kept by every operation that a thread performs in its turn.
While one thread writes, no other holds the lock.
-/

namespace ReadWriteLock

structure RWMutex where
  readers : ℕ
  writer : Bool
  deriving DecidableEq

namespace RWMutex

def free : RWMutex := ⟨0, false⟩

/-- Blocks while there is a writer. -/
def rLock (m : RWMutex) : Option RWMutex :=
  if m.writer then none else some { m with readers := m.readers + 1 }

def rUnlock (m : RWMutex) : RWMutex := { m with readers := m.readers - 1 }

/-- Blocks while anybody else has the lock. -/
def lock (m : RWMutex) : Option RWMutex :=
  if m.writer ∨ m.readers ≠ 0 then none else some { m with writer := true }

def unlock (m : RWMutex) : RWMutex := { m with writer := false }

end RWMutex

/-- What a thread holds. -/
inductive Hold where
  | nothing
  | read
  | write
  deriving DecidableEq

variable {ι : Type} {hold : ι → Hold} {m m' : RWMutex} {i : ι}

/-- What the threads hold is what the lock counts. -/
structure Holds (hold : ι → Hold) (m : RWMutex) : Prop where
  readers_eq : ∃ readers : Finset ι,
    (∀ i, i ∈ readers ↔ hold i = .read) ∧ readers.card = m.readers
  writer_eq : ∀ i, hold i = .write → m.writer = true
  unique : ∀ i j, hold i = .write → hold j = .write → i = j
  exclusive : m.writer = true → m.readers = 0

theorem holds_free : Holds (fun _ : ι => .nothing) .free where
  readers_eq := ⟨∅, by simp, rfl⟩
  writer_eq := nofun
  unique := nofun
  exclusive := fun _ => rfl

theorem Holds.not_read_of_writer (hholds : Holds hold m)
    (hwriter : m.writer = true) (i : ι) : hold i ≠ .read := by
  intro hread
  obtain ⟨readers, hmem, hcard⟩ := hholds.readers_eq
  rw [hholds.exclusive hwriter, Finset.card_eq_zero] at hcard
  have hi := (hmem i).mpr hread
  rw [hcard] at hi
  contradiction

theorem Holds.not_read (hholds : Holds hold m) (hi : hold i = .write)
    (j : ι) : hold j ≠ .read :=
  hholds.not_read_of_writer (hholds.writer_eq i hi) j

theorem Holds.not_write (hholds : Holds hold m) (hwriter : m.writer ≠ true)
    (j : ι) : hold j ≠ .write :=
  fun hj => hwriter (hholds.writer_eq j hj)

variable [DecidableEq ι]

theorem update_ne_write {new : Hold} (hnew : new ≠ .write)
    (hothers : ∀ j, j ≠ i → hold j ≠ .write) (j : ι) :
    Function.update hold i new j ≠ .write := by
  by_cases hji : j = i
  · rwa [hji, Function.update_self]
  · rw [Function.update_of_ne hji]
    exact hothers j hji

theorem Holds.rLock (hholds : Holds hold m) (hi : hold i = .nothing)
    (hlock : m.rLock = some m') :
    Holds (Function.update hold i .read) m' := by
  unfold RWMutex.rLock at hlock
  split at hlock
  · contradiction
  · rename_i hwriter
    rw [Option.some.injEq] at hlock
    subst hlock
    have hnone : ∀ j, Function.update hold i .read j ≠ .write :=
      update_ne_write nofun fun j _ => hholds.not_write hwriter j
    refine ⟨?_, fun j hj => absurd hj (hnone j),
      fun j _ hj => absurd hj (hnone j), fun h => absurd h hwriter⟩
    obtain ⟨readers, hmem, hcard⟩ := hholds.readers_eq
    have hnew : i ∉ readers := by
      rw [hmem, hi]
      nofun
    refine ⟨insert i readers, fun j => ?_, ?_⟩
    · by_cases hji : j = i
      · simp [hji]
      · simp [hji, hmem]
    · rw [Finset.card_insert_of_notMem hnew, hcard]

theorem Holds.rUnlock (hholds : Holds hold m) (hi : hold i = .read) :
    Holds (Function.update hold i .nothing) m.rUnlock := by
  have hwriter : m.writer ≠ true :=
    fun h => hholds.not_read_of_writer h i hi
  have hnone : ∀ j, Function.update hold i .nothing j ≠ .write :=
    update_ne_write nofun fun j _ => hholds.not_write hwriter j
  refine ⟨?_, fun j hj => absurd hj (hnone j),
    fun j _ hj => absurd hj (hnone j), fun h => absurd h hwriter⟩
  obtain ⟨readers, hmem, hcard⟩ := hholds.readers_eq
  refine ⟨readers.erase i, fun j => ?_, ?_⟩
  · by_cases hji : j = i
    · simp [hji]
    · simp [hji, hmem]
  · rw [Finset.card_erase_of_mem ((hmem i).mpr hi), hcard]
    rfl

theorem Holds.lock (hholds : Holds hold m) (hlock : m.lock = some m') :
    Holds (Function.update hold i .write) m' := by
  unfold RWMutex.lock at hlock
  split at hlock
  · contradiction
  · rename_i hfree
    rw [not_or, not_not] at hfree
    rw [Option.some.injEq] at hlock
    subst hlock
    obtain ⟨readers, hmem, hcard⟩ := hholds.readers_eq
    rw [hfree.2, Finset.card_eq_zero] at hcard
    have hread : ∀ j, hold j ≠ .read := by
      intro j hj
      rw [← hmem, hcard] at hj
      contradiction
    have hself : ∀ j, Function.update hold i .write j = .write → j = i := by
      intro j hj
      by_contra hji
      rw [Function.update_of_ne hji] at hj
      exact hholds.not_write hfree.1 j hj
    refine ⟨⟨∅, fun j => ?_, hfree.2.symm⟩, fun _ _ => rfl, ?_,
      fun _ => hfree.2⟩
    · by_cases hji : j = i
      · simp [hji]
      · simp [hji, hread j]
    · intro j k hj hk
      rw [hself j hj, hself k hk]

theorem Holds.unlock (hholds : Holds hold m) (hi : hold i = .write) :
    Holds (Function.update hold i .nothing) m.unlock := by
  have hnone : ∀ j, Function.update hold i .nothing j ≠ .write :=
    update_ne_write nofun fun j hji hj => hji (hholds.unique j i hj hi)
  refine ⟨?_, fun j hj => absurd hj (hnone j),
    fun j _ hj => absurd hj (hnone j), nofun⟩
  obtain ⟨readers, hmem, hcard⟩ := hholds.readers_eq
  refine ⟨readers, fun j => ?_, hcard⟩
  by_cases hji : j = i
  · have hread := hholds.not_read hi i
    simp [hji, hmem, hread]
  · simp [hji, hmem]

end ReadWriteLock
