import Mathlib.Tactic

/-!
# Timed maps

A timed map stores, under a key, a value with an optional deadline; a record
is dead once the clock is after its deadline.  A store that discards some of
its dead records is a trimming of the map that keeps everything: no reader can
tell the two apart from then on.
-/

namespace TimedMap

variable {K V : Type}

structure Record (V : Type) where
  value : V
  deadline : Option ℤ
  deriving DecidableEq

/-- The clock reading `now` is after the deadline. -/
def Record.dead (r : Record V) (now : ℤ) : Bool :=
  match r.deadline with
  | none => false
  | some deadline => decide (deadline < now)

variable {r : Record V}

theorem Record.dead_iff {now : ℤ} :
    r.dead now = true ↔ ∃ deadline, r.deadline = some deadline ∧
      deadline < now := by
  unfold Record.dead
  cases r.deadline <;> simp

variable {now later : ℤ}

theorem Record.dead_mono (hle : now ≤ later) (hdead : r.dead now = true) :
    r.dead later = true := by
  rw [Record.dead_iff] at hdead ⊢
  obtain ⟨deadline, heq, hlt⟩ := hdead
  exact ⟨deadline, heq, hlt.trans_le hle⟩

abbrev Contents (K V : Type) := K → Option (Record V)

def live (contents : Contents K V) (now : ℤ) (key : K) :
    Option (Record V) :=
  (contents key).filter fun r => !r.dead now

theorem eq_some_of_live {contents : Contents K V} {now : ℤ} {key : K}
    (hlive : live contents now key = some r) :
    contents key = some r ∧ r.dead now = false := by
  obtain ⟨hsome, hdead⟩ := Option.filter_eq_some_iff.mp hlive
  exact ⟨hsome, by simpa using hdead⟩

theorem filter_dead_cases (cell : Option (Record V)) (now : ℤ) :
    cell.filter (fun r => !r.dead now) = cell ∨
      cell.filter (fun r => !r.dead now) = none ∧
        ∀ r, cell = some r → r.dead now = true := by
  cases cell with
  | none => exact Or.inl rfl
  | some r =>
    cases hdead : r.dead now with
    | false => exact Or.inl (by simp [Option.filter, hdead])
    | true =>
      refine Or.inr ⟨by simp [Option.filter, hdead], ?_⟩
      intro other hother
      rwa [← Option.some.inj hother]

/-- From `now` on, no reader can tell the two cells apart. -/
def SameFrom (now : ℤ) (cell other : Option (Record V)) : Prop :=
  ∀ t, now ≤ t →
    cell.filter (fun r => !r.dead t) = other.filter fun r => !r.dead t

theorem SameFrom.refl (now : ℤ) (cell : Option (Record V)) :
    SameFrom now cell cell := fun _ _ => rfl

theorem SameFrom.mono {cell other : Option (Record V)}
    (hsame : SameFrom now cell other) (hle : now ≤ later) :
    SameFrom later cell other := fun t ht => hsame t (hle.trans ht)

/-- Dropping a dead record is not noticed. -/
theorem SameFrom.drop {now : ℤ} {cell other : Option (Record V)}
    (hsame : SameFrom now cell other)
    (hdead : ∀ r, cell = some r → r.dead now = true) :
    SameFrom now none other := by
  intro t ht
  rw [← hsame t ht]
  cases cell with
  | none => rfl
  | some r =>
    have hlater := Record.dead_mono ht (hdead r rfl)
    simp [Option.filter, hlater]

/-- `trimmed` is `full` without some records that are dead at `now`. -/
structure Trims (now : ℤ) (trimmed full : Contents K V) : Prop where
  kept : ∀ key r, trimmed key = some r → full key = some r
  dropped : ∀ key r, full key = some r → trimmed key = none →
    r.dead now = true

theorem Trims.refl (now : ℤ) (contents : Contents K V) :
    Trims now contents contents where
  kept := fun _ _ h => h
  dropped := by
    intro key r hsome hnone
    rw [hsome] at hnone
    contradiction

variable {trimmed full : Contents K V}

theorem Trims.mono (htrims : Trims now trimmed full) (hle : now ≤ later) :
    Trims later trimmed full where
  kept := htrims.kept
  dropped := fun key r hsome hnone =>
    Record.dead_mono hle (htrims.dropped key r hsome hnone)

theorem Trims.live_eq (htrims : Trims now trimmed full) (hle : now ≤ later)
    (key : K) :
    live trimmed later key = live full later key := by
  unfold live
  cases htrimmed : trimmed key with
  | some r => rw [htrims.kept key r htrimmed]
  | none =>
    cases hfull : full key with
    | none => rfl
    | some r =>
      have hdead := Record.dead_mono hle
        (htrims.dropped key r hfull htrimmed)
      simp [Option.filter, hdead]

theorem Trims.drop {trimmed full next : Contents K V}
    (htrims : Trims now trimmed full) (hle : now ≤ later)
    (hnext : ∀ key, next key = trimmed key ∨
      next key = none ∧ ∀ r, trimmed key = some r → r.dead later = true) :
    Trims later next full where
  kept := by
    intro key r hsome
    rcases hnext key with hsame | ⟨hnone, _⟩
    · exact htrims.kept key r (hsame ▸ hsome)
    · rw [hnone] at hsome
      contradiction
  dropped := by
    intro key r hfull hnone
    cases htrimmed : trimmed key with
    | none =>
      exact Record.dead_mono hle (htrims.dropped key r hfull htrimmed)
    | some stored =>
      have hstored := htrims.kept key stored htrimmed
      rw [hfull, Option.some.injEq] at hstored
      subst stored
      rcases hnext key with hsame | ⟨_, hdead⟩
      · rw [hnone, htrimmed] at hsame
        contradiction
      · exact hdead r htrimmed

/-- What is taken out of the trimming on purpose is taken out of the map. -/
theorem Trims.restrict {now : ℤ} {trimmed full next : Contents K V}
    (htrims : Trims now trimmed full) {gone : K → Bool}
    (hnext : ∀ key, next key = none ∨ next key = trimmed key)
    (hgone : ∀ key, gone key = true → next key = none)
    (hstays : ∀ key, gone key = false → next key = none →
      trimmed key = none) :
    Trims now next (fun key => if gone key then none else full key) where
  kept := by
    intro key r hsome
    have hpresent : gone key ≠ true := by
      intro hkey
      rw [hgone key hkey] at hsome
      contradiction
    rw [if_neg hpresent]
    rcases hnext key with hnone | hsame
    · rw [hnone] at hsome
      contradiction
    · exact htrims.kept key r (hsame ▸ hsome)
  dropped := by
    intro key r hfull hnone
    cases hkey : gone key with
    | true => simp [hkey] at hfull
    | false =>
      simp only [hkey, Bool.false_eq_true, if_false] at hfull
      exact htrims.dropped key r hfull (hstays key hkey hnone)

theorem Trims.update [DecidableEq K] {now : ℤ}
    (htrims : Trims now trimmed full) (key : K) (cell : Option (Record V)) :
    Trims now (Function.update trimmed key cell)
      (Function.update full key cell) := by
  constructor
  · intro other r hsome
    by_cases hother : other = key
    · subst other
      simpa using hsome
    · rw [Function.update_of_ne hother] at hsome ⊢
      exact htrims.kept other r hsome
  · intro other r hsome hnone
    by_cases hother : other = key
    · subst other
      simp only [Function.update_self] at hsome hnone
      rw [hsome] at hnone
      contradiction
    · rw [Function.update_of_ne hother] at hsome hnone
      exact htrims.dropped other r hsome hnone

end TimedMap
