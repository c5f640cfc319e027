import Mathlib.Logic.Function.Basic
import Mathlib.Tactic

/-!
# Values in transit

Every site holds a value, and messages with new values are on their way to
sites.  If the messages to a site arrive in the order in which they were sent,
the site ends up with the last of them.  Sites agree if they all end up with
the same value: a site that writes when nothing is on its way to it, and sends
its value to all others, keeps them in agreement.
-/

namespace ValuesInTransit

variable {N V : Type*} [DecidableEq N]

/-- The value of a site once the messages to it have arrived, in order. -/
def eventual (held : N → V) (transit : List (N × V)) (site : N) : V :=
  (((transit.filter fun m => m.1 = site).map Prod.snd).getLast?).getD
    (held site)

variable {held : N → V} {transit before after : List (N × V)}
  {site other : N} {value : V}

@[simp] theorem eventual_nil (held : N → V) (site : N) :
    eventual held [] site = held site := rfl

theorem eventual_deliver_other (hother : other ≠ site) :
    eventual (Function.update held site value) (before ++ after) other =
      eventual held (before ++ (site, value) :: after) other := by
  simp [eventual, List.filter_append, hother, hother.symm]

theorem eventual_deliver (hfirst : ∀ m ∈ before, m.1 ≠ site) :
    eventual (Function.update held site value) (before ++ after) site =
      eventual held (before ++ (site, value) :: after) site := by
  have hnone : before.filter (fun m => m.1 = site) = [] := by
    simpa [List.filter_eq_nil_iff] using hfirst
  simp [eventual, List.filter_append, hnone, List.getLast?_cons]

theorem eventual_write (hnone : ∀ m ∈ transit, m.1 ≠ site)
    {others : List N} (hothers : site ∉ others) :
    eventual (Function.update held site value)
      (transit ++ others.map fun other => (other, value)) site = value := by
  have hold : transit.filter (fun m => m.1 = site) = [] := by
    simpa [List.filter_eq_nil_iff] using hnone
  have hnew : (others.map fun other => (other, value)).filter
      (fun m => m.1 = site) = [] := by
    rw [List.filter_eq_nil_iff]
    intro m hm hsite
    obtain ⟨other, hother, rfl⟩ := List.mem_map.mp hm
    exact hothers (of_decide_eq_true hsite ▸ hother)
  simp [eventual, List.filter_append, hold, hnew]

/-- A value that is sent to a site last is the one it ends up with. -/
theorem eventual_send {others : List N} (hother : other ∈ others) :
    eventual held (transit ++ others.map fun other => (other, value)) other =
      value := by
  let sent := ((others.map fun other => (other, value)).filter
    fun m => m.1 = other).map Prod.snd
  have hne : sent ≠ [] := by simpa [sent] using hother
  have hsame : ∀ v ∈ sent, v = value := by
    intro v hv
    obtain ⟨m, hm, rfl⟩ := List.mem_map.mp hv
    obtain ⟨_, _, rfl⟩ := List.mem_map.mp (List.mem_filter.mp hm).1
    rfl
  have hlast : sent.getLast? = some value := by
    rw [List.getLast?_eq_some_getLast hne, hsame _ (List.getLast_mem hne)]
  unfold eventual
  rw [List.filter_append, List.map_append, List.getLast?_append, hlast]
  rfl

/-! ## Agreement -/

def Agrees (sites : Set N) (held : N → V) (transit : List (N × V)) : Prop :=
  ∃ value, ∀ site ∈ sites, eventual held transit site = value

variable {sites : Set N}

theorem Agrees.deliver
    (hagrees : Agrees sites held (before ++ (site, value) :: after))
    (hfirst : ∀ m ∈ before, m.1 ≠ site) :
    Agrees sites (Function.update held site value) (before ++ after) := by
  obtain ⟨agreed, heventual⟩ := hagrees
  refine ⟨agreed, ?_⟩
  intro other hother
  rw [← heventual other hother]
  by_cases hsite : other = site
  · subst other
    exact eventual_deliver hfirst
  · exact eventual_deliver_other hsite

theorem agrees_write (hnone : ∀ m ∈ transit, m.1 ≠ site) {others : List N}
    (hothers : ∀ other ∈ sites, other ∈ others ↔ other ≠ site)
    (hsite : site ∈ sites) :
    Agrees sites (Function.update held site value)
      (transit ++ others.map fun other => (other, value)) := by
  refine ⟨value, ?_⟩
  intro other hother
  by_cases hself : other = site
  · subst other
    exact eventual_write hnone fun hmem => (hothers _ hsite).mp hmem rfl
  · exact eventual_send ((hothers other hother).mpr hself)

theorem Agrees.held_eq (hagrees : Agrees sites held [])
    (hsite : site ∈ sites) (hother : other ∈ sites) :
    held site = held other := by
  obtain ⟨agreed, heventual⟩ := hagrees
  exact (heventual site hsite).trans (heventual other hother).symm

end ValuesInTransit
