import Mathlib.Tactic

/-!
# Sequential runs

A component that executes one operation after the other is a step function
that turns a state and an operation into a result and a next state.  A run
collects the results.  An invariant of every step holds after every run, and a
relation that every step preserves, with equal results, makes two components
indistinguishable.
-/

namespace SequentialRuns

variable {σ τ ι ρ υ : Type*}

/-- Execute the operations in order and collect their results. -/
def run (step : σ → ι → ρ × σ) : σ → List ι → List ρ × σ
  | state, [] => ([], state)
  | state, op :: ops =>
    let next := step state op
    let rest := run step next.2 ops
    (next.1 :: rest.1, rest.2)

@[simp] theorem run_nil (step : σ → ι → ρ × σ) (state : σ) :
    run step state [] = ([], state) := rfl

theorem run_append (step : σ → ι → ρ × σ) (state : σ) (ops later : List ι) :
    run step state (ops ++ later) =
      ((run step state ops).1 ++ (run step (run step state ops).2 later).1,
        (run step (run step state ops).2 later).2) := by
  induction ops generalizing state with
  | nil => rfl
  | cons op ops ih =>
    simp only [List.cons_append, run]
    rw [ih]

theorem run_append_singleton_state (step : σ → ι → ρ × σ) (state : σ)
    (ops : List ι) (op : ι) :
    (run step state (ops ++ [op])).2 = (step (run step state ops).2 op).2 := by
  rw [run_append]
  rfl

theorem run_append_singleton_results (step : σ → ι → ρ × σ) (state : σ)
    (ops : List ι) (op : ι) :
    (run step state (ops ++ [op])).1 =
      (run step state ops).1 ++ [(step (run step state ops).2 op).1] := by
  rw [run_append]
  rfl

@[simp] theorem run_results_length (step : σ → ι → ρ × σ) (state : σ)
    (ops : List ι) : (run step state ops).1.length = ops.length := by
  induction ops generalizing state with
  | nil => rfl
  | cons op ops ih => simp [run, ih]

variable {state : σ}

theorem run_invariant {step : σ → ι → ρ × σ} (inv : σ → Prop)
    (hpreserve : ∀ state op, inv state → inv (step state op).2)
    (hstart : inv state) (ops : List ι) :
    inv (run step state ops).2 := by
  induction ops generalizing state with
  | nil => exact hstart
  | cons op ops ih => exact ih (hpreserve state op hstart)

/-- Every operation of the run meets `ok` in the state it is executed in. -/
def Meets (step : σ → ι → ρ × σ) (ok : σ → ι → Prop) : σ → List ι → Prop
  | _, [] => True
  | state, op :: ops => ok state op ∧ Meets step ok (step state op).2 ops

instance Meets.decidable (step : σ → ι → ρ × σ) (ok : σ → ι → Prop)
    [∀ state op, Decidable (ok state op)] :
    ∀ state ops, Decidable (Meets step ok state ops)
  | _, [] => isTrue trivial
  | state, op :: ops =>
    have := Meets.decidable step ok (step state op).2 ops
    inferInstanceAs
      (Decidable (ok state op ∧ Meets step ok (step state op).2 ops))

variable {ok : σ → ι → Prop} {ops : List ι}

theorem run_invariant_of_meets {step : σ → ι → ρ × σ} (inv : σ → Prop)
    (hpreserve : ∀ state op, inv state → ok state op → inv (step state op).2)
    (hstart : inv state) (hmeets : Meets step ok state ops) :
    inv (run step state ops).2 := by
  induction ops generalizing state with
  | nil => exact hstart
  | cons op ops ih =>
    exact ih (hpreserve state op hstart hmeets.1) hmeets.2

theorem Meets.of_forall {step : σ → ι → ρ × σ} {ok : ι → Prop}
    (hops : ∀ op ∈ ops, ok op) (state : σ) :
    Meets step (fun _ op => ok op) state ops := by
  induction ops generalizing state with
  | nil => exact trivial
  | cons op ops ih =>
    rw [List.forall_mem_cons] at hops
    exact ⟨hops.1, ih hops.2 _⟩

/-- A step that checks something first and fails if it does not hold.  If the
check always succeeds, the whole run does what the unchecked one does. -/
theorem foldlM_eq_run {ε : Type*} {step : σ → ι → ρ × σ}
    {checked : σ → ι → Except ε σ} (inv : σ → Prop)
    (hpreserve : ∀ state op, inv state → ok state op → inv (step state op).2)
    (hchecked : ∀ state op, inv state → ok state op →
      checked state op = .ok (step state op).2)
    (hstart : inv state) (hmeets : Meets step ok state ops) :
    ops.foldlM checked state = .ok (run step state ops).2 := by
  induction ops generalizing state with
  | nil => rfl
  | cons op ops ih =>
    rw [List.foldlM_cons, hchecked state op hstart hmeets.1]
    exact ih (hpreserve state op hstart hmeets.1) hmeets.2

theorem Meets.at_split {step : σ → ι → ρ × σ} {earlier later : List ι} {op : ι}
    (hmeets : Meets step ok state (earlier ++ op :: later)) :
    ok (run step state earlier).2 op := by
  induction earlier generalizing state with
  | nil => exact hmeets.1
  | cons first rest ih => exact ih hmeets.2

/-- Two components run side by side.  If their states stay related and each
operation gives related results, then the results of whole runs are related,
as long as the operations of the first one meet `ok`. -/
theorem run_simulation {step : σ → ι → ρ × σ} {step' : τ → ι → υ × τ}
    {related : σ → τ → Prop} {agree : ρ → υ → Prop}
    (hpreserve : ∀ state state' op, related state state' → ok state op →
      agree (step state op).1 (step' state' op).1 ∧
        related (step state op).2 (step' state' op).2)
    {state' : τ} (hstart : related state state')
    (hmeets : Meets step ok state ops) :
    List.Forall₂ agree (run step state ops).1 (run step' state' ops).1 ∧
      related (run step state ops).2 (run step' state' ops).2 := by
  induction ops generalizing state state' with
  | nil => exact ⟨.nil, hstart⟩
  | cons op ops ih =>
    obtain ⟨hresult, hnext⟩ := hpreserve state state' op hstart hmeets.1
    obtain ⟨hresults, hfinal⟩ := ih hnext hmeets.2
    exact ⟨.cons hresult hresults, hfinal⟩

/-- Two runs of one component, of which one executes silent operations in
between.  If the states stay related, whatever the later operations are, and
every other operation gives the same result, then the results that are not of
silent operations are the same. -/
theorem run_silent {step : σ → ι → ρ × σ} {silent : ι → Bool}
    {visible : ρ → Bool} {related : List ι → σ → σ → Prop}
    (hsilent : ∀ op later state state', silent op = true →
      related (op :: later) state state' →
      visible (step state' op).1 = false ∧ related later state (step state' op).2)
    (hloud : ∀ op later state state', silent op = false →
      related (op :: later) state state' → ok state op →
      (step state' op).1 = (step state op).1 ∧
        visible (step state op).1 = true ∧
        related later (step state op).2 (step state' op).2)
    {state state' : σ} (hstart : related ops state state')
    (hmeets : Meets step ok state (ops.filter fun op => !silent op)) :
    (run step state' ops).1.filter visible =
      (run step state (ops.filter fun op => !silent op)).1 := by
  induction ops generalizing state state' with
  | nil => rfl
  | cons op later ih =>
    cases hop : silent op with
    | true =>
      obtain ⟨hinvisible, hnext⟩ := hsilent op later _ _ hop hstart
      rw [List.filter_cons_of_neg (by simp [hop])] at hmeets ⊢
      rw [run, List.filter_cons_of_neg (by simp [hinvisible])]
      exact ih hnext hmeets
    | false =>
      rw [List.filter_cons_of_pos (by simp [hop])] at hmeets ⊢
      obtain ⟨hsame, hvisible, hnext⟩ :=
        hloud op later _ _ hop hstart hmeets.1
      rw [run, run, hsame, List.filter_cons_of_pos hvisible,
        ih hnext hmeets.2]

/-! ## Operations with their results -/

/-- The operations of a run, each with its result. -/
def trace (step : σ → ι → ρ × σ) : σ → List ι → List (ι × ρ)
  | _, [] => []
  | state, op :: ops =>
    (op, (step state op).1) :: trace step (step state op).2 ops

theorem trace_map_fst (step : σ → ι → ρ × σ) (state : σ) (ops : List ι) :
    (trace step state ops).map Prod.fst = ops := by
  induction ops generalizing state with
  | nil => rfl
  | cons op ops ih => simp [trace, ih]

theorem trace_append_singleton (step : σ → ι → ρ × σ) (state : σ)
    (ops : List ι) (op : ι) :
    trace step state (ops ++ [op]) = trace step state ops ++
      [(op, (step (run step state ops).2 op).1)] := by
  induction ops generalizing state with
  | nil => rfl
  | cons first ops ih =>
    simp only [List.cons_append, trace, run]
    rw [ih]

/-! ## Independent cells

A component that keeps one cell per key and serves each operation from the
cell of its key.  What the run does to one cell is the run of that cell's own
operations. -/

section Cells

variable {κ : Type*}

structure ActsOnCell (step : σ → ι → ρ × σ) (cellStep : τ → ι → ρ × τ)
    (cell : σ → κ → τ) (key : ι → κ) : Prop where
  result_eq : ∀ state op,
    (step state op).1 = (cellStep (cell state (key op)) op).1
  own_eq : ∀ state op,
    cell (step state op).2 (key op) = (cellStep (cell state (key op)) op).2
  other_eq : ∀ state op k, k ≠ key op →
    cell (step state op).2 k = cell state k

variable [DecidableEq κ] {step : σ → ι → ρ × σ} {cellStep : τ → ι → ρ × τ}
  {cell : σ → κ → τ} {key : ι → κ}

theorem ActsOnCell.run_cell (hacts : ActsOnCell step cellStep cell key)
    (state : σ) (ops : List ι) (k : κ) :
    cell (run step state ops).2 k =
      (run cellStep (cell state k) (ops.filter (key · = k))).2 := by
  induction ops generalizing state with
  | nil => rfl
  | cons op ops ih =>
    simp only [run, List.filter_cons]
    rw [ih]
    by_cases hkey : key op = k
    · subst hkey
      rw [hacts.own_eq, if_pos (by simp)]
      rfl
    · rw [hacts.other_eq state op k (Ne.symm hkey), if_neg (by simpa)]

theorem ActsOnCell.trace_filter (hacts : ActsOnCell step cellStep cell key)
    (state : σ) (ops : List ι) (k : κ) :
    (trace step state ops).filter (fun event => key event.1 = k) =
      trace cellStep (cell state k) (ops.filter (key · = k)) := by
  induction ops generalizing state with
  | nil => rfl
  | cons op ops ih =>
    simp only [trace, List.filter_cons]
    rw [ih]
    by_cases hkey : key op = k
    · subst hkey
      rw [hacts.own_eq, hacts.result_eq, if_pos (by simp), if_pos (by simp)]
      rfl
    · rw [hacts.other_eq state op k (Ne.symm hkey), if_neg (by simpa),
        if_neg (by simpa)]

theorem ActsOnCell.trace_alone (hacts : ActsOnCell step cellStep cell key)
    (state : σ) (ops : List ι) (k : κ) :
    (trace step state ops).filter (fun event => key event.1 = k) =
      trace step state (ops.filter (key · = k)) := by
  have hself : (trace step state (ops.filter (key · = k))).filter
      (fun event => key event.1 = k) =
      trace step state (ops.filter (key · = k)) := by
    rw [List.filter_eq_self]
    intro event hevent
    have hop := List.mem_map_of_mem (f := Prod.fst) hevent
    rw [trace_map_fst] at hop
    exact (List.mem_filter.mp hop).2
  rw [← hself, hacts.trace_filter, hacts.trace_filter, List.filter_filter]
  simp only [Bool.and_self]

end Cells

end SequentialRuns
