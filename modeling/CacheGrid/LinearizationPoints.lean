import CacheGrid.InterleavedPrograms
import CacheGrid.SequentialRuns

/-!
# Linearization points

A shared object is specified by a sequential step function, and implemented by
programs that run concurrently.  Of the operations a call performs, at most
one is its point, where it takes effect; all others are silent.  Then every
run has an order of its calls, in which each call stands once and at one of
its own steps, such that the sequential object, going through the calls in
this order, gives the same answers and ends in the state of the run.

A point may also miss: a request that is lost on its way has no effect, and
the caller is told something else than an answer of the object.
-/

namespace LinearizationPoints

open InterleavedPrograms SequentialRuns

variable {S : Signature} {α β : Type}

/-! ## Programs with one point -/

/-- The program performs silent operations, up to one that is its point.  If
it ends before, `early` says how; after the point it performs silent
operations only, and ends as its answer there demands. -/
def PerformsOnce (possible : (op : S.Op) → S.Answer op → Prop)
    (silent point : S.Op → Prop) (early : α → Prop)
    (finish : (op : S.Op) → S.Answer op → α → Prop) : Prog S α → Prop
  | .ret value => early value
  | .act op next =>
    (silent op ∧ ∀ answer, possible op answer →
      PerformsOnce possible silent point early finish (next answer)) ∨
    point op ∧ ∀ answer, possible op answer →
      (next answer).Performs possible silent (finish op answer)

section PerformsOnce

variable {possible : (op : S.Op) → S.Answer op → Prop}
  {silent point : S.Op → Prop} {early : α → Prop}
  {finish : (op : S.Op) → S.Answer op → α → Prop}

theorem performsOnce_point {op : S.Op} {f : S.Answer op → Prog S α}
    (hop : point op)
    (hnext : ∀ answer, possible op answer →
      (f answer).Performs possible silent (finish op answer)) :
    PerformsOnce possible silent point early finish
      (Prog.perform op >>= f) :=
  Or.inr ⟨hop, hnext⟩

theorem performsOnce_bind {program : Prog S β} {f : β → Prog S α}
    {middle : β → Prop} (hfirst : program.Performs possible silent middle)
    (hnext : ∀ value, middle value →
      PerformsOnce possible silent point early finish (f value)) :
    PerformsOnce possible silent point early finish (program >>= f) := by
  induction program with
  | ret value => exact hnext value hfirst
  | act op next ih =>
    exact Or.inl ⟨hfirst.1, fun answer hanswer =>
      ih answer (hfirst.2 answer hanswer)⟩

theorem PerformsOnce.bind {program : Prog S β} {f : β → Prog S α}
    {early' : β → Prop} {finish' : (op : S.Op) → S.Answer op → β → Prop}
    (hfirst : PerformsOnce possible silent point early' finish' program)
    (hearly : ∀ value, early' value →
      PerformsOnce possible silent point early finish (f value))
    (hfinish : ∀ op answer value, finish' op answer value →
      (f value).Performs possible silent (finish op answer)) :
    PerformsOnce possible silent point early finish (program >>= f) := by
  induction program with
  | ret value => exact hearly value hfirst
  | act op next ih =>
    rcases hfirst with ⟨hop, hnext⟩ | ⟨hop, hnext⟩
    · exact Or.inl ⟨hop, fun answer hanswer =>
        ih answer (hnext answer hanswer)⟩
    · exact Or.inr ⟨hop, fun answer hanswer =>
        (hnext answer hanswer).bind (hfinish op answer)⟩

theorem PerformsOnce.weaken {program : Prog S α} {early' : α → Prop}
    (hprogram : PerformsOnce possible silent point early finish program)
    (hearly : ∀ value, early value → early' value) :
    PerformsOnce possible silent point early' finish program := by
  induction program with
  | ret value => exact hearly value hprogram
  | act op next ih =>
    exact hprogram.imp_left fun ⟨hop, hnext⟩ =>
      ⟨hop, fun answer hanswer => ih answer (hnext answer hanswer)⟩

theorem performsOnce_of_performs {program : Prog S α}
    (hperforms : program.Performs possible silent early) :
    PerformsOnce possible silent point early finish program := by
  induction program with
  | ret value => exact hperforms
  | act op next ih =>
    exact Or.inl ⟨hperforms.1, fun answer hanswer =>
      ih answer (hperforms.2 answer hanswer)⟩

theorem PerformsOnce.performs {program : Prog S α}
    (hprogram : PerformsOnce possible silent point early finish program)
    (hpoint : ∀ op, point op → silent op) :
    program.Performs possible silent fun _ => True := by
  induction program with
  | ret value => trivial
  | act op next ih =>
    rcases hprogram with ⟨hop, hnext⟩ | ⟨hop, hnext⟩
    · exact ⟨hop, fun answer hanswer => ih answer (hnext answer hanswer)⟩
    · exact ⟨hpoint op hop, fun answer hanswer =>
        (hnext answer hanswer).weaken fun _ _ => trivial⟩

end PerformsOnce

/-! ## Implementations of an object -/

variable {ι State Choice Env A C R : Type}

/-- What the programs of the threads may do, and what it means for them. -/
structure Roles (ι : Type) (S : Signature) (C R α : Type) where
  possible : ι → (op : S.Op) → S.Answer op → Prop
  silent : ι → S.Op → Prop
  point : ι → S.Op → Prop
  /-- The answer at the point means that the call `c` took effect, and that
  the object returned `result`. -/
  takes : ι → (op : S.Op) → S.Answer op → C → R → Prop
  /-- The answer at the point means that nothing took effect. -/
  misses : ι → (op : S.Op) → S.Answer op → Prop
  early : ι → α → Prop
  finish : ι → (op : S.Op) → S.Answer op → α → Prop

abbrev Roles.Waits (roles : Roles ι S C R α) (i : ι) :
    Prog S α → Prop :=
  PerformsOnce (roles.possible i) (roles.silent i) (roles.point i)
    (roles.early i) (roles.finish i)

abbrev Roles.Passed (roles : Roles ι S C R α) (i : ι) (op : S.Op)
    (answer : S.Answer op) (program : Prog S α) : Prop :=
  program.Performs (roles.possible i) (roles.silent i)
    (roles.finish i op answer)

/-- Each step of the machine keeps the state within `inv` of the object's, up
to the effect of a point. -/
structure Implements (M : Semantics S State Choice Env)
    (allowed : Label ι Choice Env → Prop) (step : A → C → R × A)
    (inv : State → A → Prop) (roles : Roles ι S C R α) : Prop where
  answers : ∀ {s a i op choice answer s'}, inv s a →
    M.exec s op choice = some (answer, s') → roles.possible i op answer
  silent : ∀ {s a i op choice answer s'}, inv s a →
    allowed (.thread i choice) → roles.silent i op →
    M.exec s op choice = some (answer, s') → inv s' a
  point : ∀ {s a i op choice answer s'}, inv s a →
    allowed (.thread i choice) → roles.point i op →
    M.exec s op choice = some (answer, s') →
    (∃ c, inv s' (step a c).2 ∧ roles.takes i op answer c (step a c).1) ∨
      inv s' a ∧ roles.misses i op answer
  env : ∀ {s a event s'}, inv s a → allowed (.env event) →
    M.env s event = some s' → inv s' a

def onThreads (step : A → C → R × A) : A → ι × C → R × A :=
  fun a call => step a call.2

abbrev answersIn (step : A → C → R × A) (a : A) (order : List (ι × C)) :
    List ((ι × C) × R) :=
  trace (onThreads step) a order

abbrev objectAfter (step : A → C → R × A) (a : A) (order : List (ι × C)) :
    A :=
  (run (onThreads step) a order).2

theorem objectAfter_append (step : A → C → R × A) (a : A)
    (order : List (ι × C)) (call : ι × C) :
    objectAfter step a (order ++ [call]) =
      (step (objectAfter step a order) call.2).2 :=
  run_append_singleton_state _ _ _ _

theorem answersIn_append (step : A → C → R × A) (a : A)
    (order : List (ι × C)) (call : ι × C) :
    answersIn step a (order ++ [call]) = answersIn step a order ++
      [(call, (step (objectAfter step a order) call.2).1)] :=
  trace_append_singleton _ _ _ _

/-- How far thread `i` has come, given the order of the calls so far. -/
inductive Status (roles : Roles ι S C R α) (step : A → C → R × A) (a : A)
    (order : List (ι × C)) (i : ι) (program : Prog S α) : Prop
  | waits (hnew : i ∉ order.map Prod.fst) (hwaits : roles.Waits i program)
  | took (op : S.Op) (answer : S.Answer op) (c : C) (result : R)
      (hmem : ((i, c), result) ∈ answersIn step a order)
      (htakes : roles.takes i op answer c result)
      (hpassed : roles.Passed i op answer program)
  | missed (op : S.Op) (answer : S.Answer op)
      (hnew : i ∉ order.map Prod.fst)
      (hmisses : roles.misses i op answer)
      (hpassed : roles.Passed i op answer program)

structure Linearized (step : A → C → R × A) (inv : State → A → Prop)
    (roles : Roles ι S C R α) (a : A) (order : List (ι × C))
    (config : Config ι S State α) : Prop where
  distinct : (order.map Prod.fst).Nodup
  /-- Each call stands where one of its own steps does. -/
  in_step : (order.map Prod.fst).Sublist
    (config.log.map Event.thread)
  state : inv config.shared (objectAfter step a order)
  status : ∀ i, Status roles step a order i (config.threads i)

theorem mem_of_mem_answersIn {step : A → C → R × A} {a : A}
    {order : List (ι × C)} {call : ι × C} {result : R}
    (hmem : (call, result) ∈ answersIn step a order) : call ∈ order := by
  have hfirst := List.mem_map_of_mem (f := Prod.fst) hmem
  rwa [trace_map_fst] at hfirst

theorem Linearized.of_mem {step : A → C → R × A} {inv : State → A → Prop}
    {roles : Roles ι S C R α} {a : A} {order : List (ι × C)}
    {config : Config ι S State α}
    (hlin : Linearized step inv roles a order config) {i : ι} {c : C}
    (hmem : (i, c) ∈ order) :
    ∃ op answer result, roles.takes i op answer c result := by
  have hfirst : i ∈ order.map Prod.fst := List.mem_map.mpr ⟨_, hmem, rfl⟩
  cases hlin.status i with
  | waits hnew hwaits => exact absurd hfirst hnew
  | missed op answer hnew hmisses hpassed => exact absurd hfirst hnew
  | took op answer c' result htrace htakes hpassed =>
    have hsame := List.inj_on_of_nodup_map hlin.distinct hmem
      (mem_of_mem_answersIn htrace) rfl
    obtain rfl : c = c' := congrArg Prod.snd hsame
    exact ⟨op, answer, result, htakes⟩

section Runs

variable [DecidableEq ι] {M : Semantics S State Choice Env}
  {allowed : Label ι Choice Env → Prop} {step : A → C → R × A}
  {inv : State → A → Prop} {roles : Roles ι S C R α} {a : A}
  {order : List (ι × C)} {i : ι} {program : Prog S α}

omit [DecidableEq ι] in
theorem Status.append (hstatus : Status roles step a order i program)
    {call : ι × C} (hother : call.1 ≠ i) :
    Status roles step a (order ++ [call]) i program := by
  have hnew : i ∉ order.map Prod.fst →
      i ∉ (order ++ [call]).map Prod.fst := by
    intro hold
    simp only [List.map_append, List.map_cons, List.map_nil,
      List.mem_append, List.mem_singleton]
    exact not_or.mpr ⟨hold, hother.symm⟩
  cases hstatus with
  | waits hold hwaits => exact .waits (hnew hold) hwaits
  | missed op answer hold hmisses hpassed =>
    exact .missed op answer (hnew hold) hmisses hpassed
  | took op answer c result hmem htakes hpassed =>
    refine .took op answer c result ?_ htakes hpassed
    rw [answersIn_append]
    exact List.mem_append_left _ hmem

/-- What a step of thread `i` does to the order. -/
inductive Advance (inv : State → A → Prop) (roles : Roles ι S C R α)
    (step : A → C → R × A) (a : A) (order : List (ι × C)) (i : ι)
    (after : State) (program : Prog S α) : Prop
  | stays (hinv : inv after (objectAfter step a order))
      (hstatus : Status roles step a order i program)
  | takes (c : C) (hnew : i ∉ order.map Prod.fst)
      (hinv : inv after (objectAfter step a (order ++ [(i, c)])))
      (hstatus : Status roles step a (order ++ [(i, c)]) i program)

omit [DecidableEq ι] in
/-- A thread that performs its next operation stays where it is or passes its
point. -/
theorem Implements.advance
    (himpl : Implements M allowed step inv roles) {s after : State}
    (hinv : inv s (objectAfter step a order)) {op : S.Op}
    {next : S.Answer op → Prog S α}
    (hstatus : Status roles step a order i (.act op next)) {choice : Choice}
    (hallowed : allowed (.thread i choice)) {answer : S.Answer op}
    (hexec : M.exec s op choice = some (answer, after)) :
    Advance inv roles step a order i after (next answer) := by
  have hpossible : roles.possible i op answer := himpl.answers hinv hexec
  cases hstatus with
  | waits hnew hwaits =>
    rcases hwaits with ⟨hsilent, hnext⟩ | ⟨hpoint, hnext⟩
    · exact .stays (himpl.silent hinv hallowed hsilent hexec)
        (.waits hnew (hnext answer hpossible))
    · have hpassed := hnext answer hpossible
      rcases himpl.point hinv hallowed hpoint hexec with
        ⟨c, hafter, htakes⟩ | ⟨hafter, hmisses⟩
      · refine .takes c hnew ?_ ?_
        · rw [objectAfter_append]
          exact hafter
        refine .took op answer c _ ?_ htakes hpassed
        rw [answersIn_append]
        exact List.mem_append_right _ (List.mem_singleton.mpr rfl)
      · exact .stays hafter (.missed op answer hnew hmisses hpassed)
  | took op' answer' c result hmem htakes hpassed =>
    exact .stays (himpl.silent hinv hallowed hpassed.1 hexec)
      (.took op' answer' c result hmem htakes
        (hpassed.2 answer hpossible))
  | missed op' answer' hnew hmisses hpassed =>
    exact .stays (himpl.silent hinv hallowed hpassed.1 hexec)
      (.missed op' answer' hnew hmisses (hpassed.2 answer hpossible))

theorem Linearized.extend (himpl : Implements M allowed step inv roles)
    {config next : Config ι S State α}
    (hlin : Linearized step inv roles a order config)
    {label : Label ι Choice Env} (hallowed : allowed label)
    (hstep : config.step M label = some next) :
    ∃ more, Linearized step inv roles a (order ++ more) next := by
  cases label with
  | env event =>
    obtain ⟨henv, hthreads, hlog⟩ := Config.step_env_cases hstep
    refine ⟨[], ?_⟩
    rw [List.append_nil]
    exact ⟨hlin.distinct, hlog ▸ hlin.in_step,
      himpl.env hlin.state hallowed henv, hthreads ▸ hlin.status⟩
  | thread i choice =>
    obtain ⟨op, continuation, answer, hthread, hexec, hthreads, hlog⟩ :=
      Config.step_thread_cases hstep
    have hlonger : (order.map Prod.fst).Sublist
        (next.log.map Event.thread) := by
      rw [hlog, List.map_append]
      exact hlin.in_step.trans (List.sublist_append_left _ _)
    have hown : Status roles step a order i (.act op continuation) :=
      hthread ▸ hlin.status i
    cases himpl.advance hlin.state hown hallowed hexec with
    | stays hinv hstatus =>
      refine ⟨[], ?_⟩
      rw [List.append_nil]
      refine ⟨hlin.distinct, hlonger, hinv, ?_⟩
      rw [hthreads, Function.forall_update_iff]
      exact ⟨hstatus, fun j _ => hlin.status j⟩
    | takes c hnew hinv hstatus =>
      refine ⟨[(i, c)], ?_, ?_, hinv, ?_⟩
      · rw [List.map_append, List.nodup_append]
        refine ⟨hlin.distinct, List.nodup_singleton _, ?_⟩
        rintro j hj _ hk rfl
        obtain rfl : j = i := List.mem_singleton.mp hk
        exact hnew hj
      · rw [hlog, List.map_append, List.map_append]
        exact hlin.in_step.append (List.Sublist.refl _)
      · rw [hthreads, Function.forall_update_iff]
        exact ⟨hstatus, fun j hj => (hlin.status j).append hj.symm⟩

/-- In every run of an implementation the calls have an order that the
sequential object explains. -/
theorem Implements.linearized (himpl : Implements M allowed step inv roles)
    {shared : State} {threads : ι → Prog S α} (hstart : inv shared a)
    (hwaits : ∀ i, roles.Waits i (threads i)) {config : Config ι S State α}
    (hreach : Config.Reaches M (fun _ => allowed)
      (Config.start shared threads) config) :
    ∃ order, Linearized step inv roles a order config := by
  refine hreach.invariant
    (fun config => ∃ order, Linearized step inv roles a order config) ?_ ?_
  · exact ⟨[], List.nodup_nil, List.Sublist.refl _, hstart,
      fun i => .waits List.not_mem_nil (hwaits i)⟩
  · rintro config next label ⟨order, hlin⟩ hallowed hstep
    obtain ⟨more, hnext⟩ := hlin.extend himpl hallowed hstep
    exact ⟨order ++ more, hnext⟩

end Runs

end LinearizationPoints
