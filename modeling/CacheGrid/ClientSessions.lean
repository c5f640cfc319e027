import CacheGrid.InterleavedPrograms
import CacheGrid.SequentialRuns

/-!
# A client in an active environment

One client makes calls one after the other.  A call is a program, and the
environment may act between any two of its operations.

A call is outlined with the help of a ghost state: which operations it may
perform in which ghost state, and the ghost state in which it returns.  What
every operation and the environment keep of the ghost state and the shared
state together then holds between the calls of every run.
-/

namespace InterleavedPrograms

open SequentialRuns

variable {S : Signature} {State Choice Env Call α β Ghost : Type}

/-! ## Programs with a ghost state -/

/-- If all answers are possible ones, the program performs only operations its
discipline allows and ends in a ghost state and a value related by `post`. -/
def FollowsUnder (possible : (op : S.Op) → S.Answer op → Prop)
    (D : Discipline S Ghost) (post : Ghost → α → Prop) :
    Ghost → Prog S α → Prop
  | ghost, .ret value => post ghost value
  | ghost, .act op next =>
    D.guard ghost op ∧ ∀ answer, possible op answer →
      FollowsUnder possible D post (D.update ghost op answer) (next answer)

section Outlines

variable {possible : (op : S.Op) → S.Answer op → Prop}
  {D : Discipline S Ghost} {ghost : Ghost}

theorem followsUnder_perform {post : Ghost → α → Prop} {op : S.Op}
    {f : S.Answer op → Prog S α} (hguard : D.guard ghost op)
    (hrest : ∀ answer, possible op answer →
      FollowsUnder possible D post (D.update ghost op answer) (f answer)) :
    FollowsUnder possible D post ghost (Prog.perform op >>= f) :=
  ⟨hguard, hrest⟩

theorem FollowsUnder.bind {middle : Ghost → α → Prop}
    {post : Ghost → β → Prop} {program : Prog S α} {f : α → Prog S β}
    (hfirst : FollowsUnder possible D middle ghost program)
    (hnext : ∀ ghost' value, middle ghost' value →
      FollowsUnder possible D post ghost' (f value)) :
    FollowsUnder possible D post ghost (program >>= f) := by
  induction program generalizing ghost with
  | ret value => exact hnext ghost value hfirst
  | act op next ih =>
    exact ⟨hfirst.1, fun answer hanswer =>
      ih answer (hfirst.2 answer hanswer)⟩

theorem FollowsUnder.map {middle : Ghost → α → Prop}
    {post : Ghost → β → Prop} {program : Prog S α} {f : α → β}
    (hfirst : FollowsUnder possible D middle ghost program)
    (hpost : ∀ ghost' value, middle ghost' value → post ghost' (f value)) :
    FollowsUnder possible D post ghost (f <$> program) :=
  hfirst.bind hpost

theorem FollowsUnder.mono {post post' : Ghost → α → Prop}
    {program : Prog S α}
    (hfollows : FollowsUnder possible D post ghost program)
    (hpost : ∀ ghost' value, post ghost' value → post' ghost' value) :
    FollowsUnder possible D post' ghost program := by
  induction program generalizing ghost with
  | ret value => exact hpost ghost value hfollows
  | act op next ih =>
    exact ⟨hfollows.1, fun answer hanswer =>
      ih answer (hfollows.2 answer hanswer)⟩

/-- Operations that do not touch the ghost state need no outline. -/
theorem Prog.Performs.followsUnder {allowed : S.Op → Prop} {post : α → Prop}
    {program : Prog S α} (hperforms : program.Performs possible allowed post)
    (hneutral : ∀ op, allowed op → D.guard ghost op ∧
      ∀ answer, D.update ghost op answer = ghost) :
    FollowsUnder possible D (fun ghost' value => ghost' = ghost ∧ post value)
      ghost program := by
  induction program with
  | ret value => exact ⟨rfl, hperforms⟩
  | act op next ih =>
    obtain ⟨hguard, hupdate⟩ := hneutral op hperforms.1
    refine ⟨hguard, fun answer hanswer => ?_⟩
    rw [hupdate answer]
    exact ih answer (hperforms.2 answer hanswer)

end Outlines

/-! ## Sessions -/

/-- The shared state, the call in progress with what it has left to do, and
the calls that have returned, oldest first. -/
structure Session (S : Signature) (State Call α : Type) where
  shared : State
  current : Option (Call × Prog S α)
  completed : List (Call × α)

inductive SessionStep (Choice Env Call : Type) where
  | call (call : Call)
  | operation (choice : Choice)
  | reply
  | env (event : Env)

namespace Session

def start (shared : State) : Session S State Call α := ⟨shared, none, []⟩

def nextOp? (s : Session S State Call α) : Option S.Op :=
  s.current.bind fun running => running.2.next?

/-- One step; what is not possible now changes nothing. -/
def step (M : Semantics S State Choice Env) (program : Call → Prog S α)
    (s : Session S State Call α) :
    SessionStep Choice Env Call → Option α × Session S State Call α
  | .call call =>
    match s.current with
    | none => (none, { s with current := some (call, program call) })
    | some _ => (none, s)
  | .operation choice =>
    match s.current with
    | some (call, .act op next) =>
      match M.exec s.shared op choice with
      | some (answer, shared) => (none, { s with
          shared := shared
          current := some (call, next answer) })
      | none => (none, s)
    | _ => (none, s)
  | .reply =>
    match s.current with
    | some (call, .ret value) => (some value, { s with
        current := none
        completed := s.completed ++ [(call, value)] })
    | _ => (none, s)
  | .env event =>
    match M.env s.shared event with
    | some shared => (none, { s with shared := shared })
    | none => (none, s)

/-- The calls, the operations and the steps of the environment are allowed
where they are made. -/
def Obeys (okCall : Call → Prop) (okOp : State → S.Op → Choice → Prop)
    (okEnv : State → Env → Prop) (s : Session S State Call α) :
    SessionStep Choice Env Call → Prop
  | .call call => okCall call
  | .operation choice => ∀ op ∈ s.nextOp?, okOp s.shared op choice
  | .reply => True
  | .env event => okEnv s.shared event

instance decidableObeys {okCall : Call → Prop}
    {okOp : State → S.Op → Choice → Prop} {okEnv : State → Env → Prop}
    [DecidablePred okCall]
    [∀ shared op choice, Decidable (okOp shared op choice)]
    [∀ shared event, Decidable (okEnv shared event)]
    (s : Session S State Call α) :
    ∀ label : SessionStep Choice Env Call,
      Decidable (s.Obeys okCall okOp okEnv label)
  | .call call => inferInstanceAs (Decidable (okCall call))
  | .operation choice =>
    inferInstanceAs (Decidable (∀ op ∈ s.nextOp?, okOp s.shared op choice))
  | .reply => inferInstanceAs (Decidable True)
  | .env event => inferInstanceAs (Decidable (okEnv s.shared event))

/-- The ghost state fits the shared state and what the call in progress has
left to do; between calls it is determined by the calls that have
returned. -/
def Outlined (possible : (op : S.Op) → S.Answer op → Prop)
    (D : Discipline S Ghost) (idle : List (Call × α) → Ghost)
    (holds : Ghost → State → Prop) (s : Session S State Call α) : Prop :=
  ∃ ghost, holds ghost s.shared ∧
    match s.current with
    | none => ghost = idle s.completed
    | some (call, program) =>
      FollowsUnder possible D (fun ghost value =>
        ghost = idle (s.completed ++ [(call, value)])) ghost program

section Runs

variable {M : Semantics S State Choice Env} {program : Call → Prog S α}
  {possible : (op : S.Op) → S.Answer op → Prop} {D : Discipline S Ghost}
  {idle : List (Call × α) → Ghost} {holds : Ghost → State → Prop}
  {okCall : Call → Prop} {okOp : State → S.Op → Choice → Prop}
  {okEnv : State → Env → Prop}
  (hcalls : ∀ completed call, okCall call →
    FollowsUnder possible D (fun ghost value =>
      ghost = idle (completed ++ [(call, value)])) (idle completed)
      (program call))
  (hops : ∀ {ghost shared op choice answer shared'}, holds ghost shared →
    D.guard ghost op → okOp shared op choice →
    M.exec shared op choice = some (answer, shared') →
    possible op answer ∧ holds (D.update ghost op answer) shared')
  (henvs : ∀ {ghost shared event shared'}, holds ghost shared →
    okEnv shared event → M.env shared event = some shared' →
    holds ghost shared')

include hcalls hops henvs

theorem Outlined.step {s : Session S State Call α}
    (houtlined : s.Outlined possible D idle holds)
    {label : SessionStep Choice Env Call}
    (hobeys : s.Obeys okCall okOp okEnv label) :
    (s.step M program label).2.Outlined possible D idle holds := by
  obtain ⟨ghost, hholds, hcurrent⟩ := houtlined
  obtain ⟨shared, current, completed⟩ := s
  cases label with
  | call call =>
    cases current with
    | some running => exact ⟨ghost, hholds, hcurrent⟩
    | none =>
      simp only at hcurrent
      subst hcurrent
      exact ⟨_, hholds, hcalls completed call hobeys⟩
  | operation choice =>
    cases current with
    | none => exact ⟨ghost, hholds, hcurrent⟩
    | some running =>
      obtain ⟨call, rest⟩ := running
      cases rest with
      | ret value => exact ⟨ghost, hholds, hcurrent⟩
      | act op next =>
        cases hexec : M.exec shared op choice with
        | none =>
          simp only [Session.step, hexec]
          exact ⟨ghost, hholds, hcurrent⟩
        | some result =>
          obtain ⟨answer, shared'⟩ := result
          simp only [Session.step, hexec]
          obtain ⟨hpossible, hholds'⟩ := hops hholds hcurrent.1
            (hobeys op rfl) hexec
          exact ⟨_, hholds', hcurrent.2 answer hpossible⟩
  | reply =>
    cases current with
    | none => exact ⟨ghost, hholds, hcurrent⟩
    | some running =>
      obtain ⟨call, rest⟩ := running
      cases rest with
      | ret value => exact ⟨ghost, hholds, hcurrent⟩
      | act op next => exact ⟨ghost, hholds, hcurrent⟩
  | env event =>
    cases henv : M.env shared event with
    | none =>
      simp only [Session.step, henv]
      exact ⟨ghost, hholds, hcurrent⟩
    | some shared' =>
      simp only [Session.step, henv]
      exact ⟨ghost, henvs hholds hobeys henv, hcurrent⟩

/-- What all operations and the environment keep holds between the calls. -/
theorem run_idle {shared : State} (hstart : holds (idle []) shared)
    {labels : List (SessionStep Choice Env Call)}
    (hmeets : Meets (step M program) (Obeys okCall okOp okEnv)
      (start shared) labels)
    (hidle : (run (step M program) (start shared) labels).2.current =
      none) :
    holds
      (idle (run (step M program) (start shared) labels).2.completed)
      (run (step M program) (start shared) labels).2.shared := by
  have hinitial : (start shared).Outlined possible D idle holds :=
    ⟨_, hstart, rfl⟩
  obtain ⟨ghost, hholds, hcurrent⟩ := run_invariant_of_meets
    (fun s => s.Outlined possible D idle holds)
    (fun _ _ houtlined hobeys => houtlined.step hcalls hops henvs hobeys)
    hinitial hmeets
  rw [hidle] at hcurrent
  exact hcurrent ▸ hholds

end Runs

end Session

end InterleavedPrograms
