import Mathlib.Logic.Relation
import Mathlib.Logic.Function.Basic
import Mathlib.Tactic

/-!
# Interleaved programs

A program is a tree of atomic operations, each of which waits for its answer.
A semantics executes one operation on a shared state; whatever the operation
does not determine (a clock reading, a network failure, a fresh name) is a
choice of the scheduler.  A configuration holds the shared state and one
program for every thread, and a run interleaves single operations of the
threads with steps of the environment.

Two rules carry the proofs.  An invariant of every step is an invariant of
every run.  A discipline says which operations a thread may perform, given
what it has performed and been answered so far; a program that follows its
discipline alone follows it in every interleaving.
-/

namespace InterleavedPrograms

structure Signature where
  Op : Type
  Answer : Op → Type

inductive Prog (S : Signature) (α : Type) where
  | ret (value : α)
  | act (op : S.Op) (next : S.Answer op → Prog S α)

variable {S : Signature} {α β : Type}

namespace Prog

def bind : Prog S α → (α → Prog S β) → Prog S β
  | .ret value, f => f value
  | .act op next, f => .act op fun answer => (next answer).bind f

instance : Monad (Prog S) where
  pure := .ret
  bind := .bind

def perform (op : S.Op) : Prog S (S.Answer op) := .act op .ret

@[simp] theorem pure_eq_ret (value : α) :
    (pure value : Prog S α) = .ret value := rfl

@[simp] theorem ret_bind (value : α) (f : α → Prog S β) :
    (Prog.ret value >>= f) = f value := rfl

@[simp] theorem perform_bind (op : S.Op) (f : S.Answer op → Prog S β) :
    (perform op >>= f) = .act op f := rfl

end Prog

/-- How the shared state answers an operation.  An operation that cannot be
executed now (a lock that is taken) gives `none`. -/
structure Semantics (S : Signature) (State Choice Env : Type) where
  exec : State → (op : S.Op) → Choice → Option (S.Answer op × State)
  env : State → Env → Option State

variable {ι State Choice Env : Type}

/-- If all answers are possible ones, the program performs only operations
that are allowed and ends with a value that meets `post`. -/
def Prog.Performs (possible : (op : S.Op) → S.Answer op → Prop)
    (allowed : S.Op → Prop) (post : α → Prop) : Prog S α → Prop
  | .ret value => post value
  | .act op next => allowed op ∧ ∀ answer, possible op answer →
      (next answer).Performs possible allowed post

variable {program : Prog S α} {f : α → Prog S β} {post : α → Prop} {value : α}

section Performs

variable {possible : (op : S.Op) → S.Answer op → Prop}
  {allowed : S.Op → Prop}

theorem Prog.performs_perform {op : S.Op} (hop : allowed op) :
    (Prog.perform op).Performs possible allowed (possible op) :=
  ⟨hop, fun _ hanswer => hanswer⟩

theorem Prog.Performs.bind {middle : α → Prop} {post : β → Prop}
    (hfirst : program.Performs possible allowed middle)
    (hnext : ∀ value, middle value → (f value).Performs possible allowed post) :
    (program >>= f).Performs possible allowed post := by
  induction program with
  | ret value => exact hnext value hfirst
  | act op next ih =>
    exact ⟨hfirst.1, fun answer hanswer =>
      ih answer (hfirst.2 answer hanswer)⟩

theorem Prog.performs_trivial (program : Prog S α) :
    program.Performs (fun _ _ => True) (fun _ => True) fun _ => True := by
  induction program with
  | ret value => trivial
  | act op next ih => exact ⟨trivial, fun answer _ => ih answer⟩

theorem Prog.Performs.mono {allowed' : S.Op → Prop}
    (hperforms : program.Performs possible allowed post)
    (hallowed : ∀ op, allowed op → allowed' op) :
    program.Performs possible allowed' post := by
  induction program with
  | ret value => exact hperforms
  | act op next ih =>
    exact ⟨hallowed op hperforms.1, fun answer hanswer =>
      ih answer (hperforms.2 answer hanswer)⟩

theorem Prog.Performs.weaken {post post' : α → Prop}
    (hperforms : program.Performs possible allowed post)
    (hpost : ∀ value, post value → post' value) :
    program.Performs possible allowed post' := by
  induction program with
  | ret value => exact hpost value hperforms
  | act op next ih =>
    exact ⟨hperforms.1, fun answer hanswer =>
      ih answer (hperforms.2 answer hanswer)⟩

theorem Prog.Performs.and {allowed' : S.Op → Prop} {post post' : α → Prop}
    (hperforms : program.Performs possible allowed post)
    (hperforms' : program.Performs (fun _ _ => True) allowed' post') :
    program.Performs possible (fun op => allowed op ∧ allowed' op)
      fun value => post value ∧ post' value := by
  induction program with
  | ret value => exact ⟨hperforms, hperforms'⟩
  | act op next ih =>
    exact ⟨⟨hperforms.1, hperforms'.1⟩, fun answer hanswer =>
      ih answer (hperforms.2 answer hanswer) (hperforms'.2 answer trivial)⟩

theorem Prog.Performs.map {f : α → β} {middle : α → Prop} {post : β → Prop}
    (hfirst : program.Performs possible allowed middle)
    (hpost : ∀ value, middle value → post (f value)) :
    (f <$> program).Performs possible allowed post :=
  hfirst.bind hpost

end Performs

/-- As `Performs`, in a world that grows from one operation to the next; what
is allowed and which answers are possible depends on it. -/
def Prog.PerformsFrom {W : Type} [Preorder W]
    (possible : W → (op : S.Op) → S.Answer op → Prop)
    (allowed : W → S.Op → Prop) : W → Prog S α → Prop
  | _, .ret _ => True
  | world, .act op next => allowed world op ∧ ∀ later answer, world ≤ later →
      possible later op answer →
      (next answer).PerformsFrom possible allowed later

theorem Prog.PerformsFrom.mono {W : Type} [Preorder W]
    {possible : W → (op : S.Op) → S.Answer op → Prop}
    {allowed : W → S.Op → Prop}
    (hallowed : ∀ world later op, world ≤ later → allowed world op →
      allowed later op)
    {world later : W} (hperforms : program.PerformsFrom possible allowed world)
    (hle : world ≤ later) : program.PerformsFrom possible allowed later := by
  cases program with
  | ret value => trivial
  | act op next =>
    exact ⟨hallowed _ _ _ hle hperforms.1, fun _ answer hlater =>
      hperforms.2 _ answer (hle.trans hlater)⟩

/-- A program over part of the operations of another signature. -/
def Prog.embed {T : Signature} (f : S.Op → T.Op)
    (back : ∀ op, T.Answer (f op) → S.Answer op) : Prog S α → Prog T α
  | .ret value => .ret value
  | .act op next => .act (f op) fun answer =>
    (next (back op answer)).embed f back

theorem Prog.Performs.embed {T : Signature} {f : S.Op → T.Op}
    {back : ∀ op, T.Answer (f op) → S.Answer op}
    {possible : (op : S.Op) → S.Answer op → Prop} {allowed : S.Op → Prop}
    {possible' : (op : T.Op) → T.Answer op → Prop} {allowed' : T.Op → Prop}
    (hperforms : program.Performs possible allowed post)
    (hop : ∀ op, allowed op → allowed' (f op))
    (hanswer : ∀ op answer, possible' (f op) answer →
      possible op (back op answer)) :
    (program.embed f back).Performs possible' allowed' post := by
  induction program with
  | ret value => exact hperforms
  | act op next ih =>
    exact ⟨hop op hperforms.1, fun answer hpossible =>
      ih _ (hperforms.2 _ (hanswer op answer hpossible))⟩

/-- Run one program alone, every operation under the same choice. -/
def Prog.solo (M : Semantics S State Choice Env) (choice : Choice) :
    Prog S α → State → Option (α × State)
  | .ret value, state => some (value, state)
  | .act op next, state =>
    match M.exec state op choice with
    | none => none
    | some (answer, state') => (next answer).solo M choice state'

def later (choices : ℕ → Choice) : ℕ → Choice := fun i => choices (i + 1)

@[simp] theorem later_apply (choices : ℕ → Choice) (i : ℕ) :
    later choices i = choices (i + 1) := rfl

/-- Run one program alone along a stream of choices.  Only the operations
marked as timed use one up; the rest of the stream is returned. -/
def Prog.alone (M : Semantics S State Choice Env) (timed : S.Op → Bool) :
    Prog S α → (ℕ → Choice) → State → Option (α × (ℕ → Choice) × State)
  | .ret value, choices, state => some (value, choices, state)
  | .act op next, choices, state =>
    match M.exec state op (choices 0) with
    | none => none
    | some (answer, state') =>
      (next answer).alone M timed
        (if timed op then later choices else choices) state'

section Alone

variable {M : Semantics S State Choice Env} {timed : S.Op → Bool}
  {choices rest : ℕ → Choice} {state state' : State}

@[simp] theorem Prog.alone_ret (value : α) :
    (Prog.ret value).alone M timed choices state =
      some (value, choices, state) := rfl

theorem Prog.alone_perform_bind {op : S.Op} {f : S.Answer op → Prog S α}
    {answer : S.Answer op}
    (hexec : M.exec state op (choices 0) = some (answer, state')) :
    (Prog.perform op >>= f).alone M timed choices state =
      (f answer).alone M timed
        (if timed op then later choices else choices) state' := by
  simp only [Prog.perform_bind, Prog.alone, hexec]

theorem Prog.alone_untimed_bind {op : S.Op} {f : S.Answer op → Prog S α}
    {answer : S.Answer op}
    (hexec : M.exec state op (choices 0) = some (answer, state'))
    (htimed : timed op = false) :
    (Prog.perform op >>= f).alone M timed choices state =
      (f answer).alone M timed choices state' := by
  rw [Prog.alone_perform_bind hexec, htimed, if_neg Bool.false_ne_true]

theorem Prog.alone_perform_bind_none {op : S.Op} {f : S.Answer op → Prog S α}
    (hexec : M.exec state op (choices 0) = none) :
    (Prog.perform op >>= f).alone M timed choices state = none := by
  simp only [Prog.perform_bind, Prog.alone, hexec]

theorem Prog.alone_perform {op : S.Op} {answer : S.Answer op}
    (hexec : M.exec state op (choices 0) = some (answer, state')) :
    (Prog.perform op).alone M timed choices state =
      some (answer, if timed op then later choices else choices,
        state') := by
  simp only [Prog.perform, Prog.alone, hexec]

theorem Prog.alone_bind (program : Prog S α) (f : α → Prog S β) :
    (program >>= f).alone M timed choices state =
      (program.alone M timed choices state).bind fun r =>
        (f r.1).alone M timed r.2.1 r.2.2 := by
  induction program generalizing choices state with
  | ret value => rfl
  | act op next ih =>
    change (Prog.act op fun answer => next answer >>= f).alone M timed
      choices state = _
    simp only [Prog.alone]
    cases M.exec state op (choices 0) with
    | none => rfl
    | some result => exact ih result.1

theorem Prog.alone_bind_of_eq
    (hfirst : program.alone M timed choices state = some (value, rest, state')) :
    (program >>= f).alone M timed choices state =
      (f value).alone M timed rest state' := by
  rw [Prog.alone_bind, hfirst]
  rfl

theorem Prog.Performs.alone_invariant
    {possible : (op : S.Op) → S.Answer op → Prop} {allowed : S.Op → Prop}
    (hperforms : program.Performs possible allowed post) (inv : State → Prop)
    (hexec : ∀ state op choice answer state', inv state → allowed op →
      M.exec state op choice = some (answer, state') →
      possible op answer ∧ inv state')
    (hstart : inv state) {final : State}
    (halone : program.alone M timed choices state = some (value, rest, final)) :
    inv final := by
  induction program generalizing choices state with
  | ret other =>
    simp only [Prog.alone, Option.some.injEq, Prod.mk.injEq] at halone
    exact halone.2.2 ▸ hstart
  | act op next ih =>
    simp only [Prog.alone] at halone
    split at halone
    · contradiction
    · next answer state' hstep =>
        obtain ⟨hanswer, hnext⟩ :=
          hexec _ _ _ _ _ hstart hperforms.1 hstep
        exact ih answer (hperforms.2 answer hanswer) hnext halone

theorem Prog.exists_eq_of_alone_map {f : α → β} {value : β} {final : State}
    (halone : (f <$> program).alone M timed choices state =
      some (value, rest, final)) :
    ∃ first, f first = value ∧ program.alone M timed choices state =
      some (first, rest, final) := by
  have hbind := (Prog.alone_bind program fun first => .ret (f first)).symm.trans
    halone
  obtain ⟨⟨first, rest', state'⟩, hfirst, heq⟩ :=
    Option.bind_eq_some_iff.mp hbind
  simp only [Prog.alone_ret, Option.some.injEq, Prod.mk.injEq] at heq
  obtain ⟨hvalue, rfl, rfl⟩ := heq
  exact ⟨first, hvalue, hfirst⟩

theorem Prog.exists_of_alone_map {f : α → β} {value : β} {final : State}
    (halone : (f <$> program).alone M timed choices state =
      some (value, rest, final)) :
    ∃ first, program.alone M timed choices state =
      some (first, rest, final) := by
  obtain ⟨first, _, hfirst⟩ := Prog.exists_eq_of_alone_map halone
  exact ⟨first, hfirst⟩

theorem Prog.alone_map_of_eq {f : α → β}
    (hfirst : program.alone M timed choices state = some (value, rest, state')) :
    (f <$> program).alone M timed choices state =
      some (f value, rest, state') :=
  Prog.alone_bind_of_eq hfirst

end Alone

section Solo

variable {M : Semantics S State Choice Env} {choice : Choice}

theorem Prog.solo_perform_bind {op : S.Op} {f : S.Answer op → Prog S α}
    {state state' : State} {answer : S.Answer op}
    (hexec : M.exec state op choice = some (answer, state')) :
    (Prog.perform op >>= f).solo M choice state =
      (f answer).solo M choice state' := by
  simp only [Prog.perform_bind, Prog.solo, hexec]

theorem Prog.solo_perform_bind_none {op : S.Op} {f : S.Answer op → Prog S α}
    {state : State} (hexec : M.exec state op choice = none) :
    (Prog.perform op >>= f).solo M choice state = none := by
  simp only [Prog.perform_bind, Prog.solo, hexec]

theorem Prog.solo_bind_of_eq {state state' : State}
    (hfirst : program.solo M choice state = some (value, state')) :
    (program >>= f).solo M choice state = (f value).solo M choice state' := by
  induction program generalizing state with
  | ret other =>
    simp only [Prog.solo, Option.some.injEq, Prod.mk.injEq] at hfirst
    obtain ⟨rfl, rfl⟩ := hfirst
    rfl
  | act op next ih =>
    change (Prog.act op fun answer => next answer >>= f).solo M choice
      state = _
    simp only [Prog.solo] at hfirst ⊢
    cases hexec : M.exec state op choice with
    | none => simp [hexec] at hfirst
    | some result =>
      simp only [hexec] at hfirst
      exact ih result.1 hfirst

/-- Alone, the program ends, with a value and a state related by `post`. -/
def Prog.Ends (M : Semantics S State Choice Env) (choice : Choice)
    (program : Prog S α) (state : State) (post : α → State → Prop) : Prop :=
  ∃ value final, program.solo M choice state = some (value, final) ∧
    post value final

theorem Prog.ends_ret {state : State} {post : α → State → Prop}
    (hpost : post value state) : (Prog.ret value).Ends M choice state post :=
  ⟨value, state, rfl, hpost⟩

theorem Prog.ends_act {op : S.Op} {next : S.Answer op → Prog S α}
    {state state' : State} {answer : S.Answer op} {post : α → State → Prop}
    (hexec : M.exec state op choice = some (answer, state'))
    (hnext : (next answer).Ends M choice state' post) :
    (Prog.act op next).Ends M choice state post := by
  obtain ⟨value, final, hsolo, hpost⟩ := hnext
  refine ⟨value, final, ?_, hpost⟩
  simp only [Prog.solo, hexec, hsolo]

theorem Prog.ends_perform {op : S.Op} {f : S.Answer op → Prog S α}
    {state state' : State} {answer : S.Answer op} {post : α → State → Prop}
    (hexec : M.exec state op choice = some (answer, state'))
    (hnext : (f answer).Ends M choice state' post) :
    (Prog.perform op >>= f).Ends M choice state post :=
  ends_act hexec hnext

theorem Prog.ends_bind {state : State} {post : β → State → Prop}
    (hfirst : program.Ends M choice state fun value state' =>
      (f value).Ends M choice state' post) :
    (program >>= f).Ends M choice state post := by
  induction program generalizing state with
  | ret value =>
    obtain ⟨_, _, hsolo, hrest⟩ := hfirst
    simp only [Prog.solo, Option.some.injEq, Prod.mk.injEq] at hsolo
    obtain ⟨rfl, rfl⟩ := hsolo
    exact hrest
  | act op next ih =>
    obtain ⟨value, final, hsolo, hrest⟩ := hfirst
    cases hexec : M.exec state op choice with
    | none => simp [Prog.solo, hexec] at hsolo
    | some result =>
      obtain ⟨answer, state'⟩ := result
      simp only [Prog.solo, hexec] at hsolo
      exact ends_act hexec (ih answer ⟨value, final, hsolo, hrest⟩)

theorem Prog.ends_map {f : α → β} {state : State} {post : β → State → Prop}
    (hfirst : program.Ends M choice state fun value => post (f value)) :
    (f <$> program).Ends M choice state post := by
  obtain ⟨value, final, hsolo, hpost⟩ := hfirst
  exact ends_bind ⟨value, final, hsolo, ends_ret hpost⟩

end Solo

structure Event (ι : Type) (S : Signature) where
  thread : ι
  op : S.Op
  answer : S.Answer op

/-- The shared state, what every thread has left to do, and the operations
executed so far, oldest first. -/
structure Config (ι : Type) (S : Signature) (State α : Type) where
  shared : State
  threads : ι → Prog S α
  log : List (Event ι S)

def Config.start (shared : State) (threads : ι → Prog S α) :
    Config ι S State α :=
  ⟨shared, threads, []⟩

inductive Label (ι Choice Env : Type) where
  | thread (i : ι) (choice : Choice)
  | env (event : Env)

/-- One step: a thread executes its next operation, or the environment acts. -/
def Config.step [DecidableEq ι] (M : Semantics S State Choice Env)
    (config : Config ι S State α) :
    Label ι Choice Env → Option (Config ι S State α)
  | .thread i choice =>
    match config.threads i with
    | .ret _ => none
    | .act op next =>
      match M.exec config.shared op choice with
      | none => none
      | some (answer, shared) => some {
          shared := shared
          threads := Function.update config.threads i (next answer)
          log := config.log ++ [⟨i, op, answer⟩] }
  | .env event =>
    match M.env config.shared event with
    | none => none
    | some shared => some { config with shared := shared }

def Config.run [DecidableEq ι] (M : Semantics S State Choice Env) :
    Config ι S State α → List (Label ι Choice Env) →
      Option (Config ι S State α)
  | config, [] => some config
  | config, label :: labels =>
    match config.step M label with
    | none => none
    | some next => next.run M labels

variable {ok : Config ι S State α → Label ι Choice Env → Prop}
  {config next : Config ι S State α} {label : Label ι Choice Env} {i : ι}

section Runs

variable [DecidableEq ι] {M : Semantics S State Choice Env}

theorem Config.step_thread_cases {choice : Choice}
    (hstep : config.step M (.thread i choice) = some next) :
    ∃ op continuation answer,
      config.threads i = .act op continuation ∧
      M.exec config.shared op choice = some (answer, next.shared) ∧
      next.threads =
        Function.update config.threads i (continuation answer) ∧
      next.log = config.log ++ [⟨i, op, answer⟩] := by
  simp only [Config.step] at hstep
  cases hthread : config.threads i with
  | ret value => simp [hthread] at hstep
  | act op continuation =>
    cases hexec : M.exec config.shared op choice with
    | none => simp [hthread, hexec] at hstep
    | some result =>
      obtain ⟨answer, shared⟩ := result
      simp only [hthread, hexec, Option.some.injEq] at hstep
      subst next
      exact ⟨op, continuation, answer, rfl, hexec, rfl, rfl⟩

theorem Config.step_env_cases {event : Env}
    (hstep : config.step M (.env event) = some next) :
    M.env config.shared event = some next.shared ∧
      next.threads = config.threads ∧ next.log = config.log := by
  simp only [Config.step] at hstep
  cases henv : M.env config.shared event with
  | none => simp [henv] at hstep
  | some shared =>
    simp only [henv, Option.some.injEq] at hstep
    subst next
    exact ⟨rfl, rfl, rfl⟩

theorem Config.step_log (hstep : config.step M label = some next) :
    ∃ more, next.log = config.log ++ more := by
  cases label with
  | env event =>
    exact ⟨[], by rw [(Config.step_env_cases hstep).2.2, List.append_nil]⟩
  | thread i choice =>
    obtain ⟨_, _, _, _, _, _, hlog⟩ := Config.step_thread_cases hstep
    exact ⟨_, hlog⟩

def Config.StepWith (M : Semantics S State Choice Env)
    (ok : Config ι S State α → Label ι Choice Env → Prop)
    (config next : Config ι S State α) : Prop :=
  ∃ label, ok config label ∧ config.step M label = some next

/-- The configurations reached by runs all of whose steps meet `ok`. -/
def Config.Reaches (M : Semantics S State Choice Env)
    (ok : Config ι S State α → Label ι Choice Env → Prop) :
    Config ι S State α → Config ι S State α → Prop :=
  Relation.ReflTransGen (Config.StepWith M ok)

def anyStep : Config ι S State α → Label ι Choice Env → Prop :=
  fun _ _ => True

instance (config : Config ι S State α) (label : Label ι Choice Env) :
    Decidable (anyStep config label) := inferInstanceAs (Decidable True)

theorem Config.Reaches.invariant {start config : Config ι S State α}
    (hreach : Config.Reaches M ok start config)
    (inv : Config ι S State α → Prop) (hstart : inv start)
    (hpreserve : ∀ config next label, inv config → ok config label →
      config.step M label = some next → inv next) :
    inv config := by
  induction hreach with
  | refl => exact hstart
  | tail _ hstep ih =>
    obtain ⟨label, hok, hstep⟩ := hstep
    exact hpreserve _ _ label ih hok hstep

/-- Run along `labels`, stopping at a step that `ok` does not allow. -/
def Config.runWith (M : Semantics S State Choice Env)
    (ok : Config ι S State α → Label ι Choice Env → Prop)
    [∀ config label, Decidable (ok config label)] :
    Config ι S State α → List (Label ι Choice Env) →
      Option (Config ι S State α)
  | config, [] => some config
  | config, label :: labels =>
    if ok config label then
      match config.step M label with
      | none => none
      | some next => next.runWith M ok labels
    else none

variable {labels : List (Label ι Choice Env)}

theorem Config.reaches_of_runWith [∀ config label, Decidable (ok config label)]
    {config final : Config ι S State α}
    (hrun : config.runWith M ok labels = some final) :
    Config.Reaches M ok config final := by
  induction labels generalizing config with
  | nil =>
    simp only [Config.runWith, Option.some.injEq] at hrun
    subst final
    exact .refl
  | cons label labels ih =>
    rw [Config.runWith] at hrun
    split at hrun
    · next hok =>
        cases hstep : config.step M label with
        | none => simp [hstep] at hrun
        | some next =>
          rw [hstep] at hrun
          exact .head ⟨label, hok, hstep⟩ (ih hrun)
    · contradiction

theorem Config.exists_reaches [∀ config label, Decidable (ok config label)]
    {config : Config ι S State α} {test : Config ι S State α → Bool}
    (hrun : (config.runWith M ok labels).any test = true) :
    ∃ final, Config.Reaches M ok config final ∧ test final = true := by
  obtain ⟨final, hfinal, htest⟩ := (Option.any_eq_true _ _).mp hrun
  exact ⟨final, reaches_of_runWith hfinal, htest⟩

def Prog.value? : Prog S α → Option α
  | .ret value => some value
  | .act _ _ => none

theorem Prog.eq_ret_of_value? (hvalue : program.value? = some value) :
    program = .ret value := by
  cases program with
  | ret other => exact congrArg Prog.ret (Option.some.inj hvalue)
  | act op next => contradiction

def Prog.next? : Prog S α → Option S.Op
  | .ret _ => none
  | .act op _ => some op

/-- What is left of a program performs only what the program does, as long as
the answers are possible ones. -/
theorem Config.step_performs {possible : (op : S.Op) → S.Answer op → Prop}
    {allowed : S.Op → Prop}
    (hperforms : (config.threads i).Performs possible allowed post)
    (hstep : config.step M label = some next)
    (hpossible : ∀ op choice answer, (config.threads i).next? = some op →
      label = .thread i choice →
      M.exec config.shared op choice = some (answer, next.shared) →
      possible op answer) :
    (next.threads i).Performs possible allowed post := by
  cases label with
  | env event =>
    rw [(Config.step_env_cases hstep).2.1]
    exact hperforms
  | thread j choice =>
    obtain ⟨op, continuation, answer, hthread, hexec, hthreads, _⟩ :=
      Config.step_thread_cases hstep
    rw [hthreads]
    by_cases hij : i = j
    · subst j
      rw [Function.update_self]
      rw [hthread] at hperforms hpossible
      exact hperforms.2 answer (hpossible op choice answer rfl rfl hexec)
    · rw [Function.update_of_ne hij]
      exact hperforms

theorem Config.step_performsFrom {W : Type} [Preorder W]
    {possible : W → (op : S.Op) → S.Answer op → Prop}
    {allowed : W → S.Op → Prop}
    (hallowed : ∀ world later op, world ≤ later → allowed world op →
      allowed later op)
    {choice : Choice} {world later : W}
    (hperforms : ∀ j, (config.threads j).PerformsFrom possible allowed world)
    (hstep : config.step M (.thread i choice) = some next)
    (hle : world ≤ later)
    (hpossible : ∀ op answer,
      M.exec config.shared op choice = some (answer, next.shared) →
      possible later op answer)
    (j : ι) :
    (next.threads j).PerformsFrom possible allowed later := by
  obtain ⟨op, continuation, answer, hthread, hexec, hthreads, _⟩ :=
    Config.step_thread_cases hstep
  rw [hthreads]
  by_cases hji : j = i
  · subst j
    rw [Function.update_self]
    have hown := hperforms i
    rw [hthread] at hown
    exact hown.2 later answer hle (hpossible op answer hexec)
  · rw [Function.update_of_ne hji]
    exact (hperforms j).mono hallowed hle

/-! ## Which thread began first -/

def Began (log : List (Event ι S)) (i : ι) : Prop :=
  ∃ event ∈ log, event.thread = i

/-- Thread `i` has begun, and at that time thread `j` had not. -/
def BeganBefore (log : List (Event ι S)) (i j : ι) : Prop :=
  Began (log.takeWhile fun event => event.thread ≠ j) i

instance decidableBegan (log : List (Event ι S)) (i : ι) :
    Decidable (Began log i) := List.decidableBEx _ log

instance decidableBeganBefore (log : List (Event ι S)) (i j : ι) :
    Decidable (BeganBefore log i j) := decidableBegan _ i

omit [DecidableEq ι] in
theorem Began.append {log : List (Event ι S)} (hbegan : Began log i)
    (more : List (Event ι S)) : Began (log ++ more) i := by
  obtain ⟨event, hevent, hthread⟩ := hbegan
  exact ⟨event, List.mem_append_left _ hevent, hthread⟩

/-- Once a thread has begun, it is settled which ones began before it. -/
theorem beganBefore_append {log : List (Event ι S)} {j : ι}
    (hbegan : Began log j) (more : List (Event ι S)) (i : ι) :
    BeganBefore (log ++ more) i j ↔ BeganBefore log i j := by
  have hsame : (log ++ more).takeWhile (fun event => event.thread ≠ j) =
      log.takeWhile fun event => event.thread ≠ j := by
    induction log with
    | nil =>
      obtain ⟨event, hevent, _⟩ := hbegan
      contradiction
    | cons first log ih =>
      by_cases hfirst : first.thread = j
      · simp [hfirst]
      · have hrest : Began log j := by
          obtain ⟨event, hevent, hthread⟩ := hbegan
          rcases List.mem_cons.mp hevent with rfl | htail
          · exact absurd hthread hfirst
          · exact ⟨event, htail, hthread⟩
        simpa [hfirst] using ih hrest
  unfold BeganBefore
  rw [hsame]

theorem Config.Reaches.returned {config later : Config ι S State α}
    (hreach : Config.Reaches M ok config later)
    (hret : config.threads i = .ret value) : later.threads i = .ret value := by
  refine hreach.invariant (fun config => config.threads i = .ret value) hret ?_
  intro config next label hret _ hstep
  cases label with
  | env event =>
    rw [(Config.step_env_cases hstep).2.1]
    exact hret
  | thread j choice =>
    obtain ⟨_, _, _, hthread, _, hthreads, _⟩ :=
      Config.step_thread_cases hstep
    have hne : i ≠ j := by
      rintro rfl
      rw [hret] at hthread
      contradiction
    rw [hthreads, Function.update_of_ne hne]
    exact hret

theorem Config.Reaches.threads_of_idle {shared : State}
    {threads : ι → Prog S α} {config : Config ι S State α}
    (hreach : Config.Reaches M ok (Config.start shared threads) config)
    (hidle : ¬ Began config.log i) : config.threads i = threads i := by
  refine hreach.invariant
    (fun config => ¬ Began config.log i → config.threads i = threads i)
    (fun _ => rfl) ?_ hidle
  intro config next label hinv _ hstep hidle
  cases label with
  | env event =>
    obtain ⟨_, hthreads, hlog⟩ := Config.step_env_cases hstep
    rw [hthreads]
    exact hinv (hlog ▸ hidle)
  | thread j choice =>
    obtain ⟨op, _, answer, _, _, hthreads, hlog⟩ :=
      Config.step_thread_cases hstep
    rw [hlog] at hidle
    have hne : i ≠ j := by
      rintro rfl
      exact hidle ⟨⟨i, op, answer⟩, by simp, rfl⟩
    rw [hthreads, Function.update_of_ne hne]
    exact hinv fun hbegan => hidle (hbegan.append _)

end Runs

/-! ## Disciplines -/

/-- What a thread may do, in terms of a ghost state which records its own
operations and their answers. -/
structure Discipline (S : Signature) (Ghost : Type) where
  guard : Ghost → S.Op → Prop
  update : Ghost → (op : S.Op) → S.Answer op → Ghost

variable {Ghost : Type}

/-- From ghost state `ghost` on, the program performs only operations its
discipline allows and ends in a ghost state and a value related by `post`. -/
def Follows (D : Discipline S Ghost) (post : Ghost → α → Prop) :
    Ghost → Prog S α → Prop
  | ghost, .ret value => post ghost value
  | ghost, .act op next =>
    D.guard ghost op ∧
      ∀ answer, Follows D post (D.update ghost op answer) (next answer)

@[simp] theorem follows_ret (D : Discipline S Ghost)
    (post : Ghost → α → Prop) (ghost : Ghost) (value : α) :
    Follows D post ghost (.ret value) ↔ post ghost value := Iff.rfl

variable {D : Discipline S Ghost} {ghost : Ghost}

theorem follows_perform {post : Ghost → α → Prop} {op : S.Op}
    {f : S.Answer op → Prog S α} (hguard : D.guard ghost op)
    (hrest : ∀ answer, Follows D post (D.update ghost op answer) (f answer)) :
    Follows D post ghost (Prog.perform op >>= f) := ⟨hguard, hrest⟩

theorem follows_bind {post : Ghost → β → Prop}
    (hfirst : Follows D (fun ghost value => Follows D post ghost (f value))
      ghost program) :
    Follows D post ghost (program >>= f) := by
  induction program generalizing ghost with
  | ret value => exact hfirst
  | act op next ih =>
    exact ⟨hfirst.1, fun answer => ih answer (hfirst.2 answer)⟩

theorem Prog.Performs.follows {allowed : S.Op → Prop}
    (hperforms : program.Performs (fun _ _ => True) allowed post)
    (hguard : ∀ op, allowed op → D.guard ghost op)
    (hupdate : ∀ op answer, allowed op → D.update ghost op answer = ghost) :
    Follows D (fun _ value => post value) ghost program := by
  induction program with
  | ret value => exact hperforms
  | act op next ih =>
    refine ⟨hguard op hperforms.1, fun answer => ?_⟩
    rw [hupdate op answer hperforms.1]
    exact ih answer (hperforms.2 answer trivial)

theorem Follows.performs {post : Ghost → α → Prop}
    (hfollow : Follows D post ghost program)
    {possible : (op : S.Op) → S.Answer op → Prop} {allowed : S.Op → Prop}
    (inv : Ghost → Prop) (hinv : inv ghost)
    (hguard : ∀ ghost op, inv ghost → D.guard ghost op → allowed op)
    (hupdate : ∀ ghost op answer, inv ghost → inv (D.update ghost op answer)) :
    program.Performs possible allowed fun _ => True := by
  induction program generalizing ghost with
  | ret value => trivial
  | act op next ih =>
    exact ⟨hguard ghost op hinv hfollow.1, fun answer _ =>
      ih answer (hfollow.2 answer) (hupdate ghost op answer hinv)⟩

theorem follows_of_closed {post : Ghost → α → Prop}
    (hguard : ∀ op, D.guard ghost op)
    (hupdate : ∀ op answer, D.update ghost op answer = ghost)
    (hpost : ∀ value, post ghost value) (program : Prog S α) :
    Follows D post ghost program := by
  induction program with
  | ret value => exact hpost value
  | act op next ih =>
    refine ⟨hguard op, fun answer => ?_⟩
    rw [hupdate]
    exact ih answer

theorem follows_map {post : Ghost → β → Prop} {f : α → β}
    (hfollow : Follows D (fun ghost value => post ghost (f value))
      ghost program) :
    Follows D post ghost (f <$> program) := follows_bind hfollow

theorem Follows.mono {post post' : Ghost → α → Prop}
    (hfollow : Follows D post ghost program)
    (hpost : ∀ ghost value, post ghost value → post' ghost value) :
    Follows D post' ghost program := by
  induction program generalizing ghost with
  | ret value => exact hpost _ _ hfollow
  | act op next ih =>
    exact ⟨hfollow.1, fun answer => ih answer (hfollow.2 answer)⟩

section Ghosts

variable [DecidableEq ι]

/-- The ghost state of thread `i` after the operations in `log`. -/
def ghostOf (D : ι → Discipline S Ghost) (initial : ι → Ghost)
    (log : List (Event ι S)) (i : ι) : Ghost :=
  log.foldl (fun ghost event =>
    if event.thread = i then (D i).update ghost event.op event.answer
    else ghost) (initial i)

@[simp] theorem ghostOf_nil (D : ι → Discipline S Ghost)
    (initial : ι → Ghost) (i : ι) : ghostOf D initial [] i = initial i := rfl

theorem ghostOf_append_self (D : ι → Discipline S Ghost)
    (initial : ι → Ghost) (log : List (Event ι S)) (i : ι)
    (op : S.Op) (answer : S.Answer op) :
    ghostOf D initial (log ++ [⟨i, op, answer⟩]) i =
      (D i).update (ghostOf D initial log i) op answer := by
  simp [ghostOf]

theorem ghostOf_append_other (D : ι → Discipline S Ghost)
    (initial : ι → Ghost) (log : List (Event ι S)) {i j : ι}
    (hne : i ≠ j) (op : S.Op) (answer : S.Answer op) :
    ghostOf D initial (log ++ [⟨i, op, answer⟩]) j =
      ghostOf D initial log j := by
  simp [ghostOf, hne]

theorem ghostOf_append (D : ι → Discipline S Ghost)
    (initial : ι → Ghost) (log : List (Event ι S)) (i : ι)
    (op : S.Op) (answer : S.Answer op) :
    ghostOf D initial (log ++ [⟨i, op, answer⟩]) =
      Function.update (ghostOf D initial log) i
        ((D i).update (ghostOf D initial log i) op answer) := by
  funext j
  by_cases hij : i = j
  · subst hij
    rw [ghostOf_append_self, Function.update_self]
  · rw [ghostOf_append_other D initial log hij,
      Function.update_of_ne (Ne.symm hij)]

theorem ghostOf_idle (D : ι → Discipline S Ghost) (initial : ι → Ghost)
    {log : List (Event ι S)} (hidle : ∀ event ∈ log, event.thread ≠ i) :
    ghostOf D initial log i = initial i := by
  induction log using List.reverseRecOn with
  | nil => rfl
  | append_singleton log event ih =>
    rw [ghostOf_append_other D initial log (hidle event (by simp))]
    exact ih fun other hother => hidle other (List.mem_append_left _ hother)

/-- What holds of a thread's ghost state is proved along its own operations;
those of the other threads only have to keep it. -/
theorem ghostOf_induction {D : ι → Discipline S Ghost} {initial : ι → Ghost}
    (motive : List (Event ι S) → Ghost → Prop) (hnil : motive [] (initial i))
    (hself : ∀ log ghost op answer, motive log ghost →
      motive (log ++ [⟨i, op, answer⟩]) ((D i).update ghost op answer))
    (hother : ∀ log ghost event, motive log ghost →
      motive (log ++ [event]) ghost)
    (log : List (Event ι S)) : motive log (ghostOf D initial log i) := by
  induction log using List.reverseRecOn with
  | nil => exact hnil
  | append_singleton log event ih =>
    obtain ⟨j, op, answer⟩ := event
    by_cases hji : j = i
    · subst j
      rw [ghostOf_append_self]
      exact hself log _ op answer ih
    · rw [ghostOf_append_other D initial log hji]
      exact hother log _ _ ih

variable {M : Semantics S State Choice Env}

/-- Every thread still follows its discipline from the ghost state its own
past has led to. -/
def Config.Disciplined (D : ι → Discipline S Ghost) (initial : ι → Ghost)
    (post : ι → Ghost → α → Prop) (config : Config ι S State α) : Prop :=
  ∀ i, Follows (D i) (post i) (ghostOf D initial config.log i)
    (config.threads i)

theorem Config.Disciplined.step {D : ι → Discipline S Ghost}
    {initial : ι → Ghost} {post : ι → Ghost → α → Prop}
    (hdisc : config.Disciplined D initial post)
    (hstep : config.step M label = some next) :
    next.Disciplined D initial post := by
  cases label with
  | env event =>
    obtain ⟨_, hthreads, hlog⟩ := Config.step_env_cases hstep
    intro i
    rw [hthreads, hlog]
    exact hdisc i
  | thread j choice =>
    obtain ⟨op, continuation, answer, hthread, _, hthreads, hlog⟩ :=
      Config.step_thread_cases hstep
    intro i
    rw [hthreads, hlog]
    by_cases hij : j = i
    · subst j
      rw [ghostOf_append_self, Function.update_self]
      have hfollow := hdisc i
      rw [hthread] at hfollow
      exact hfollow.2 answer
    · rw [ghostOf_append_other D initial config.log hij,
        Function.update_of_ne (Ne.symm hij)]
      exact hdisc i

/-- Threads that follow their disciplines alone follow them in every run. -/
theorem Config.Reaches.disciplined {D : ι → Discipline S Ghost}
    {initial : ι → Ghost} {post : ι → Ghost → α → Prop} {shared : State}
    {threads : ι → Prog S α} {config : Config ι S State α}
    (hreach : Config.Reaches M ok (Config.start shared threads) config)
    (hstart : ∀ i, Follows (D i) (post i) (initial i) (threads i)) :
    config.Disciplined D initial post :=
  hreach.invariant (fun config => config.Disciplined D initial post)
    hstart (fun _ _ _ hdisc _ hstep => hdisc.step hstep)

end Ghosts

end InterleavedPrograms
