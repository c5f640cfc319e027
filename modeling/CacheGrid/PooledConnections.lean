import CacheGrid.InterleavedPrograms

/-!
# Requests over pooled connections

In a machine whose requests are single operations, every caller is handed the
response to its own request.  Here the callers of a client share one connection
to each server.  A caller writes its request, the server serves it, and the
caller takes the next response that the connection holds, whoever it is meant
for.  A caller that fails closes the connection, and the responses on it are
gone.  A request may also be left behind by a caller that has given up, and be
served later.

A request is served in the step that writes it; until then nothing shows of it
but that the connection is in use.

In a run in which requests are written only to connections without an unread
response, the callers return what they return in some run of the machine with
single operations.  There a request whose response is lost has failed when it
was served, so that run depends on what will become of the responses that are
still unread.  The simulation therefore keeps one run for every way in which
they may end.
-/

namespace PooledConnections

open InterleavedPrograms

variable {S : Signature} {ι α State Choice Env Link Err Resp : Type}

/-! ## Programs -/

/-- The connection of a request, and what its caller makes of a failure and of
a response. -/
structure Request (Link Err Resp Answer : Type) where
  link : Link
  failed : Err → Answer
  read : Resp → Answer

/-- The operations that are requests. -/
abbrev Requests (S : Signature) (Link Err Resp : Type) :=
  (op : S.Op) → Option (Request Link Err Resp (S.Answer op))

inductive Op (S : Signature) (Link : Type) where
  | direct (op : S.Op)
  /-- Fails, or answers with the number of the connection. -/
  | send (link : Link) (op : S.Op)
  | receive (link : Link) (number : ℕ)

abbrev Op.Answer (Err Resp : Type) : Op S Link → Type
  | .direct op => S.Answer op
  | .send _ op => Except (S.Answer op) ℕ
  | .receive _ _ => Except Err Resp

abbrev signature (S : Signature) (Link Err Resp : Type) : Signature :=
  ⟨Op S Link, Op.Answer Err Resp⟩

abbrev Program (S : Signature) (Link Err Resp α : Type) :=
  Prog (signature S Link Err Resp) α

def afterReceive {Answer : Type} (request : Request Link Err Resp Answer)
    (next : Answer → Program S Link Err Resp α) :
    Except Err Resp → Program S Link Err Resp α
  | .error error => next (request.failed error)
  | .ok resp => next (request.read resp)

def afterSend {Answer : Type} (request : Request Link Err Resp Answer)
    (next : Answer → Program S Link Err Resp α) :
    Except Answer ℕ → Program S Link Err Resp α
  | .error answer => next answer
  | .ok number =>
    .act (.receive request.link number) (afterReceive request next)

/-- The program, with its requests sent over connections. -/
def overConnections (requests : Requests S Link Err Resp) :
    Prog S α → Program S Link Err Resp α
  | .ret value => .ret value
  | .act op next =>
    match requests op with
    | none =>
      .act (.direct op) fun answer => overConnections requests (next answer)
    | some request => .act (.send request.link op)
        (afterSend request fun answer =>
          overConnections requests (next answer))

/-! ## One step -/

structure Conn (Resp : Type) where
  /-- How often the connection has been closed. -/
  number : ℕ
  unread : List Resp

structure Network (S : Signature) (State Link Resp : Type) where
  state : State
  conns : Link → Conn Resp
  /-- Requests whose callers have given up. -/
  left : List S.Op

def Network.start (state : State) : Network S State Link Resp :=
  ⟨state, fun _ => ⟨0, []⟩, []⟩

structure Turn (Choice Err : Type) where
  choice : Choice
  /-- Why the caller cannot read. -/
  error : Option Err
  /-- A request that fails is left behind. -/
  leaves : Bool

inductive NetworkEvent (Choice Env : Type) where
  | base (event : Env)
  /-- A request that was left behind is served. -/
  | late (position : ℕ) (choice : Choice)

section Semantics

variable [DecidableEq Link] (M : Semantics S State Choice Env)
  (respond : State → S.Op → Choice → Option Resp)

namespace Network

def setConn (w : Network S State Link Resp) (link : Link)
    (conn : Conn Resp) : Network S State Link Resp :=
  { w with conns := Function.update w.conns link conn }

def close (w : Network S State Link Resp) (link : Link) :
    Network S State Link Resp :=
  w.setConn link ⟨(w.conns link).number + 1, []⟩

def arrive (w : Network S State Link Resp) (link : Link) (resp : Resp) :
    Network S State Link Resp :=
  w.setConn link
    ⟨(w.conns link).number, (w.conns link).unread ++ [resp]⟩

def take (w : Network S State Link Resp) (link : Link) (number : ℕ) :
    Option (Resp × Network S State Link Resp) :=
  match (w.conns link).unread with
  | [] => none
  | resp :: rest =>
    if (w.conns link).number = number then
      some (resp, w.setConn link ⟨number, rest⟩)
    else none

def exec (w : Network S State Link Resp) : (op : Op S Link) →
    Turn Choice Err → Option (op.Answer Err Resp × Network S State Link Resp)
  | .direct op, turn =>
    (M.exec w.state op turn.choice).map fun r =>
      (r.1, { w with state := r.2 })
  | .send link op, turn =>
    (M.exec w.state op turn.choice).map fun r =>
      match respond w.state op turn.choice with
      | some resp => (.ok (w.conns link).number,
          { w.arrive link resp with state := r.2 })
      | none => (.error r.1, { w.close link with
          state := r.2
          left := w.left ++ if turn.leaves then [op] else [] })
  | .receive link number, turn =>
    match turn.error with
    | some error => some (.error error, w.close link)
    | none => (w.take link number).map fun r => (.ok r.1, r.2)

def envStep (w : Network S State Link Resp) :
    NetworkEvent Choice Env → Option (Network S State Link Resp)
  | .base event =>
    (M.env w.state event).map fun state => { w with state := state }
  | .late position choice =>
    (w.left[position]?).bind fun op =>
      (M.exec w.state op choice).map fun r =>
        { w with state := r.2, left := w.left.eraseIdx position }

end Network

def machine : Semantics (signature S Link Err Resp)
    (Network S State Link Resp) (Turn Choice Err) (NetworkEvent Choice Env) where
  exec := Network.exec M respond
  env := Network.envStep M

end Semantics

section Steps

variable [DecidableEq Link] {M : Semantics S State Choice Env}
  {respond : State → S.Op → Choice → Option Resp}
  {w after : Network S State Link Resp} {op : S.Op} {link : Link}
  {turn : Turn Choice Err}

theorem exec_direct {answer : S.Answer op}
    (hexec : (machine M respond).exec w (.direct op) turn =
      some (answer, after)) :
    M.exec w.state op turn.choice = some (answer, after.state) ∧
      after.conns = w.conns := by
  obtain ⟨⟨_, state⟩, hbase, heq⟩ := Option.map_eq_some_iff.mp hexec
  rw [Prod.mk.injEq] at heq
  obtain ⟨rfl, rfl⟩ := heq
  exact ⟨hbase, rfl⟩

theorem exec_send {answer : Except (S.Answer op) ℕ}
    (hexec : (machine M respond).exec w (.send link op) turn =
      some (answer, after)) :
    ∃ own, M.exec w.state op turn.choice = some (own, after.state) ∧
      ((∃ resp, respond w.state op turn.choice = some resp ∧
          answer = .ok (w.conns link).number ∧
          after.conns = (w.arrive link resp).conns) ∨
        answer = .error own ∧ after.conns = (w.close link).conns) := by
  obtain ⟨⟨own, state⟩, hbase, heq⟩ := Option.map_eq_some_iff.mp hexec
  refine ⟨own, ?_⟩
  cases hrespond : respond w.state op turn.choice with
  | some resp =>
    simp only [hrespond, Prod.mk.injEq] at heq
    obtain ⟨rfl, rfl⟩ := heq
    exact ⟨hbase, Or.inl ⟨resp, rfl, rfl, rfl⟩⟩
  | none =>
    simp only [hrespond, Prod.mk.injEq] at heq
    obtain ⟨rfl, rfl⟩ := heq
    exact ⟨hbase, Or.inr ⟨rfl, rfl⟩⟩

theorem exec_receive {number : ℕ} {answer : Except Err Resp}
    (hexec : (machine M respond).exec w (.receive link number) turn =
      some (answer, after)) :
    after.state = w.state ∧
      ((∃ error, turn.error = some error ∧ answer = .error error ∧
          after.conns = (w.close link).conns) ∨
        ∃ resp rest, (w.conns link).unread = resp :: rest ∧
          (w.conns link).number = number ∧ answer = .ok resp ∧
          after.conns = (w.setConn link ⟨number, rest⟩).conns) := by
  simp only [machine, Network.exec] at hexec
  cases herror : turn.error with
  | some error =>
    simp only [herror, Option.some.injEq, Prod.mk.injEq] at hexec
    obtain ⟨rfl, rfl⟩ := hexec
    exact ⟨rfl, Or.inl ⟨error, rfl, rfl, rfl⟩⟩
  | none =>
    simp only [herror, Network.take] at hexec
    obtain ⟨⟨resp, final⟩, htake, heq⟩ := Option.map_eq_some_iff.mp hexec
    cases hunread : (w.conns link).unread with
    | nil => simp [hunread] at htake
    | cons first rest =>
      simp only [hunread, Option.ite_none_right_eq_some,
        Option.some.injEq, Prod.mk.injEq] at htake heq
      obtain ⟨hnumber, rfl, rfl⟩ := htake
      obtain ⟨rfl, rfl⟩ := heq
      exact ⟨rfl, Or.inr ⟨first, rest, rfl, hnumber, rfl, rfl⟩⟩

end Steps

/-! ## Quiet runs -/

/-- A condition on the steps of the machine with single operations. -/
structure Rules (S : Signature) (State Choice Env : Type) where
  perform : State → S.Op → Choice → Prop
  happen : State → Env → Prop
  /-- Responses may be lost. -/
  lossy : Prop

def Rules.free : Rules S State Choice Env :=
  ⟨fun _ _ _ => True, fun _ _ => True, True⟩

/-- The step is one that the rules allow, and a request is written only to a
connection without an unread response. -/
def QuietStep (rules : Rules S State Choice Env)
    (w : Network S State Link Resp) (turn : Turn Choice Err) :
    Program S Link Err Resp α → Prop
  | .ret _ => True
  | .act (.direct op) _ => rules.perform w.state op turn.choice
  | .act (.send link op) _ =>
    rules.perform w.state op turn.choice ∧ (w.conns link).unread = []
  | .act (.receive _ _) _ => turn.error.isSome = true → rules.lossy

/-- Besides, no request is served that its caller has given up. -/
def Quiet (rules : Rules S State Choice Env)
    (config : Config ι (signature S Link Err Resp)
      (Network S State Link Resp) α) :
    Label ι (Turn Choice Err) (NetworkEvent Choice Env) → Prop
  | .thread i turn => QuietStep rules config.shared turn (config.threads i)
  | .env (.base event) => rules.happen config.shared.state event
  | .env (.late _ _) => False

section Decidable

variable (rules : Rules S State Choice Env)
  [∀ state op choice, Decidable (rules.perform state op choice)]
  [∀ state event, Decidable (rules.happen state event)]
  [Decidable rules.lossy]

instance decidableQuietStep (w : Network S State Link Resp)
    (turn : Turn Choice Err) :
    (program : Program S Link Err Resp α) →
      Decidable (QuietStep rules w turn program)
  | .ret _ => isTrue trivial
  | .act (.direct op) _ =>
    inferInstanceAs (Decidable (rules.perform w.state op turn.choice))
  | .act (.send link op) _ => inferInstanceAs (Decidable
      (rules.perform w.state op turn.choice ∧ (w.conns link).unread = []))
  | .act (.receive _ _) _ => inferInstanceAs (Decidable
      (turn.error.isSome = true → rules.lossy))

instance decidableQuiet (config : Config ι (signature S Link Err Resp)
      (Network S State Link Resp) α) :
    (label : Label ι (Turn Choice Err) (NetworkEvent Choice Env)) →
      Decidable (Quiet rules config label)
  | .thread i turn =>
    decidableQuietStep rules config.shared turn (config.threads i)
  | .env (.base event) =>
    inferInstanceAs (Decidable (rules.happen config.shared.state event))
  | .env (.late _ _) => isFalse id

instance (state : State) (op : S.Op) (choice : Choice) : Decidable
    ((Rules.free : Rules S State Choice Env).perform state op choice) :=
  isTrue trivial

instance (state : State) (event : Env) : Decidable
    ((Rules.free : Rules S State Choice Env).happen state event) :=
  isTrue trivial

instance : Decidable (Rules.free : Rules S State Choice Env).lossy :=
  isTrue trivial

end Decidable

/-! ## The simulation -/

/-- What the machine with single operations has to do with the network. -/
structure Serves (M : Semantics S State Choice Env)
    (respond : State → S.Op → Choice → Option Resp)
    (requests : ι → Requests S Link Err Resp) (lost : Choice → Err → Choice)
    (rules : Rules S State Choice Env)
    (ok : Config ι S State α → Label ι Choice Env → Prop) : Prop where
  answered : ∀ {i op request state choice resp answer after},
    requests i op = some request → respond state op choice = some resp →
    M.exec state op choice = some (answer, after) →
    answer = request.read resp
  /-- The same request may be served and its response be lost. -/
  unanswered : ∀ {i op request state choice resp answer after},
    requests i op = some request → respond state op choice = some resp →
    M.exec state op choice = some (answer, after) → ∀ error,
    M.exec state op (lost choice error) = some (request.failed error, after)
  perform_lost : ∀ {state op choice}, rules.lossy →
    rules.perform state op choice → ∀ error,
    rules.perform state op (lost choice error)
  thread_ok : ∀ {config i op next choice}, config.threads i = .act op next →
    rules.perform config.shared op choice → ok config (.thread i choice)
  env_ok : ∀ {config event}, rules.happen config.shared event →
    ok config (.env event)

/-- How far a caller has come: between two operations of its program, or with
its request served and the response on a connection. -/
inductive Stage (S : Signature) (Link Err Resp α : Type) where
  | resting (program : Prog S α)
  | waiting (op : S.Op) (request : Request Link Err Resp (S.Answer op))
      (number : ℕ) (resp : Resp) (next : S.Answer op → Prog S α)

namespace Stage

def program (requests : Requests S Link Err Resp) :
    Stage S Link Err Resp α → Program S Link Err Resp α
  | .resting program => overConnections requests program
  | .waiting _ request number _ next =>
    .act (.receive request.link number)
      (afterReceive request fun answer =>
        overConnections requests (next answer))

/-- What is left of the program with single operations, if the response is
read or is lost for this reason. -/
def rest : Stage S Link Err Resp α → Option Err → Prog S α
  | .resting program, _ => program
  | .waiting _ request _ resp next, none => next (request.read resp)
  | .waiting _ request _ _ next, some error => next (request.failed error)

def awaits : Stage S Link Err Resp α → Option (Link × ℕ × Resp)
  | .resting _ => none
  | .waiting _ request number resp _ => some (request.link, number, resp)

variable {requests : Requests S Link Err Resp}
  {stage : Stage S Link Err Resp α}

/-- The next operation of a stage, and how it goes on. -/
inductive Acts (requests : Requests S Link Err Resp) :
    Stage S Link Err Resp α → (op : Op S Link) →
      (op.Answer Err Resp → Program S Link Err Resp α) → Prop
  | direct {op : S.Op} (next : S.Answer op → Prog S α)
      (hdirect : requests op = none) :
      Acts requests (.resting (.act op next)) (.direct op)
        fun answer => overConnections requests (next answer)
  | send {op : S.Op} {request : Request Link Err Resp (S.Answer op)}
      (next : S.Answer op → Prog S α) (hsend : requests op = some request) :
      Acts requests (.resting (.act op next)) (.send request.link op)
        (afterSend request fun answer =>
          overConnections requests (next answer))
  | receive (op : S.Op) (request : Request Link Err Resp (S.Answer op))
      (number : ℕ) (resp : Resp) (next : S.Answer op → Prog S α) :
      Acts requests (.waiting op request number resp next)
        (.receive request.link number)
        (afterReceive request fun answer =>
          overConnections requests (next answer))

theorem acts_of_program {op : Op S Link}
    {next : op.Answer Err Resp → Program S Link Err Resp α}
    (hprogram : stage.program requests = .act op next) :
    Acts requests stage op next := by
  cases stage with
  | waiting op' request number resp next' =>
    cases hprogram
    exact .receive op' request number resp next'
  | resting program =>
    cases program with
    | ret value => contradiction
    | act op' next' =>
      simp only [Stage.program, overConnections] at hprogram
      cases hrequest : requests op' with
      | none =>
        simp only [hrequest] at hprogram
        cases hprogram
        exact .direct next' hrequest
      | some request =>
        simp only [hrequest] at hprogram
        cases hprogram
        exact .send next' hrequest

theorem rest_of_ret {value : α}
    (hprogram : stage.program requests = .ret value) (ends : Option Err) :
    stage.rest ends = .ret value := by
  cases stage with
  | waiting op request number resp next => contradiction
  | resting program =>
    cases program with
    | ret other =>
      cases hprogram
      rfl
    | act op next =>
      simp only [Stage.program, overConnections] at hprogram
      split at hprogram <;> contradiction

end Stage

section Simulation

variable {M : Semantics S State Choice Env} {i : ι}
  {stages : ι → Stage S Link Err Resp α} {conns conns' : Link → Conn Resp}
  {ends : ι → Option Err} {base : Config ι S State α}
  {config next : Config ι (signature S Link Err Resp)
    (Network S State Link Resp) α}

/-- The response that a caller waits for is the only one on its connection, if
that is still open, and nobody else waits there. -/
structure Paired (stages : ι → Stage S Link Err Resp α)
    (conns : Link → Conn Resp) : Prop where
  pending : ∀ {i link number resp},
    (stages i).awaits = some (link, number, resp) →
    number ≤ (conns link).number ∧
      (number = (conns link).number → (conns link).unread = [resp])
  alone : ∀ {i j link number resp resp'},
    (stages i).awaits = some (link, number, resp) →
    (stages j).awaits = some (link, number, resp') →
    number = (conns link).number → i = j

/-- A run with single operations that has come to the same point, if the
callers that wait will end as `ends` says. -/
structure Matches (stages : ι → Stage S Link Err Resp α)
    (ends : ι → Option Err) (config : Config ι (signature S Link Err Resp)
      (Network S State Link Resp) α) (base : Config ι S State α) :
    Prop where
  state_eq : base.shared = config.shared.state
  threads_eq : ∀ i, base.threads i = (stages i).rest (ends i)
  log_sublist : (base.log.map Event.thread).Sublist
    (config.log.map Event.thread)

/-- What holds between the steps of a quiet run.  `P` is what is said of the
runs with single operations. -/
structure Simulated (P : Config ι S State α → Prop)
    (requests : ι → Requests S Link Err Resp)
    (rules : Rules S State Choice Env)
    (stages : ι → Stage S Link Err Resp α)
    (config : Config ι (signature S Link Err Resp)
      (Network S State Link Resp) α) : Prop where
  threads : ∀ i, config.threads i = (stages i).program (requests i)
  paired : Paired stages config.shared.conns
  runs : ∀ ends : ι → Option Err, (∀ i, (ends i).isSome = true → rules.lossy) →
    ∃ base, P base ∧ Matches stages ends config base

/-- The two configurations agree in all that the callers see. -/
structure Agrees (config : Config ι (signature S Link Err Resp)
      (Network S State Link Resp) α) (base : Config ι S State α) :
    Prop where
  state_eq : base.shared = config.shared.state
  returned : ∀ {i value}, config.threads i = .ret value →
    base.threads i = .ret value
  log_sublist : (base.log.map Event.thread).Sublist
    (config.log.map Event.thread)

theorem Simulated.agrees {P : Config ι S State α → Prop}
    {requests : ι → Requests S Link Err Resp}
    {rules : Rules S State Choice Env}
    (hsim : Simulated P requests rules stages config)
    (hmatches : Matches stages ends config base) : Agrees config base where
  state_eq := hmatches.state_eq
  returned := fun {i value} hvalue => by
    rw [hmatches.threads_eq]
    exact Stage.rest_of_ret ((hsim.threads i).symm.trans hvalue) (ends i)
  log_sublist := hmatches.log_sublist

variable [DecidableEq ι]

theorem Paired.settle (hpaired : Paired stages conns)
    {stage : Stage S Link Err Resp α} (hstage : stage.awaits = none)
    (hconns : ∀ j link number resp, j ≠ i →
      (stages j).awaits = some (link, number, resp) →
      conns' link = conns link ∨ number < (conns' link).number) :
    Paired (Function.update stages i stage) conns' := by
  have hother : ∀ {j link number resp},
      (Function.update stages i stage j).awaits = some (link, number, resp) →
      (stages j).awaits = some (link, number, resp) ∧
        (conns' link = conns link ∨ number < (conns' link).number) := by
    intro j link number resp hawaits
    by_cases hj : j = i
    · subst hj
      rw [Function.update_self, hstage] at hawaits
      contradiction
    · rw [Function.update_of_ne hj] at hawaits
      exact ⟨hawaits, hconns j link number resp hj hawaits⟩
  constructor
  · intro j link number resp hawaits
    obtain ⟨hold, hsame | hlt⟩ := hother hawaits
    · rw [hsame]
      exact hpaired.pending hold
    · exact ⟨hlt.le, fun heq => absurd heq hlt.ne⟩
  · intro j k link number resp resp' hj hk hnumber
    obtain ⟨hoj, hsame | hlt⟩ := hother hj
    · rw [hsame] at hnumber
      exact hpaired.alone hoj (hother hk).1 hnumber
    · exact absurd hnumber hlt.ne

section Connections

variable [DecidableEq Link] {stage : Stage S Link Err Resp α} {link : Link}
  {resp : Resp} (hpaired : Paired stages conns)

include hpaired

theorem Paired.close (hstage : stage.awaits = none) (link : Link) :
    Paired (Function.update stages i stage)
      (Function.update conns link ⟨(conns link).number + 1, []⟩) := by
  refine hpaired.settle hstage fun j other number resp _ hawaits => ?_
  by_cases hother : other = link
  · subst hother
    rw [Function.update_self]
    exact Or.inr (Nat.lt_succ_of_le (hpaired.pending hawaits).1)
  · exact Or.inl (Function.update_of_ne hother _ _)

theorem Paired.take
    (hawaits : (stages i).awaits = some (link, (conns link).number, resp))
    (hstage : stage.awaits = none) :
    Paired (Function.update stages i stage)
      (Function.update conns link ⟨(conns link).number, []⟩) := by
  refine hpaired.settle hstage fun j other number resp hj hother => ?_
  by_cases hlink : other = link
  · subst hlink
    rw [Function.update_self]
    refine Or.inr (lt_of_le_of_ne (hpaired.pending hother).1 fun heq => ?_)
    subst heq
    exact hj (hpaired.alone hother hawaits rfl)
  · exact Or.inl (Function.update_of_ne hlink _ _)

theorem Paired.await (hquiet : (conns link).unread = [])
    (hstage : stage.awaits = some (link, (conns link).number, resp)) :
    Paired (Function.update stages i stage)
      (Function.update conns link ⟨(conns link).number, [resp]⟩) := by
  -- The others that wait on this connection wait for one that was closed.
  have hcases : ∀ {j other number resp'},
      (Function.update stages i stage j).awaits =
        some (other, number, resp') →
      j = i ∧ (other, number, resp') = (link, (conns link).number, resp) ∨
        (stages j).awaits = some (other, number, resp') ∧
          (number = (conns other).number → other ≠ link) := by
    intro j other number resp' hawaits
    by_cases hj : j = i
    · subst hj
      rw [Function.update_self, hstage, Option.some.injEq] at hawaits
      exact Or.inl ⟨rfl, hawaits.symm⟩
    · rw [Function.update_of_ne hj] at hawaits
      refine Or.inr ⟨hawaits, ?_⟩
      rintro heq rfl
      rw [(hpaired.pending hawaits).2 heq] at hquiet
      contradiction
  have hnumber : ∀ other, (Function.update conns link
      ⟨(conns link).number, [resp]⟩ other).number = (conns other).number := by
    intro other
    by_cases hother : other = link
    · rw [hother, Function.update_self]
    · rw [Function.update_of_ne hother]
  constructor
  · intro j other number resp' hawaits
    rw [hnumber]
    rcases hcases hawaits with ⟨_, heq⟩ | ⟨hold, hne⟩
    · cases heq
      exact ⟨le_rfl, fun _ => by rw [Function.update_self]⟩
    · refine ⟨(hpaired.pending hold).1, fun heq => ?_⟩
      rw [Function.update_of_ne (hne heq)]
      exact (hpaired.pending hold).2 heq
  · intro j k other number resp' resp'' hj hk heq
    rw [hnumber] at heq
    rcases hcases hj with ⟨rfl, hown⟩ | ⟨holdj, hnej⟩
    · rcases hcases hk with ⟨rfl, _⟩ | ⟨_, hnek⟩
      · rfl
      · exact absurd (congrArg Prod.fst hown) (hnek heq)
    · rcases hcases hk with ⟨_, hown⟩ | ⟨holdk, _⟩
      · exact absurd (congrArg Prod.fst hown) (hnej heq)
      · exact hpaired.alone holdj holdk heq

end Connections

section Steps

variable {respond : State → S.Op → Choice → Option Resp}
  {requests : ι → Requests S Link Err Resp} {lost : Choice → Err → Choice}
  {rules : Rules S State Choice Env}
  {ok : Config ι S State α → Label ι Choice Env → Prop}
  {P : Config ι S State α → Prop}
  (hserves : Serves M respond requests lost rules ok)
  (hclosed : ∀ {base base' : Config ι S State α} {label}, P base →
    ok base label → base.step M label = some base' → P base')
  (hsim : Simulated P requests rules stages config)

section Base

variable {ends : ι → Option Err}
  (hends : ∀ i, (ends i).isSome = true → rules.lossy)
  {event : Event ι (signature S Link Err Resp)}
  (hlog : next.log = config.log ++ [event])

include hsim hends hlog

/-- A caller reads its response, or loses it. -/
theorem Simulated.settle {stage : Stage S Link Err Resp α}
    (ended : Option Err) (hended : ended.isSome = true → rules.lossy)
    (hstate : next.shared.state = config.shared.state)
    (hrest : stage.rest (ends i) = (stages i).rest ended) :
    ∃ base, P base ∧
      Matches (Function.update stages i stage) ends next base := by
  have hlossy : ∀ j, (Function.update ends i ended j).isSome = true →
      rules.lossy := by
    intro j hj
    by_cases hji : j = i
    · subst hji
      rw [Function.update_self] at hj
      exact hended hj
    · rw [Function.update_of_ne hji] at hj
      exact hends j hj
  obtain ⟨base, hP, hmatches⟩ := hsim.runs _ hlossy
  refine ⟨base, hP, hmatches.state_eq.trans hstate.symm, fun j => ?_, ?_⟩
  · rw [hmatches.threads_eq]
    by_cases hj : j = i
    · subst hj
      simp only [Function.update_self, hrest]
    · simp only [Function.update_of_ne hj]
  · rw [hlog, List.map_append]
    exact hmatches.log_sublist.trans (List.sublist_append_left _ _)

variable {op : S.Op} {rest : S.Answer op → Prog S α} {choice : Choice}
  {answer : S.Answer op} (hevent : event.thread = i)
  (hstage : stages i = .resting (.act op rest))
  (hperform : rules.perform config.shared.state op choice)
  (hexec : M.exec config.shared.state op choice =
    some (answer, next.shared.state))

include hserves hclosed hevent hstage hperform hexec

theorem Simulated.perform {stage : Stage S Link Err Resp α}
    (hrest : stage.rest (ends i) = rest answer) :
    ∃ base, P base ∧
      Matches (Function.update stages i stage) ends next base := by
  obtain ⟨base, hP, hmatches⟩ := hsim.runs ends hends
  have hthread : base.threads i = .act op rest := by
    rw [hmatches.threads_eq, hstage]
    rfl
  rw [← hmatches.state_eq] at hperform hexec
  refine ⟨⟨next.shared.state, Function.update base.threads i (rest answer),
    base.log ++ [⟨i, op, answer⟩]⟩, hclosed hP
    (hserves.thread_ok hthread hperform)
    (by simp [Config.step, hthread, hexec]), rfl, fun j => ?_, ?_⟩
  · by_cases hj : j = i
    · subst hj
      simp only [Function.update_self, hrest]
    · simp only [Function.update_of_ne hj, hmatches.threads_eq]
  · simp only [hlog, List.map_append, List.map_singleton, hevent]
    exact hmatches.log_sublist.append (List.Sublist.refl _)

/-- The request has failed already, if its response will be lost. -/
theorem Simulated.perform_send
    {request : Request Link Err Resp (S.Answer op)} {resp : Resp}
    (hsend : requests i op = some request)
    (hrespond : respond config.shared.state op choice = some resp)
    (number : ℕ) :
    ∃ base, P base ∧ Matches (Function.update stages i
      (.waiting op request number resp rest)) ends next base := by
  cases hend : ends i with
  | none =>
    refine hsim.perform hserves hclosed hends hlog hevent hstage hperform
      hexec ?_
    rw [hend, hserves.answered hsend hrespond hexec]
    rfl
  | some error =>
    have hlossy : rules.lossy := hends i (by rw [hend]; rfl)
    refine hsim.perform hserves hclosed hends hlog hevent hstage
      (hserves.perform_lost hlossy hperform error)
      (hserves.unanswered hsend hrespond hexec error) ?_
    rw [hend]
    rfl

end Base

include hserves hclosed hsim

variable [DecidableEq Link]

theorem Simulated.step_thread {turn : Turn Choice Err}
    (hquiet : QuietStep rules config.shared turn (config.threads i))
    (hstep : config.step (machine M respond) (.thread i turn) = some next) :
    ∃ stages', Simulated P requests rules stages' next := by
  obtain ⟨op, continuation, answer, hthread, hexec, hthreads, hlog⟩ :=
    Config.step_thread_cases hstep
  rw [hthread] at hquiet
  -- Every other caller is where it was.
  have hall : ∀ stage : Stage S Link Err Resp α,
      continuation answer = stage.program (requests i) → ∀ j,
      next.threads j =
        (Function.update stages i stage j).program (requests j) := by
    intro stage hstage j
    rw [hthreads]
    by_cases hj : j = i
    · subst hj
      simp only [Function.update_self, hstage]
    · simp only [Function.update_of_ne hj, hsim.threads]
  generalize hown : stages i = own at *
  have hacts : Stage.Acts (requests i) own op continuation :=
    Stage.acts_of_program (hown ▸ (hsim.threads i).symm.trans hthread)
  cases hacts with
  | @direct op rest hdirect =>
    obtain ⟨hbase, hconns⟩ := exec_direct hexec
    refine ⟨_, hall (.resting (rest answer)) rfl, ?_,
      fun ends hends => ?_⟩
    · exact hsim.paired.settle rfl fun _ _ _ _ _ _ =>
        Or.inl (congrFun hconns _)
    · exact hsim.perform hserves hclosed hends hlog rfl hown hquiet hbase rfl
  | @send op request rest hsend =>
    obtain ⟨hperform, hunread⟩ := hquiet
    obtain ⟨own, hbase, ⟨resp, hrespond, rfl, hconns⟩ | ⟨rfl, hconns⟩⟩ :=
      exec_send hexec
    · -- The response is on the connection.
      refine ⟨_, hall (.waiting op request
        (config.shared.conns request.link).number resp rest) rfl, ?_,
        fun ends hends => ?_⟩
      · rw [hconns, Network.arrive, hunread]
        exact hsim.paired.await hunread rfl
      · exact hsim.perform_send hserves hclosed hends hlog rfl hown hperform
          hbase hsend hrespond _
    · refine ⟨_, hall (.resting (rest own)) rfl, ?_,
        fun ends hends => ?_⟩
      · rw [hconns]
        exact hsim.paired.close rfl request.link
      · exact hsim.perform hserves hclosed hends hlog rfl hown hperform hbase
          rfl
  | receive op request number resp rest =>
    have hawaits : (stages i).awaits = some (request.link, number, resp) := by
      rw [hown]
      rfl
    obtain ⟨hstate, ⟨error, herror, rfl, hconns⟩ |
      ⟨first, others, hfirst, rfl, rfl, hconns⟩⟩ := exec_receive hexec
    · refine ⟨_, hall (.resting (rest (request.failed error))) rfl,
        ?_, fun ends hends => ?_⟩
      · rw [hconns]
        exact hsim.paired.close rfl request.link
      · refine hsim.settle hends hlog (some error)
          (fun _ => hquiet (by rw [herror]; rfl)) hstate ?_
        rw [hown]
        rfl
    · -- It is the response to the caller's own request.
      have hunread := (hsim.paired.pending hawaits).2 rfl
      rw [hfirst, List.cons.injEq] at hunread
      obtain ⟨rfl, rfl⟩ := hunread
      refine ⟨_, hall (.resting (rest (request.read first))) rfl,
        ?_, fun ends hends => ?_⟩
      · rw [hconns]
        exact hsim.paired.take hawaits rfl
      · refine hsim.settle hends hlog none (by simp) hstate ?_
        rw [hown]
        rfl

theorem Simulated.step
    {label : Label ι (Turn Choice Err) (NetworkEvent Choice Env)}
    (hquiet : Quiet rules config label)
    (hstep : config.step (machine M respond) label = some next) :
    ∃ stages', Simulated P requests rules stages' next := by
  cases label with
  | thread i turn => exact hsim.step_thread hserves hclosed hquiet hstep
  | env event =>
    obtain ⟨henv, hthreads, hlog⟩ := Config.step_env_cases hstep
    cases event with
    | late position choice => exact hquiet.elim
    | base event =>
      obtain ⟨state, hbase, hshared⟩ := Option.map_eq_some_iff.mp henv
      refine ⟨stages, fun i => ?_, ?_, fun ends hends => ?_⟩
      · rw [hthreads, hsim.threads]
      · rw [← hshared]
        exact hsim.paired
      · obtain ⟨base, hP, hmatches⟩ := hsim.runs ends hends
        rw [← hmatches.state_eq] at hbase
        have hok : ok base (.env event) :=
          hserves.env_ok (hmatches.state_eq ▸ hquiet)
        refine ⟨⟨state, base.threads, base.log⟩,
          hclosed hP hok (by simp [Config.step, hbase]), ?_, ?_, ?_⟩
        · rw [← hshared]
        · exact hmatches.threads_eq
        · rw [hlog]
          exact hmatches.log_sublist

theorem Simulated.run
    (hreach : Config.Reaches (machine M respond) (Quiet rules) config next) :
    ∃ stages', Simulated P requests rules stages' next :=
  hreach.invariant
    (fun config => ∃ stages, Simulated P requests rules stages config)
    ⟨stages, hsim⟩ fun _ _ _ ⟨_, hsim⟩ hquiet hstep =>
      hsim.step hserves hclosed hquiet hstep

end Steps

section Runs

variable {respond : State → S.Op → Choice → Option Resp}
  {requests : ι → Requests S Link Err Resp} {lost : Choice → Err → Choice}
  {rules : Rules S State Choice Env}
  {ok : Config ι S State α → Label ι Choice Env → Prop}
  {state : State} {programs : ι → Prog S α}

theorem simulated_start :
    Simulated (Config.Reaches M ok (Config.start state programs)) requests
      rules (fun i => .resting (programs i))
      (Config.start (Network.start state)
        fun i => overConnections (requests i) (programs i)) where
  threads := fun _ => rfl
  paired := ⟨by simp [Stage.awaits], by simp [Stage.awaits]⟩
  runs := fun _ _ => ⟨_, .refl, rfl, fun _ => rfl, List.Sublist.refl _⟩

variable [DecidableEq Link]
  (hserves : Serves M respond requests lost rules ok)

include hserves

/-- What the callers see at two points of a quiet run, they see in a run with
single operations, which is chosen for the second point. -/
theorem exists_runs
    (hreach : Config.Reaches (machine M respond) (Quiet rules)
      (Config.start (Network.start state)
        fun i => overConnections (requests i) (programs i)) config)
    (hmore : Config.Reaches (machine M respond) (Quiet rules) config next) :
    ∃ base base', Config.Reaches M ok (Config.start state programs) base ∧
      Agrees config base ∧ Config.Reaches M ok base base' ∧
      Agrees next base' := by
  obtain ⟨stages, hsim⟩ := simulated_start.run hserves
    (fun hbase hok hstep => hbase.tail ⟨_, hok, hstep⟩) hreach
  have hpassed : Simulated (fun base' => ∃ base,
      Config.Reaches M ok (Config.start state programs) base ∧
        Agrees config base ∧ Config.Reaches M ok base base')
      requests rules stages config := by
    refine ⟨hsim.threads, hsim.paired, fun ends hends => ?_⟩
    obtain ⟨base, hbase, hmatches⟩ := hsim.runs ends hends
    exact ⟨base, ⟨base, hbase, hsim.agrees hmatches, .refl⟩, hmatches⟩
  obtain ⟨stages', hsim'⟩ := hpassed.run hserves
    (fun ⟨base, hbase, hagrees, hrest⟩ hok hstep =>
      ⟨base, hbase, hagrees, hrest.tail ⟨_, hok, hstep⟩⟩) hmore
  obtain ⟨base', ⟨base, hbase, hagrees, hrest⟩, hmatches⟩ :=
    hsim'.runs (fun _ => none) (by simp)
  exact ⟨base, base', hbase, hagrees, hrest, hsim'.agrees hmatches⟩

theorem exists_run
    (hreach : Config.Reaches (machine M respond) (Quiet rules)
      (Config.start (Network.start state)
        fun i => overConnections (requests i) (programs i)) config) :
    ∃ base, Config.Reaches M ok (Config.start state programs) base ∧
      Agrees config base := by
  obtain ⟨base, _, hbase, hagrees, _⟩ := exists_runs hserves hreach .refl
  exact ⟨base, hbase, hagrees⟩

end Runs

end Simulation

end PooledConnections
