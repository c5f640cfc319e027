import CacheGrid.GoValues
import CacheGrid.InterleavedPrograms

/-!
# The RPC transport

`internal/transport/rpc.go`.  All callers of an address share one pooled
connection.  A call writes its request and reads the next response from the
connection; the server answers the requests of a connection one by one.
Messages travel whole and in order, in one queue for each direction.

Every message carries the number of the call that sent it.  The numbers are
history: the source has no such field, and no operation reads them.  The
deadline a call sets on the connection shows as a write or a read that may
fail at any time, by the scheduler's choice.
-/

namespace CacheGrid

open InterleavedPrograms

namespace Transport

/-! ## The wire format and the server's switch -/

structure Request where
  op : UInt8
  key : GoString := []
  keys : List GoString := []
  value : Bytes := []
  ttl : Duration := 0
  tags : List GoString := []
  delta : Int64 := 0
  token : GoString := []
  deriving DecidableEq

structure Response where
  value : Bytes := []
  values : List (GoString × Bytes) := []
  found : Bool := false
  ok : Bool := false
  intVal : Int64 := 0
  token : GoString := []
  fencingToken : UInt64 := 0
  acquired : Bool := false
  error : GoString := []
  deriving DecidableEq

/-- The methods of a server, on a state of type `σ`. -/
structure LocalHandler (σ : Type) where
  handleGet : GoString → σ → (Bytes × Bool) × σ
  handleSet : GoString → Bytes → Duration → List GoString → σ → σ
  handleDelete : GoString → σ → Bool × σ
  handleExists : GoString → σ → Bool × σ
  handleMGet : List GoString → σ → List (GoString × Bytes) × σ
  handleIncr : GoString → Int64 → σ → (Int64 × Option GoString) × σ
  handleLockAcquire : GoString → Duration → σ →
    (GoString × UInt64 × Bool) × σ
  handleLockRelease : GoString → GoString → σ → Bool × σ
  handleLockExtend : GoString → GoString → Duration → σ → Bool × σ

def opGet : UInt8 := 1
def opSet : UInt8 := 2
def opDelete : UInt8 := 3
def opExists : UInt8 := 4
def opMGet : UInt8 := 5
def opIncr : UInt8 := 6
def opLockAcquire : UInt8 := 7
def opLockRelease : UInt8 := 8
def opLockExtend : UInt8 := 9

def processRequest {σ : Type} (handler : LocalHandler σ) (req : Request)
    (state : σ) : Response × σ :=
  if req.op = opGet then
    let r := handler.handleGet req.key state
    ({ value := r.1.1, found := r.1.2 }, r.2)
  else if req.op = opSet then
    ({ ok := true },
      handler.handleSet req.key req.value req.ttl req.tags state)
  else if req.op = opDelete then
    let r := handler.handleDelete req.key state
    ({ ok := r.1 }, r.2)
  else if req.op = opExists then
    let r := handler.handleExists req.key state
    ({ ok := r.1 }, r.2)
  else if req.op = opMGet then
    let r := handler.handleMGet req.keys state
    ({ values := r.1 }, r.2)
  else if req.op = opIncr then
    let r := handler.handleIncr req.key req.delta state
    ({ intVal := r.1.1, error := r.1.2.getD [] }, r.2)
  else if req.op = opLockAcquire then
    let r := handler.handleLockAcquire req.key req.ttl state
    ({ token := r.1.1, fencingToken := r.1.2.1, acquired := r.1.2.2 }, r.2)
  else if req.op = opLockRelease then
    let r := handler.handleLockRelease req.key req.token state
    ({ ok := r.1 }, r.2)
  else if req.op = opLockExtend then
    let r := handler.handleLockExtend req.key req.token req.ttl state
    ({ ok := r.1 }, r.2)
  else ({ error := ascii "unknown operation" }, state)

/-- What every method of the handler leads to, a request leads to. -/
theorem processRequest_state {σ : Type} {handler : LocalHandler σ}
    {req : Request} {state : σ} (P : σ → Prop)
    (hget : req.op = opGet → P (handler.handleGet req.key state).2)
    (hset : req.op = opSet →
      P (handler.handleSet req.key req.value req.ttl req.tags state))
    (hdelete : req.op = opDelete → P (handler.handleDelete req.key state).2)
    (hexists : req.op = opExists → P (handler.handleExists req.key state).2)
    (hmget : req.op = opMGet → P (handler.handleMGet req.keys state).2)
    (hincr : req.op = opIncr →
      P (handler.handleIncr req.key req.delta state).2)
    (hacquire : P (handler.handleLockAcquire req.key req.ttl state).2)
    (hrelease : P (handler.handleLockRelease req.key req.token state).2)
    (hextend :
      P (handler.handleLockExtend req.key req.token req.ttl state).2)
    (hunknown : P state) : P (processRequest handler req state).2 := by
  unfold processRequest
  by_cases hop : req.op = opGet
  · rw [if_pos hop]
    exact hget hop
  rw [if_neg hop]
  by_cases hop : req.op = opSet
  · rw [if_pos hop]
    exact hset hop
  rw [if_neg hop]
  by_cases hop : req.op = opDelete
  · rw [if_pos hop]
    exact hdelete hop
  rw [if_neg hop]
  by_cases hop : req.op = opExists
  · rw [if_pos hop]
    exact hexists hop
  rw [if_neg hop]
  by_cases hop : req.op = opMGet
  · rw [if_pos hop]
    exact hmget hop
  rw [if_neg hop]
  by_cases hop : req.op = opIncr
  · rw [if_pos hop]
    exact hincr hop
  rw [if_neg hop]
  by_cases hop : req.op = opLockAcquire
  · rw [if_pos hop]
    exact hacquire
  rw [if_neg hop]
  by_cases hop : req.op = opLockRelease
  · rw [if_pos hop]
    exact hrelease
  rw [if_neg hop]
  by_cases hop : req.op = opLockExtend
  · rw [if_pos hop]
    exact hextend
  rw [if_neg hop]
  exact hunknown

/-! ## Connections -/

variable {τ σ : Type}

inductive Handling (τ : Type) where
  | decoding
  | processing (tag : τ) (req : Request)
  | encoding (tag : τ) (resp : Response)
  | returned

structure Conn (τ : Type) where
  addr : GoString
  /-- Closed by the client. -/
  closed : Bool
  requests : List (τ × Request)
  handling : Handling τ
  responses : List (τ × Response)

/-- The transport of a client, its connections, and the servers behind the
addresses.  `served` records what `processRequest` has produced. -/
structure Network (τ σ : Type) where
  pool : AList fun _ : GoString => ℕ
  conns : List (Conn τ)
  servers : GoString → σ
  served : List (τ × Request × Response)

def Network.new (servers : GoString → σ) : Network τ σ := ⟨∅, [], servers, []⟩

/-! ## Operations of a call -/

inductive Op (τ : Type) where
  | lookup (addr : GoString)
  | dial (addr : GoString)
  | insert (addr : GoString) (conn : ℕ)
  | close (conn : ℕ)
  | encode (conn : ℕ) (tag : τ) (req : Request)
  | decode (conn : ℕ)
  | closeConn (addr : GoString)

abbrev Op.Answer : Op τ → Type
  | .lookup _ => Option ℕ
  | .dial _ => Except GoString ℕ
  | .insert _ _ => Option ℕ
  | .close _ => Unit
  | .encode _ _ _ => Except GoString Unit
  | .decode _ => Except GoString Response
  | .closeConn _ => Unit

abbrev signature (τ : Type) : Signature := ⟨Op τ, Op.Answer⟩

abbrev Program (τ α : Type) := Prog (signature τ) α

abbrev perform (op : Op τ) : Program τ op.Answer :=
  Prog.perform (S := signature τ) op

inductive Outcome where
  | succeeds
  | fails (error : GoString)

namespace Network

def modifyConn (s : Network τ σ) (c : ℕ) (change : Conn τ → Conn τ) :
    Network τ σ :=
  { s with conns := s.conns.modify c change }

def closeConnAt (s : Network τ σ) (c : ℕ) : Network τ σ :=
  s.modifyConn c fun conn => { conn with closed := true }

def closeConn (s : Network τ σ) (addr : GoString) : Network τ σ :=
  match s.pool.lookup addr with
  | none => s
  | some c => { s.closeConnAt c with pool := s.pool.erase addr }

def exec (s : Network τ σ) :
    (op : Op τ) → Outcome → Option (op.Answer × Network τ σ)
  | .lookup addr, _ => some (s.pool.lookup addr, s)
  | .dial addr, .succeeds => some (.ok s.conns.length,
      { s with conns := s.conns ++ [⟨addr, false, [], .decoding, []⟩] })
  | .dial _, .fails error => some (.error error, s)
  | .insert addr conn, _ =>
    match s.pool.lookup addr with
    | some existing => some (some existing, s)
    | none => some (none, { s with pool := s.pool.insert addr conn })
  | .close conn, _ => some ((), s.closeConnAt conn)
  | .encode c tag req, .succeeds =>
    match s.conns[c]? with
    | none => none
    | some conn =>
      if conn.closed then none
      else some (.ok (), s.modifyConn c fun conn =>
        { conn with requests := conn.requests ++ [(tag, req)] })
  | .encode _ _ _, .fails error => some (.error error, s)
  | .decode c, .succeeds =>
    match s.conns[c]? with
    | none => none
    | some conn =>
      match conn.closed, conn.responses with
      | false, (_, resp) :: rest => some (.ok resp,
          s.modifyConn c fun conn => { conn with responses := rest })
      | _, _ => none
  | .decode _, .fails error => some (.error error, s)
  | .closeConn addr, _ => some ((), s.closeConn addr)

end Network

/-! ## The servers and the rest of the world -/

inductive Env (σ : Type) where
  /-- One step of the `handleConn` loop of a connection. -/
  | serve (conn : ℕ) (outcome : Outcome)
  /-- Whatever else happens at a server. -/
  | change (addr : GoString) (state : σ)
  /-- `CloseConnection`, when a node leaves. -/
  | closeConnection (addr : GoString)

namespace Network

/-- One step of `handleConn`: decode, process or encode. -/
def serve (handler : LocalHandler σ) (s : Network τ σ) (c : ℕ)
    (outcome : Outcome) : Option (Network τ σ) :=
  match s.conns[c]? with
  | none => none
  | some conn =>
    match conn.handling, outcome with
    | .decoding, .succeeds =>
      match conn.requests with
      | [] => none
      | (tag, req) :: rest => some (s.modifyConn c fun conn =>
        { conn with requests := rest, handling := .processing tag req })
    | .decoding, .fails _ => some (s.modifyConn c fun conn =>
      { conn with handling := .returned })
    | .processing tag req, _ =>
      let r := processRequest handler req (s.servers conn.addr)
      some { s.modifyConn c fun conn =>
          { conn with handling := .encoding tag r.1 } with
        servers := Function.update s.servers conn.addr r.2
        served := s.served ++ [(tag, req, r.1)] }
    | .encoding tag resp, .succeeds => some (s.modifyConn c fun conn =>
      { conn with
        responses := conn.responses ++ [(tag, resp)]
        handling := .decoding })
    | .encoding _ _, .fails _ => some (s.modifyConn c fun conn =>
      { conn with handling := .returned })
    | .returned, _ => none

def envStep (handler : LocalHandler σ) (s : Network τ σ) :
    Env σ → Option (Network τ σ)
  | .serve conn outcome => s.serve handler conn outcome
  | .change addr state =>
    some { s with servers := Function.update s.servers addr state }
  | .closeConnection addr => some (s.closeConn addr)

end Network

def machine (handler : LocalHandler σ) :
    Semantics (signature τ) (Network τ σ) Outcome (Env σ) where
  exec := Network.exec
  env := Network.envStep handler

/-! ## The calls -/

/-- The error of a failed RPC, from the text the server sent. -/
def remoteError (addr text : GoString) : GoString :=
  ascii "transport: remote error from " ++ addr ++ ascii ": " ++ text

/-- The end of `call`, when a response has arrived. -/
def checkResponse (addr : GoString) (resp : Response) :
    Except GoString Response :=
  if resp.error ≠ [] then .error (remoteError addr resp.error) else .ok resp

def getConn (addr : GoString) : Program τ (Except GoString ℕ) := do
  match ← perform (.lookup addr) with
  | some conn => pure (.ok conn)
  | none =>
    match ← perform (.dial addr) with
    | .error error => pure (.error error)
    | .ok conn =>
      match ← perform (.insert addr conn) with
      | none => pure (.ok conn)
      | some existing => do
        let _ ← perform (.close conn)
        pure (.ok existing)

def call (tag : τ) (addr : GoString) (req : Request) :
    Program τ (Except GoString Response) := do
  match ← getConn addr with
  | .error error =>
    pure (.error (ascii "transport: dial " ++ addr ++ ascii ": " ++ error))
  | .ok conn =>
    match ← perform (.encode conn tag req) with
    | .error error => do
      let _ ← perform (.closeConn addr)
      pure (.error (ascii "transport: encode to " ++ addr ++ ascii ": " ++
        error))
    | .ok () =>
      match ← perform (.decode conn) with
      | .error error => do
        let _ ← perform (.closeConn addr)
        pure (.error (ascii "transport: decode from " ++ addr ++
          ascii ": " ++ error))
      | .ok resp => pure (checkResponse addr resp)

end Transport

end CacheGrid
