import CacheGrid.ClusterLocks

/-!
# The HTTP lock endpoints

`internal/server/handler_lock.go`.  A POST returns the fencing number of the
new lock as its token, while DELETE and PUT hand the X-Lock-Token header to
the engine, which compares it with the random hexadecimal token of the entry.
The two never agree.

A request is given as the standard library delivers it: the path value, the
header, and the decoded JSON body (`none` if decoding fails).  The duration
parser is a parameter, zero on an error, as the handlers ignore the error.
-/

namespace CacheGrid

open InterleavedPrograms

inductive JsonValue where
  | bool (b : Bool)
  | number (n : ℕ)
  | string (s : GoString)
  deriving DecidableEq

structure Response where
  status : ℕ
  fields : List (GoString × JsonValue)
  deriving DecidableEq

def writeJSON (status : ℕ) (fields : List (GoString × JsonValue)) :
    Response :=
  ⟨status, fields⟩

def writeError (status : ℕ) (msg : GoString) : Response :=
  writeJSON status [(ascii "error", .string msg)]

structure AcquireBody where
  ttl : GoString
  retryCount : ℤ
  retryDelay : GoString

structure ExtendBody where
  ttl : GoString

inductive LockRequest where
  | post (key : GoString) (body : Option AcquireBody)
  | delete (key token : GoString)
  | put (key token : GoString) (body : Option ExtendBody)

/-- `if ttl <= 0 { ttl = 30 * time.Second }`. -/
def ttlOrDefault (ttl : Duration) : Duration :=
  if ttl ≤ 0 then 30000000000 else ttl

def acquiredResponse (token : UInt64) : Response :=
  writeJSON 200 [(ascii "acquired", .bool true),
    (ascii "token", .number token.toNat),
    (ascii "fencing_token", .number token.toNat)]

def notHeldResponse (action : GoString) : Response :=
  writeJSON 409 [(action, .bool false),
    (ascii "error", .string (ascii "lock not held or expired"))]

section Handlers

variable (parseDuration : GoString → Duration) (c : ℕ)

open Cluster

def handleLockAcquire (key : GoString) (body : Option AcquireBody) :
    Program Response :=
  if key = [] then pure (writeError 400 (ascii "key is required"))
  else
    match body with
    | none => pure (writeError 400 (ascii "invalid JSON body"))
    | some req => do
      let ttl := ttlOrDefault (parseDuration req.ttl)
      let retryDelay := parseDuration req.retryDelay
      match ← lock c key ⟨ttl, req.retryCount, retryDelay⟩ with
      | .ok handle => pure (acquiredResponse handle.Token)
      | .error .lockNotAcquired => pure (writeJSON 409
          [(ascii "acquired", .bool false),
            (ascii "error", .string LockError.lockNotAcquired.text)])
      | .error err => pure (writeError 500 err.text)

def handleLockRelease (key token : GoString) : Program Response :=
  if key = [] then pure (writeError 400 (ascii "key is required"))
  else if token = [] then
    pure (writeError 400 (ascii "X-Lock-Token header is required"))
  else do
    let released ← perform (.engineRelease c (lockKeyOf key) token)
    if released then pure (writeJSON 200 [(ascii "released", .bool true)])
    else pure (notHeldResponse (ascii "released"))

def handleLockExtend (key token : GoString) (body : Option ExtendBody) :
    Program Response :=
  if key = [] then pure (writeError 400 (ascii "key is required"))
  else if token = [] then
    pure (writeError 400 (ascii "X-Lock-Token header is required"))
  else
    match body with
    | none => pure (writeError 400 (ascii "invalid JSON body"))
    | some req => do
      let ttl := ttlOrDefault (parseDuration req.ttl)
      let extended ← perform (.engineExtend c (lockKeyOf key) token ttl)
      if extended then pure (writeJSON 200 [(ascii "extended", .bool true)])
      else pure (notHeldResponse (ascii "extended"))

def LockRequest.program : LockRequest → Program Response
  | .post key body => handleLockAcquire parseDuration c key body
  | .delete key token => handleLockRelease c key token
  | .put key token body => handleLockExtend parseDuration c key token body

end Handlers

/-! ## Tokens in the engines -/

namespace Lock

theorem hexEncode_length (bytes : Bytes) :
    (hexEncode bytes).length = 2 * bytes.length := by
  induction bytes with
  | nil => rfl
  | cons byte bytes ih =>
    simp only [hexEncode, List.flatMap_cons, List.length_append] at ih ⊢
    simp only [ih, List.length_cons, List.length_nil]
    omega

theorem generateToken_length (random : Fin 16 → UInt8) :
    (generateToken random).length = 32 := by
  simp [generateToken, hexEncode_length]

/-- Every entry carries a token of 32 hexadecimal digits. -/
def Engine.LongTokens (e : Engine) : Prop :=
  ∀ key entry, e.locks.lookup key = some entry → entry.token.length = 32

theorem Engine.longTokens_new : Engine.new.LongTokens := by
  intro key entry hentry
  simp [Engine.new] at hentry

theorem Engine.LongTokens.insert {e : Engine} (hlong : e.LongTokens)
    {key : GoString} {entry : Entry} (hentry : entry.token.length = 32)
    (seq : UInt64) : Engine.LongTokens ⟨e.locks.insert key entry, seq⟩ := by
  intro other found hfound
  by_cases hkey : other = key
  · subst hkey
    simp only [AList.lookup_insert, Option.some.injEq] at hfound
    rw [← hfound]
    exact hentry
  · exact hlong other found (by simpa [AList.lookup_insert_ne hkey] using hfound)

theorem Engine.LongTokens.acquire {e : Engine} (hlong : e.LongTokens)
    (clock : Readings) (key : GoString) (ttl : Duration) (owner : GoString)
    (random : Fin 16 → UInt8) :
    (e.acquire clock key ttl owner random).2.LongTokens := by
  rcases e.acquire_cases clock key ttl owner random with
    hrefused | ⟨_, hgranted⟩
  · rw [hrefused]
    exact hlong
  · rw [hgranted]
    exact hlong.insert (generateToken_length random) _

theorem Engine.LongTokens.release {e : Engine} (hlong : e.LongTokens)
    (key token : GoString) : (e.release key token).2.LongTokens := by
  rcases e.release_cases key token with hrefused | ⟨_, _, _, hreleased⟩
  · rw [hrefused]
    exact hlong
  · rw [hreleased]
    intro other found hfound
    by_cases hkey : other = key
    · subst hkey
      simp at hfound
    · exact hlong other found (by simpa [AList.lookup_erase_ne hkey] using hfound)

theorem Engine.LongTokens.extend {e : Engine} (hlong : e.LongTokens)
    (clock : Readings) (key token : GoString) (ttl : Duration) :
    (e.extend clock key token ttl).2.LongTokens := by
  rcases e.extend_cases clock key token ttl with
    hrefused | ⟨entry, hentry, _, _, hextended⟩
  · rw [hrefused]
    exact hlong
  · rw [hextended]
    apply hlong.insert
    exact hlong key entry hentry

theorem Engine.LongTokens.cleanup {e : Engine} (hlong : e.LongTokens)
    (clock : Readings) (visit : GoString → ℕ) :
    (e.cleanup clock visit).LongTokens := by
  intro key entry hentry
  rcases e.cleanup_lookup clock visit key with hsame | ⟨hnone, _⟩
  · exact hlong key entry (hsame ▸ hentry)
  · rw [hnone] at hentry
    contradiction

theorem Engine.LongTokens.step {e : Engine} (hlong : e.LongTokens)
    (call : Readings × Op) : (e.step call).2.LongTokens := by
  obtain ⟨clock, op⟩ := call
  cases op with
  | acquire key ttl owner random => exact hlong.acquire clock key ttl owner random
  | release key token => exact hlong.release key token
  | extend key token ttl => exact hlong.extend clock key token ttl
  | cleanup visit => exact hlong.cleanup clock visit

theorem Engine.LongTokens.refuses_short {e : Engine} (hlong : e.LongTokens)
    {token : GoString} (hshort : token.length < 32) (clock : Readings)
    (key : GoString) (ttl : Duration) :
    e.release key token = (false, e) ∧
      e.extend clock key token ttl = (false, e) := by
  refine refuses_other (fun entry hentry htoken => ?_) clock ttl
  have hlength := hlong key entry hentry
  rw [htoken] at hlength
  omega

end Lock

namespace Cluster

/-- At least `n` caches run, and all entries carry long tokens. -/
structure LongTokens (n : ℕ) (s : Cluster) : Prop where
  started : n ≤ s.caches.length
  tokens : ∀ cache ∈ s.caches, cache.lockEngine.LongTokens

variable {n : ℕ} {s after : Cluster}

theorem LongTokens.set (hlong : s.LongTokens n) {c : ℕ}
    {changed : Cache} (hchanged : changed.lockEngine.LongTokens)
    (grants : List Grant) :
    LongTokens n ⟨s.caches.set c changed, grants⟩ := by
  constructor
  · rw [List.length_set]
    exact hlong.started
  · intro cache hcache
    rcases List.mem_or_eq_of_mem_set hcache with hold | rfl
    · exact hlong.tokens cache hold
    · exact hchanged

theorem LongTokens.runEngine (hlong : s.LongTokens n) {c : ℕ} {cache : Cache}
    (hcache : s.caches[c]? = some cache) (call : Readings × Lock.Op) :
    (s.runEngine c cache call).LongTokens n := by
  apply hlong.set
  exact (hlong.tokens cache (List.mem_of_getElem? hcache)).step call

theorem LongTokens.exec (hlong : s.LongTokens n) {op : Op} {choice : Choice}
    {answer : op.Answer} (hexec : s.exec op choice = some (answer, after)) :
    after.LongTokens n := by
  rcases exec_cases hexec with ⟨_, rfl⟩ | ⟨c, cache, call, hcache, rfl, _⟩
  · exact hlong
  · exact hlong.runEngine hcache call

theorem LongTokens.envStep (hlong : s.LongTokens n) {event : Env}
    (hstep : s.envStep event = some after) : after.LongTokens n := by
  rcases envStep_cases hstep with ⟨fresh, rfl, hfresh⟩ |
    ⟨c, cache, changed, hcache, rfl, hengine⟩ |
    ⟨c, cache, clock, visit, hcache, rfl⟩
  · constructor
    · rw [List.length_append]
      exact hlong.started.trans (Nat.le_add_right _ _)
    · intro cache hcache
      rcases List.mem_append.mp hcache with hold | hnew
      · exact hlong.tokens cache hold
      · rw [List.mem_singleton] at hnew
        rw [hnew, hfresh]
        exact Lock.Engine.longTokens_new
  · apply hlong.set
    rw [hengine]
    exact hlong.tokens cache (List.mem_of_getElem? hcache)
  · exact hlong.runEngine hcache _

def singleNode : Cluster := ⟨[.newLocal], []⟩

theorem reaches_longTokens {ι : Type} [DecidableEq ι] {α : Type}
    {ok : Config ι signature Cluster α → Label ι Choice Env → Prop}
    {threads : ι → Program α} {config : Config ι signature Cluster α}
    (hreach : Config.Reaches machine ok (Config.start singleNode threads)
      config) :
    config.shared.LongTokens 1 := by
  refine hreach.invariant (fun config => config.shared.LongTokens 1) ?_ ?_
  · refine ⟨le_refl 1, ?_⟩
    intro cache hcache
    rw [Config.start, singleNode, List.mem_singleton] at hcache
    subst hcache
    exact Lock.Engine.longTokens_new
  · intro config next label hlong _ hstep
    cases label with
    | env event => exact hlong.envStep (Config.step_env_cases hstep).1
    | thread i choice =>
      obtain ⟨_, _, _, _, hexec, _⟩ := Config.step_thread_cases hstep
      exact hlong.exec hexec

theorem refuses_short_token (hlong : s.LongTokens 1) (choice : Choice)
    (parseDuration : GoString → Duration) {key token : GoString}
    (hkey : key ≠ []) (htoken : token ≠ []) (hshort : token.length < 32)
    (body : ExtendBody) :
    (handleLockRelease 0 key token).solo machine choice s =
        some (notHeldResponse (ascii "released"), s) ∧
      (handleLockExtend parseDuration 0 key token (some body)).solo machine
        choice s = some (notHeldResponse (ascii "extended"), s) := by
  obtain ⟨caches, grants⟩ := s
  obtain ⟨cache, rest, rfl⟩ := List.exists_cons_of_length_pos hlong.started
  have hcache : cache.lockEngine.LongTokens :=
    hlong.tokens cache List.mem_cons_self
  have hrefuses := hcache.refuses_short hshort choice.clock (lockKeyOf key)
    (ttlOrDefault (parseDuration body.ttl))
  constructor
  · have hexec : machine.exec ⟨cache :: rest, grants⟩
        (.engineRelease 0 (lockKeyOf key) token) choice =
        some (false, ⟨cache :: rest, grants⟩) := by
      simp [machine, exec, Cluster.onCache, Cache.handleLockRelease,
        hrefuses.1]
    rw [handleLockRelease, if_neg hkey, if_neg htoken,
      Prog.solo_perform_bind hexec]
    rfl
  · have hexec : machine.exec ⟨cache :: rest, grants⟩
        (.engineExtend 0 (lockKeyOf key) token
          (ttlOrDefault (parseDuration body.ttl))) choice =
        some (false, ⟨cache :: rest, grants⟩) := by
      simp [machine, exec, Cluster.onCache, Cache.handleLockExtend,
        hrefuses.2]
    rw [handleLockExtend, if_neg hkey, if_neg htoken]
    exact Prog.solo_perform_bind hexec

end Cluster

/-! ## The round trip -/

open Cluster

def anyOp : Discipline signature Unit where
  guard := fun _ _ => True
  update := fun _ _ _ => ()

theorem follows_anyOp {α : Type} (program : Program α) :
    Follows anyOp (fun _ _ => True) () program :=
  follows_of_closed (fun _ => trivial) (fun _ _ => rfl) (fun _ => trivial)
    program

/-- A POST that answers 200 had a key and returns a fencing number. -/
def PostReply (request : LockRequest) (response : Response) : Prop :=
  ∀ key body, request = .post key body → response.status = 200 →
    key ≠ [] ∧ ∃ token, response = acquiredResponse token

theorem follows_request (parseDuration : GoString → Duration) (c : ℕ)
    (request : LockRequest) :
    Follows anyOp (fun _ => PostReply request) ()
      (request.program parseDuration c) := by
  cases request with
  | post key body =>
    simp only [LockRequest.program, handleLockAcquire]
    split
    · rintro _ _ ⟨⟩ hstatus
      contradiction
    · next hkey =>
        cases body with
        | none =>
          rintro _ _ ⟨⟩ hstatus
          contradiction
        | some req =>
          refine follows_bind ((follows_anyOp _).mono ?_)
          rintro ⟨⟩ result -
          match result with
          | .ok handle =>
            rintro _ _ ⟨⟩ _
            exact ⟨hkey, handle.Token, rfl⟩
          | .error error =>
            cases error <;>
              · rintro _ _ ⟨⟩ hstatus
                simp [writeError, writeJSON] at hstatus
  | delete key token =>
    exact (follows_anyOp _).mono fun _ _ _ _ _ hpost => by contradiction
  | put key token body =>
    exact (follows_anyOp _).mono fun _ _ _ _ _ hpost => by contradiction

/-- In every state of a single server in which a POST has answered with a
token, a DELETE and a PUT with that token are refused and change nothing. -/
theorem posted_token_refused {ι : Type} [DecidableEq ι]
    (parseDuration : GoString → Duration) (requests : ι → LockRequest)
    {config : Config ι signature Cluster Response}
    (hreach : Config.Reaches machine anyStep
      (Config.start singleNode fun i =>
        (requests i).program parseDuration 0) config)
    {i : ι} {key : GoString} {body : Option AcquireBody}
    (hrequest : requests i = .post key body) {response : Response}
    (hresponse : config.threads i = .ret response)
    (hstatus : response.status = 200) :
    ∃ token : UInt64, response = acquiredResponse token ∧
      ∀ choice extendBody,
        (handleLockRelease 0 key (decimal token.toNat)).solo machine choice
            config.shared =
          some (notHeldResponse (ascii "released"), config.shared) ∧
        (handleLockExtend parseDuration 0 key (decimal token.toNat)
            (some extendBody)).solo machine choice config.shared =
          some (notHeldResponse (ascii "extended"), config.shared) := by
  have hfollow := hreach.disciplined (D := fun _ => anyOp)
    (fun i => follows_request parseDuration 0 (requests i)) i
  rw [hresponse] at hfollow
  obtain ⟨hkey, token, htoken⟩ := hfollow key body hrequest hstatus
  refine ⟨token, htoken, fun choice extendBody => ?_⟩
  have hlength : (decimal token.toNat).length ≤ 20 := by
    apply decimal_length_le (by norm_num)
    have hlt := token.toNat_lt
    omega
  exact refuses_short_token (reaches_longTokens hreach) choice parseDuration
    hkey (decimal_ne_nil _) (by omega) extendBody

/-- A client locks `k` for ten seconds, extends the lock and releases it,
with the token it was given. -/
def lockSession : Fin 3 → LockRequest
  | 0 => .post (ascii "k") (some ⟨ascii "10s", 0, []⟩)
  | 1 => .put (ascii "k") (decimal 1) (some ⟨ascii "10s"⟩)
  | 2 => .delete (ascii "k") (decimal 1)

def sessionDuration (text : GoString) : Duration :=
  if text = ascii "10s" then 10000000000 else 0

def sessionChoice (t : ℤ) : Choice := ⟨.instant t, fun _ => 7, .unsent []⟩

theorem posted_token_refused_session :
    ∃ config : Config (Fin 3) signature Cluster Response,
      config.threads 0 = .ret (acquiredResponse 1) ∧
      ∃ token : UInt64, acquiredResponse 1 = acquiredResponse token ∧
      ∀ choice extendBody,
        (handleLockRelease 0 (ascii "k") (decimal token.toNat)).solo machine
            choice config.shared =
          some (notHeldResponse (ascii "released"), config.shared) ∧
        (handleLockExtend sessionDuration 0 (ascii "k") (decimal token.toNat)
            (some extendBody)).solo machine choice config.shared =
          some (notHeldResponse (ascii "extended"), config.shared) := by
  have hrun : ((Config.start singleNode fun i =>
      (lockSession i).program sessionDuration 0).runWith machine anyStep
      (List.replicate 4 (.thread 0 (sessionChoice 0)))).any
      (fun config => (config.threads 0).value? =
        some (acquiredResponse 1)) = true := by
    decide +kernel
  obtain ⟨config, hreach, htest⟩ := Config.exists_reaches hrun
  have hresponse := Prog.eq_ret_of_value? (of_decide_eq_true htest)
  exact ⟨config, hresponse, posted_token_refused sessionDuration lockSession
    hreach (i := 0) rfl hresponse rfl⟩

/-- The session fails while the lock is held: at five seconds the PUT and the
DELETE answer 409, and the entry expires at ten. -/
theorem session_refused :
    ∃ config : Config (Fin 3) signature Cluster Response,
      Config.Reaches machine anyStep
        (Config.start singleNode fun i =>
          (lockSession i).program sessionDuration 0) config ∧
      config.threads 0 = .ret (acquiredResponse 1) ∧
      config.threads 1 = .ret (notHeldResponse (ascii "extended")) ∧
      config.threads 2 = .ret (notHeldResponse (ascii "released")) ∧
      (config.shared.caches[0]?.bind fun cache =>
        cache.lockEngine.locks.lookup (lockKeyOf (ascii "k"))) =
        some ⟨lockKeyOf (ascii "k"), Lock.generateToken fun _ => 7, 1,
          10000000000, []⟩ := by
  have hrun : ((Config.start singleNode fun i =>
      (lockSession i).program sessionDuration 0).runWith machine anyStep
      (List.replicate 4 (.thread 0 (sessionChoice 0)) ++
        [.thread 1 (sessionChoice 5000000000),
          .thread 2 (sessionChoice 5000000000)])).any
      (fun config =>
        (config.threads 0).value? = some (acquiredResponse 1) &&
        (config.threads 1).value? =
          some (notHeldResponse (ascii "extended")) &&
        (config.threads 2).value? =
          some (notHeldResponse (ascii "released")) &&
        (config.shared.caches[0]?.bind fun cache =>
          cache.lockEngine.locks.lookup (lockKeyOf (ascii "k"))) =
          some ⟨lockKeyOf (ascii "k"), Lock.generateToken fun _ => 7, 1,
            10000000000, []⟩) = true := by
    decide +kernel
  obtain ⟨config, hreach, htest⟩ := Config.exists_reaches hrun
  simp only [Bool.and_eq_true, decide_eq_true_eq] at htest
  obtain ⟨⟨⟨hpost, hput⟩, hdelete⟩, hentry⟩ := htest
  exact ⟨config, hreach, Prog.eq_ret_of_value? hpost,
    Prog.eq_ret_of_value? hput, Prog.eq_ret_of_value? hdelete, hentry⟩

end CacheGrid
