import CacheGrid.ClusterLocks
import CacheGrid.PooledConnections
import CacheGrid.Transport

/-!
# Fencing tokens in a cluster

Every cache counts its own grants.  As long as one engine serves all the
acquisitions of a key, a later handle carries a larger token; once the key
moves to another engine, the count starts over.

The RPCs of a cache to one address share a connection, and a caller takes the
next response on it.  What is said of the calls holds as long as no caller
writes to a connection whose last response is still unread.
-/

namespace CacheGrid

open InterleavedPrograms

namespace Cluster

/-! ## What a step does to the counters -/

def fencingSeqAt (s : Cluster) (c : ℕ) : Option UInt64 :=
  (s.caches[c]?).map fun cache => cache.lockEngine.fencingSeq

structure KeepsFencing (s after : Cluster) : Prop where
  grants_eq : after.grants = s.grants
  seq_eq : ∀ c seq, s.fencingSeqAt c = some seq →
    after.fencingSeqAt c = some seq

/-- Cache `c` grants `key` with the next number of its own count. -/
structure GrantsNext (s after : Cluster) (key : GoString) (c : ℕ)
    (seq : UInt64) : Prop where
  before : s.fencingSeqAt c = some seq
  grants_eq : after.grants = s.grants ++ [⟨key, c, seq + 1⟩]
  after_eq : after.fencingSeqAt c = some (seq + 1)
  other_eq : ∀ d, d ≠ c → after.fencingSeqAt d = s.fencingSeqAt d

theorem KeepsFencing.refl (s : Cluster) : KeepsFencing s s :=
  ⟨rfl, fun _ _ hseq => hseq⟩

variable {c : ℕ}

theorem fencingSeqAt_set {s : Cluster} {cache changed : Cache}
    {grants : List Grant} (hcache : s.caches[c]? = some cache) (d : ℕ) :
    fencingSeqAt ⟨s.caches.set c changed, grants⟩ d =
      if d = c then some changed.lockEngine.fencingSeq
      else s.fencingSeqAt d := by
  have hlt : c < s.caches.length := (List.getElem?_eq_some_iff.mp hcache).1
  unfold fencingSeqAt
  by_cases hd : d = c
  · subst hd
    simp [hlt]
  · rw [if_neg hd, List.getElem?_set_ne (Ne.symm hd)]

theorem runEngine_cases {s : Cluster} {cache : Cache}
    (hcache : s.caches[c]? = some cache) (call : Readings × Lock.Op) :
    (∀ granted, (cache.lockEngine.step call).1 ≠ .acquired (some granted)) ∧
        KeepsFencing s (s.runEngine c cache call) ∨
      ∃ key ttl owner random token,
        call.2 = .acquire key ttl owner random ∧
        (cache.lockEngine.step call).1 =
          .acquired (some (token, cache.lockEngine.fencingSeq + 1)) ∧
        GrantsNext s (s.runEngine c cache call) key c
          cache.lockEngine.fencingSeq := by
  have hbefore : s.fencingSeqAt c = some cache.lockEngine.fencingSeq := by
    simp [fencingSeqAt, hcache]
  rcases cache.lockEngine.step_cases call with
    ⟨key, ttl, owner, random, token, hcall, hresult, hseq⟩ | ⟨hnone, hseq⟩
  · refine Or.inr ⟨key, ttl, owner, random, token, hcall, hresult, hbefore,
      ?_, ?_, ?_⟩
    · simp [runEngine, newGrants, hcall, hresult]
    · rw [runEngine, fencingSeqAt_set hcache, if_pos rfl, hseq]
    · intro d hd
      rw [runEngine, fencingSeqAt_set hcache, if_neg hd]
  · refine Or.inl ⟨hnone, ?_, ?_⟩
    · rw [runEngine, newGrants_eq_nil hnone, List.append_nil]
    · intro d seq hd
      rw [runEngine, fencingSeqAt_set hcache]
      split
      · next heq =>
          subst heq
          rw [hseq, ← hbefore, hd]
      · exact hd

variable {s after : Cluster} {op : Op}

theorem exec_fencing {choice : Choice} {answer : op.Answer}
    (hexec : s.exec op choice = some (answer, after)) :
    op.granted answer = none ∧ KeepsFencing s after ∨
      ∃ key c seq, op.acquires choice = some (key, c) ∧
        GrantsNext s after key c seq ∧
        ∀ told, op.granted answer = some told → told = (key, seq + 1) := by
  rcases exec_cases hexec with ⟨hnothing, rfl⟩ |
    ⟨c, cache, call, hcache, rfl, hacquires, htells⟩
  · exact Or.inl ⟨hnothing, KeepsFencing.refl _⟩
  · rcases runEngine_cases hcache call with ⟨hnone, hkeeps⟩ |
      ⟨key, ttl, owner, random, token, hcall, hresult, hnext⟩
    · refine Or.inl ⟨?_, hkeeps⟩
      cases htold : op.granted answer with
      | none => rfl
      | some told =>
        obtain ⟨_, _, _, _, _, hgranted⟩ := htells told htold
        exact absurd hgranted (hnone _)
    · refine Or.inr ⟨key, c, _, hacquires key ttl owner random hcall, hnext,
        ?_⟩
      intro told htold
      obtain ⟨_, _, _, _, hcall', hgranted⟩ := htells told htold
      rw [hcall, Lock.Op.acquire.injEq] at hcall'
      rw [hresult, Lock.Result.acquired.injEq, Option.some.injEq] at hgranted
      exact Prod.ext hcall'.1.symm (congrArg Prod.snd hgranted).symm

theorem envStep_keepsFencing {event : Env}
    (hstep : s.envStep event = some after) : KeepsFencing s after := by
  rcases envStep_cases hstep with ⟨fresh, rfl, _⟩ |
    ⟨c, cache, changed, hcache, rfl, hengine⟩ |
    ⟨c, cache, clock, visit, hcache, rfl⟩
  · refine ⟨rfl, fun c seq hseq => ?_⟩
    simp only [fencingSeqAt, Option.map_eq_some_iff] at hseq ⊢
    obtain ⟨cache, hcache, hseq⟩ := hseq
    refine ⟨cache, ?_, hseq⟩
    rw [List.getElem?_append_left (List.getElem?_eq_some_iff.mp hcache).1]
    exact hcache
  · refine ⟨rfl, fun d seq hseq => ?_⟩
    rw [fencingSeqAt_set hcache]
    split
    · next heq =>
        subst heq
        simpa [fencingSeqAt, hcache, hengine] using hseq
    · exact hseq
  · rcases runEngine_cases hcache (clock, .cleanup visit) with
      ⟨_, hkeeps⟩ | ⟨_, _, _, _, _, hcall, _⟩
    · exact hkeeps
    · contradiction

/-! ## The tokens of one key -/

/-- Every grant is within the count of its engine, and the grants of
`lockKey` carry increasing tokens. -/
structure Fenced (lockKey : GoString) (s : Cluster) : Prop where
  bounded : ∀ g ∈ s.grants, ∃ seq, s.fencingSeqAt g.server = some seq ∧
    g.fencing ≤ seq
  increasing : s.grants.Pairwise fun g h =>
    g.key = lockKey → h.key = lockKey → g.fencing < h.fencing

variable {lockKey : GoString}

theorem KeepsFencing.fenced (hkeeps : KeepsFencing s after)
    (hfenced : Fenced lockKey s) :
    Fenced lockKey after := by
  constructor
  · intro g hg
    rw [hkeeps.grants_eq] at hg
    obtain ⟨seq, hseq, hle⟩ := hfenced.bounded g hg
    exact ⟨seq, hkeeps.seq_eq _ _ hseq, hle⟩
  · rw [hkeeps.grants_eq]
    exact hfenced.increasing

theorem GrantsNext.fenced {lockKey key : GoString} {seq : UInt64}
    (hgrants : GrantsNext s after key c seq) (hwrap : seq.toNat + 1 < 2 ^ 64)
    (hsame : key = lockKey → ∀ g ∈ s.grants, g.key = lockKey → g.server = c)
    (hfenced : Fenced lockKey s) : Fenced lockKey after := by
  have hlt : seq < seq + 1 := by
    rw [UInt64.lt_iff_toNat_lt, UInt64.toNat_add]
    change seq.toNat < (seq.toNat + 1) % 2 ^ 64
    omega
  constructor
  · intro g hg
    rw [hgrants.grants_eq, List.mem_append, List.mem_singleton] at hg
    rcases hg with hg | rfl
    · obtain ⟨old, hold, hle⟩ := hfenced.bounded g hg
      by_cases hserver : g.server = c
      · rw [hserver, hgrants.before, Option.some.injEq] at hold
        rw [hserver]
        refine ⟨seq + 1, hgrants.after_eq, ?_⟩
        exact UInt64.le_trans (hold ▸ hle) (UInt64.le_of_lt hlt)
      · exact ⟨old, (hgrants.other_eq _ hserver).trans hold, hle⟩
    · exact ⟨seq + 1, hgrants.after_eq, UInt64.le_refl _⟩
  · rw [hgrants.grants_eq, List.pairwise_append]
    refine ⟨hfenced.increasing, List.pairwise_singleton _ _, ?_⟩
    intro g hg h hh hgkey hhkey
    rw [List.mem_singleton] at hh
    subst hh
    -- The same engine granted both, so the old token is within its count.
    obtain ⟨old, hold, hle⟩ := hfenced.bounded g hg
    rw [hsame hhkey g hg hgkey, hgrants.before, Option.some.injEq] at hold
    subst hold
    exact UInt64.lt_of_le_of_lt hle hlt

variable {ι : Type} [DecidableEq ι]

/-- Cache `c` may serve an attempt to acquire `key`: its counter does not
wrap around, and if the key is `lockKey`, it has granted all its earlier
locks. -/
def MayServe (lockKey : GoString) (s : Cluster) (attempt : GoString × ℕ) :
    Prop :=
  (∀ seq ∈ s.fencingSeqAt attempt.2, seq.toNat + 1 < 2 ^ 64) ∧
    (attempt.1 = lockKey → ∀ g ∈ s.grants, g.key = lockKey →
      g.server = attempt.2)

instance (lockKey : GoString) (s : Cluster) (attempt : GoString × ℕ) :
    Decidable (MayServe lockKey s attempt) :=
  decidable_of_iff
    ((s.fencingSeqAt attempt.2).all
        (fun seq => seq.toNat + 1 < 2 ^ 64) = true ∧
      (attempt.1 = lockKey → ∀ g ∈ s.grants, g.key = lockKey →
        g.server = attempt.2))
    (by simp [MayServe, Option.all_eq_true])

def attempt (config : Config ι signature Cluster LockReply) (i : ι)
    (choice : Choice) : Option (GoString × ℕ) :=
  match config.threads i with
  | .ret _ => none
  | .act op _ => Op.acquires choice op

/-- Every attempt to acquire a lock is served by the engine that granted the
earlier locks of `lockKey`, if it is for that key, and by one whose counter
does not wrap around. -/
def OneEngine (lockKey : GoString)
    (config : Config ι signature Cluster LockReply) :
    Label ι Choice Env → Prop
  | .env _ => True
  | .thread i choice =>
    ∀ served ∈ attempt config i choice, MayServe lockKey config.shared served

theorem Fenced.step {config next : Config ι signature Cluster LockReply}
    {label : Label ι Choice Env} (hfenced : Fenced lockKey config.shared)
    (hok : OneEngine lockKey config label)
    (hstep : config.step machine label = some next) :
    Fenced lockKey next.shared := by
  cases label with
  | env event =>
    have henv := (Config.step_env_cases hstep).1
    exact (envStep_keepsFencing henv).fenced hfenced
  | thread i choice =>
    obtain ⟨op, continuation, answer, hthread, hexec, _, _⟩ :=
      Config.step_thread_cases hstep
    rcases exec_fencing hexec with ⟨_, hkeeps⟩ |
      ⟨key, c, seq, hacquires, hgrants, _⟩
    · exact hkeeps.fenced hfenced
    · have hserve : MayServe lockKey config.shared (key, c) := by
        apply hok
        simpa [attempt, hthread] using hacquires
      exact hgrants.fenced (hserve.1 seq hgrants.before) hserve.2 hfenced

theorem reaches_fenced {threads : ι → Program LockReply}
    {config : Config ι signature Cluster LockReply}
    (hreach : Config.Reaches machine (OneEngine lockKey)
      (Config.start .empty threads) config) :
    Fenced lockKey config.shared := by
  refine hreach.invariant (fun config => Fenced lockKey config.shared) ?_
    fun _ _ _ hfenced hok hstep => hfenced.step hok hstep
  exact ⟨by simp [Config.start, Cluster.empty],
    by simp [Config.start, Cluster.empty]⟩

/-! ## What a call knows -/

def watch (lockKey : GoString) : Discipline signature (Option UInt64) where
  guard := fun _ _ => True
  update := fun told op answer =>
    match Op.granted op answer with
    | some (key, fencing) => if key = lockKey then some fencing else told
    | none => told

variable {told : Option UInt64}

theorem watch_update_none {answer : op.Answer}
    (hnone : op.granted answer = none) :
    (watch lockKey).update told op answer = told := by
  simp [watch, hnone]

theorem watch_update_some {lockKey key : GoString} {answer : op.Answer}
    {fencing : UInt64} (hsome : op.granted answer = some (key, fencing)) :
    (watch lockKey).update told op answer =
      if key = lockKey then some fencing else told := by
  simp [watch, hsome]

theorem follows_ownerAddr {key : GoString}
    {post : Option UInt64 → GoString → Prop} (hpost : ∀ addr, post told addr) :
    Follows (watch lockKey) post told (ownerAddr c key) := by
  unfold ownerAddr ownerAddrOver
  refine follows_perform trivial fun found => ?_
  cases found with
  | none => exact hpost _
  | some owner =>
    dsimp only
    split
    · exact hpost _
    · refine follows_perform trivial fun self => ?_
      split
      · exact hpost _
      · refine follows_perform trivial fun node => ?_
        cases node with
        | none => exact hpost _
        | some node => exact hpost _

theorem follows_lockAttempt {opts : LockOptions} :
    Follows (watch lockKey)
      (fun told result => ∀ h, result = .ok (some h) →
        told = some h.fencingToken) told
      (lockAttempt c lockKey opts) := by
  unfold lockAttempt
  refine follows_bind (follows_ownerAddr fun addr => ?_)
  split
  · refine follows_perform trivial fun answer => ?_
    cases answer with
    | error text => simp
    | ok granted => cases granted <;> simp [watch, Op.granted]
  · refine follows_perform trivial fun owner => ?_
    refine follows_perform trivial fun granted => ?_
    cases granted <;> simp [watch, Op.granted]

theorem follows_lockLoop {opts : LockOptions} (remaining : ℕ)
    (told : Option UInt64) :
    Follows (watch lockKey)
      (fun told result => ∀ h, result = .ok h → told = some h.fencingToken)
      told (lockLoop c lockKey opts remaining) := by
  induction remaining generalizing told with
  | zero => simp [lockLoop]
  | succ remaining ih =>
    rw [lockLoop]
    refine follows_bind (follows_lockAttempt.mono ?_)
    intro told result hresult
    match result with
    | .error error => simp
    | .ok (some handle) =>
      rintro h ⟨⟩
      exact hresult handle rfl
    | .ok none =>
      dsimp only
      split
      · exact follows_perform trivial fun _ => ih _
      · exact ih told

theorem follows_lock {key : GoString} {opts : LockOptions}
    (told : Option UInt64) :
    Follows (watch (lockKeyOf key))
      (fun told result => ∀ h, result = .ok h → told = some h.fencingToken)
      told (lock c key opts) := by
  unfold lock
  split
  · simp
  · refine follows_perform trivial fun closed => ?_
    split
    · simp
    · exact follows_lockLoop _ _

def Knows (key : GoString) (call : LockCall) (told : Option UInt64)
    (reply : LockReply) : Prop :=
  ∀ c opts h, call = .lock c key opts → reply = .locked (.ok h) →
    told = some h.fencingToken

theorem follows_program (key : GoString) (call : LockCall)
    (told : Option UInt64) :
    Follows (watch (lockKeyOf key)) (Knows key call) told call.program := by
  by_cases hlock : ∃ c opts, call = .lock c key opts
  · obtain ⟨c, opts, rfl⟩ := hlock
    refine follows_map ((follows_lock told).mono ?_)
    rintro told result hresult _ _ h _ ⟨⟩
    exact hresult h rfl
  · have hknows : ∀ told reply, Knows key call told reply :=
      fun _ _ c opts _ hcall => absurd ⟨c, opts, hcall⟩ hlock
    generalize call.program = program
    induction program generalizing told with
    | ret reply => exact hknows told reply
    | act op next ih => exact ⟨trivial, fun answer => ih answer _⟩

abbrev toldTo (lockKey : GoString) (log : List (Event ι signature)) (i : ι) :
    Option UInt64 :=
  ghostOf (fun _ => watch lockKey) (fun _ => none) log i

/-- Since the grants were `base`, whatever the thread has been told is a new
grant. -/
def ToldSince (lockKey : GoString) (base : List Grant) (i : ι)
    (config : Config ι signature Cluster LockReply) : Prop :=
  ∃ later, config.shared.grants = base ++ later ∧
    ∀ fencing, toldTo lockKey config.log i = some fencing →
      ∃ g ∈ later, g.key = lockKey ∧ g.fencing = fencing

theorem ToldSince.step {base : List Grant} {i : ι}
    {config next : Config ι signature Cluster LockReply}
    {label : Label ι Choice Env} (htold : ToldSince lockKey base i config)
    (hstep : config.step machine label = some next) :
    ToldSince lockKey base i next := by
  obtain ⟨later, hgrants, hmem⟩ := htold
  cases label with
  | env event =>
    obtain ⟨henv, _, hlog⟩ := Config.step_env_cases hstep
    refine ⟨later, (envStep_keepsFencing henv).grants_eq.trans hgrants, ?_⟩
    rw [hlog]
    exact hmem
  | thread j choice =>
    obtain ⟨op, continuation, answer, _, hexec, _, hlog⟩ :=
      Config.step_thread_cases hstep
    rcases exec_fencing hexec with ⟨hnothing, hkeeps⟩ |
      ⟨key, c, seq, _, hnext, htells⟩
    · refine ⟨later, hkeeps.grants_eq.trans hgrants, ?_⟩
      have hsame : toldTo lockKey next.log i =
          toldTo lockKey config.log i := by
        rw [hlog]
        by_cases hji : j = i
        · subst hji
          rw [toldTo, ghostOf_append_self, watch_update_none hnothing]
        · exact ghostOf_append_other _ _ _ hji _ _
      rw [hsame]
      exact hmem
    · refine ⟨later ++ [⟨key, c, seq + 1⟩], ?_, ?_⟩
      · rw [hnext.grants_eq, hgrants, List.append_assoc]
      · intro fencing hfencing
        by_cases hold : toldTo lockKey config.log i = some fencing
        · obtain ⟨g, hg, hrest⟩ := hmem fencing hold
          exact ⟨g, List.mem_append_left _ hg, hrest⟩
        · -- The thread was told just now.
          rw [hlog] at hfencing
          have hji : j = i := by
            by_contra hji
            rw [toldTo, ghostOf_append_other _ _ _ hji] at hfencing
            exact hold hfencing
          subst hji
          rw [toldTo, ghostOf_append_self] at hfencing
          cases hgranted : Op.granted op answer with
          | none =>
            rw [watch_update_none hgranted] at hfencing
            exact absurd hfencing hold
          | some told =>
            rw [htells told hgranted] at hgranted
            rw [watch_update_some hgranted] at hfencing
            split at hfencing
            · next hkey =>
                refine ⟨⟨key, c, seq + 1⟩, by simp, hkey, ?_⟩
                exact Option.some.inj hfencing
            · exact absurd hfencing hold

theorem reaches_toldSince (lockKey : GoString) (i : ι)
    {ok : Config ι signature Cluster LockReply → Label ι Choice Env → Prop}
    {earlier later : Config ι signature Cluster LockReply}
    (hreach : Config.Reaches machine ok earlier later)
    (hidle : ∀ event ∈ earlier.log, event.thread ≠ i) :
    ToldSince lockKey earlier.shared.grants i later := by
  refine hreach.invariant (ToldSince lockKey earlier.shared.grants i) ?_
    fun _ _ _ htold _ hstep => htold.step hstep
  refine ⟨[], (List.append_nil _).symm, ?_⟩
  rw [toldTo, ghostOf_idle _ _ hidle]
  simp

/-- With RPCs that are single operations. -/
theorem tokens_increase (calls : ι → LockCall)
    {earlier later : Config ι signature Cluster LockReply} {key : GoString}
    (hearlier : Config.Reaches machine (OneEngine (lockKeyOf key))
      (Config.start .empty fun i => (calls i).program) earlier)
    (hlater : Config.Reaches machine (OneEngine (lockKeyOf key))
      earlier later)
    {i j : ι} {c d : ℕ} {opts opts' : LockOptions}
    (hcalli : calls i = .lock c key opts)
    (hcallj : calls j = .lock d key opts')
    {first second : LockHandle}
    (hfirst : earlier.threads i = .ret (.locked (.ok first)))
    (hidle : ∀ event ∈ earlier.log, event.thread ≠ j)
    (hsecond : later.threads j = .ret (.locked (.ok second))) :
    first.Token < second.Token := by
  have hfollows : ∀ i, Follows (watch (lockKeyOf key)) (Knows key (calls i))
      none (calls i).program := fun i => follows_program key (calls i) none
  have hknowi := hearlier.disciplined hfollows i
  rw [hfirst] at hknowi
  have hall : Config.Reaches machine (OneEngine (lockKeyOf key))
      (Config.start .empty fun i => (calls i).program) later :=
    hearlier.trans hlater
  have hknowj := hall.disciplined hfollows j
  rw [hsecond] at hknowj
  obtain ⟨old, hold, hmem⟩ := reaches_toldSince (lockKeyOf key) i
    hearlier (by simp [Config.start])
  obtain ⟨new, hnew, hmem'⟩ := reaches_toldSince (lockKeyOf key) j
    hlater hidle
  obtain ⟨g, hg, hgkey, hgfirst⟩ :=
    hmem _ (hknowi c opts first hcalli rfl)
  obtain ⟨h, hh, hhkey, hhsecond⟩ :=
    hmem' _ (hknowj d opts' second hcallj rfl)
  have hincreasing := (reaches_fenced hall).increasing
  rw [hnew, List.pairwise_append] at hincreasing
  have hgold : g ∈ earlier.shared.grants := by
    rw [hold]
    exact List.mem_append_right _ hg
  have hlt := hincreasing.2.2 g hgold h hh hgkey hhkey
  rw [hgfirst, hhsecond] at hlt
  exact hlt

/-! ## The connections -/

def responseTo : (op : Op) → op.Answer → Option Transport.Response
  | .remoteLockAcquire _ _ _, .ok none => some {}
  | .remoteLockAcquire _ _ _, .ok (some granted) => some {
      token := granted.1, fencingToken := granted.2, acquired := true }
  | .remoteLockRelease _ _ _, .ok ok => some { ok := ok }
  | .remoteLockExtend _ _ _ _, .ok ok => some { ok := ok }
  | _, _ => none

def respond (s : Cluster) (op : Op) (choice : Choice) :
    Option Transport.Response :=
  (s.exec op choice).bind fun r => responseTo op r.1

/-- `RemoteLockAcquire`, with the response in hand. -/
def readAcquired (addr : GoString) (resp : Transport.Response) :
    Except GoString (Option (GoString × UInt64)) :=
  (Transport.checkResponse addr resp).map fun resp =>
    if resp.acquired then some (resp.token, resp.fencingToken) else none

def readOK (addr : GoString) (resp : Transport.Response) :
    Except GoString Bool :=
  (Transport.checkResponse addr resp).map Transport.Response.ok

def requests (c : ℕ) : PooledConnections.Requests signature (ℕ × GoString)
    GoString Transport.Response
  | .remoteLockAcquire addr _ _ => some ⟨(c, addr), .error, readAcquired addr⟩
  | .remoteLockRelease addr _ _ => some ⟨(c, addr), .error, readOK addr⟩
  | .remoteLockExtend addr _ _ _ => some ⟨(c, addr), .error, readOK addr⟩
  | _ => none

/-- The RPC is served all the same, and the response does not arrive. -/
def lost (choice : Choice) (error : GoString) : Choice :=
  match choice.rpc with
  | .answered server => { choice with rpc := .unanswered server error }
  | _ => choice

@[simp] theorem lost_clock (choice : Choice) (error : GoString) :
    (lost choice error).clock = choice.clock := by
  unfold lost
  split <;> rfl

@[simp] theorem lost_random (choice : Choice) (error : GoString) :
    (lost choice error).random = choice.random := by
  unfold lost
  split <;> rfl

theorem remoteCall_lost {α : Type} {choice : Choice} {addr : GoString}
    {serve : ℕ → Option (α × Cluster)} {answer : α}
    (hexec : s.remoteCall choice addr serve = some (.ok answer, after))
    (error : GoString) :
    s.remoteCall (lost choice error) addr serve =
      some (.error error, after) := by
  unfold remoteCall at hexec ⊢
  cases hrpc : choice.rpc with
  | unsent text => simp [hrpc] at hexec
  | unanswered server text =>
    simp only [hrpc] at hexec
    split at hexec
    · obtain ⟨_, _, heq⟩ := Option.map_eq_some_iff.mp hexec
      exact absurd (congrArg Prod.fst heq) (by simp)
    · contradiction
  | answered server =>
    simp only [hrpc, lost] at hexec ⊢
    split at hexec
    · next hserver =>
        obtain ⟨result, hserve, heq⟩ := Option.map_eq_some_iff.mp hexec
        rw [if_pos hserver, hserve, ← (Prod.mk.inj heq).2]
        rfl
    · contradiction

/-- A response stands for the answer of an RPC that was served, which might
have been lost. -/
theorem exec_of_responseTo {choice : Choice} {answer : op.Answer}
    {resp : Transport.Response}
    {request : PooledConnections.Request (ℕ × GoString) GoString
      Transport.Response op.Answer}
    (hrequest : requests c op = some request)
    (hresp : responseTo op answer = some resp)
    (hexec : s.exec op choice = some (answer, after)) :
    answer = request.read resp ∧ ∀ error,
      s.exec op (lost choice error) = some (request.failed error, after) := by
  cases op with
  | remoteLockAcquire addr key ttl =>
    cases hrequest
    cases answer with
    | error text => simp [responseTo] at hresp
    | ok granted =>
      refine ⟨?_, fun error => ?_⟩
      · cases granted <;> cases hresp <;> rfl
      · simpa [exec, acquireAt] using remoteCall_lost hexec error
  | remoteLockRelease addr key token =>
    cases hrequest
    cases answer with
    | error text => simp [responseTo] at hresp
    | ok ok =>
      cases hresp
      exact ⟨rfl, remoteCall_lost hexec⟩
  | remoteLockExtend addr key token ttl =>
    cases hrequest
    cases answer with
    | error text => simp [responseTo] at hresp
    | ok ok =>
      cases hresp
      refine ⟨rfl, fun error => ?_⟩
      simpa [exec] using remoteCall_lost hexec error
  | _ => contradiction

/-- Attempts are served as in `OneEngine`, and any RPC may fail. -/
def engineRules (lockKey : GoString) :
    PooledConnections.Rules signature Cluster Choice Env where
  perform := fun s op choice =>
    ∀ served ∈ op.acquires choice, MayServe lockKey s served
  happen := fun _ _ => True
  lossy := True

theorem acquires_lost (op : Op) (choice : Choice) (error : GoString) :
    op.acquires (lost choice error) = op.acquires choice := by
  cases op with
  | remoteLockAcquire addr key ttl =>
    cases hrpc : choice.rpc <;> simp [Op.acquires, lost, hrpc]
  | _ => rfl

theorem serves {κ : Type} (calls : κ → LockCall) (lockKey : GoString) :
    PooledConnections.Serves machine respond
      (fun i => requests (calls i).cache) lost (engineRules lockKey)
      (OneEngine lockKey) where
  answered := fun hrequest hrespond hexec => by
    rw [respond, show Cluster.exec _ _ _ = _ from hexec] at hrespond
    exact (exec_of_responseTo hrequest hrespond hexec).1
  unanswered := fun hrequest hrespond hexec error => by
    rw [respond, show Cluster.exec _ _ _ = _ from hexec] at hrespond
    exact (exec_of_responseTo hrequest hrespond hexec).2 error
  perform_lost := fun {s op choice} _ hperform error served hserved =>
    hperform served (acquires_lost op choice error ▸ hserved)
  thread_ok := fun hthread hperform served hserved => by
    rw [attempt, hthread] at hserved
    exact hperform served hserved
  env_ok := fun _ => trivial

/-! ## Main result -/

abbrev wire : Signature :=
  PooledConnections.signature signature (ℕ × GoString) GoString
    Transport.Response

abbrev Wired : Type :=
  PooledConnections.Network signature Cluster (ℕ × GoString)
    Transport.Response

def startOf (calls : ι → LockCall) : Config ι wire Wired LockReply :=
  Config.start (.start .empty) fun i =>
    PooledConnections.overConnections (requests (calls i).cache)
      (calls i).program

instance decidablePerform (lockKey : GoString) (s : Cluster) (op : Op)
    (choice : Choice) :
    Decidable ((engineRules lockKey).perform s op choice) :=
  inferInstanceAs (Decidable
    (∀ served ∈ op.acquires choice, MayServe lockKey s served))

instance (lockKey : GoString) (s : Cluster) (event : Env) :
    Decidable ((engineRules lockKey).happen s event) := isTrue trivial

instance (lockKey : GoString) : Decidable (engineRules lockKey).lossy :=
  isTrue trivial

/-- A lock of `k` that the first cache has from `addr`. -/
def handleOf (token : UInt64) (addr : GoString) : LockHandle :=
  ⟨0, lockKeyOf (ascii "k"), Lock.generateToken fun _ => 7, token, addr⟩

/-- One client locks, unlocks and locks `k` again at the first cache, where
the owner of the key was at `addr`. -/
def relock (addr : GoString) : Fin 3 → LockCall
  | 0 => .lock 0 (ascii "k") ⟨30000000000, 0, 0⟩
  | 1 => .release (handleOf 1 addr)
  | 2 => .lock 0 (ascii "k") ⟨30000000000, 0, 0⟩

def turns (i : Fin 3) (count : ℕ) (t : ℤ) : List (Label (Fin 3)
    (PooledConnections.Turn Choice GoString)
    (PooledConnections.NetworkEvent Choice Env)) :=
  List.replicate count (.thread i
    ⟨⟨.instant t, fun _ => 7, .answered 1⟩, none, false⟩)

def join : List (Label (Fin 3) (PooledConnections.Turn Choice GoString)
    (PooledConnections.NetworkEvent Choice Env)) :=
  [.env (.base (.start 1 (ascii "b") (ascii "b:7000"))),
    .env (.base (.notify 0 (.join (ascii "b") (ascii "b:7000")))),
    .env (.base (.notify 1 (.join (ascii "a") (ascii "a:7000"))))]

end Cluster

end CacheGrid
